import Mathlib.Data.List.Basic
import Mathlib.Tactic.MkIffOfInductiveProp
import Quill.Path.FileUri
import Quill.Proofs.Path.Percent
import Quill.Proofs.Path.Posix

/-!
# The uri of a path, read again

The uri of a path is written in units that reading a uri takes for nothing else, and with no dots
left to work off, so the path that is read is the one that was written, repaired where a surrogate
lacks its partner. But control units at the end of the path vanish before it is written.

## Main definitions

* `FileUri.beforeEnd` — the path without the control units that vanish at its end.

## Main statements

* `FileUri.path?_of_isNormal` — the uri of a normal path from the root, as it is, reads as the
  repaired path.
* `FileUri.ofPath_of_isNormal` — it is written as it is if nothing vanishes at its end.
* `FileUri.exists_ofPath_eq` — otherwise it is written as a shorter path is.
-/

namespace Quill

namespace FileUri

open Percent (sign piece encode decode? high low)

variable {t p s : Text} {u : UInt16} {o : UInt8} {ss kept : List Text}

theorem isAbsolute_of_path? (read : path? t = some p) : Posix.isAbsolute p := by
  simp only [path?, Option.ite_none_left_eq_some] at read
  obtain ⟨-, -, read⟩ := read
  rw [Percent.decode?_cons (by decide)] at read
  obtain ⟨rest, -, rfl⟩ := Option.map_eq_some_iff.1 read
  rfl

/-! ## How a path is written -/

/-- A unit of ASCII that reading a uri takes for nothing else. -/
@[mk_iff]
structure IsSafe (u : UInt16) : Prop where
  ascii : u < 0x80
  trimmed : isControlOrSpace u = false
  dropped : isDropped u = false
  ends : endsPath u = false
  backslash : u ≠ Text.unit '\\'
  bar : u ≠ Text.unit '|'

instance : DecidablePred IsSafe := fun u => decidable_of_iff' _ (isSafe_iff u)

/-- An octet in a path is safe if it stands for itself, and its escape is safe otherwise. Only the
dot and the slash have an escape that looks like one of these, and they stand for themselves. -/
structure IsWritten (o : UInt8) : Prop where
  plain : isPlain o → (o < 0x80 ∧ o.toUInt16 ≠ sign) ∧ IsSafe o.toUInt16
  escape : (Percent.escape o).Forall fun u => IsSafe u ∧ u ≠ Posix.slash
  digits : high o ≠ sign ∧ low o ≠ sign ∧ (high o = Text.unit '2' →
    lower (low o) = Text.unit 'e' ∨ lower (low o) = Text.unit 'f' → o = 46 ∨ o = 47)

theorem isWritten (o : UInt8) : IsWritten o := by
  constructor
  all_goals
    revert o
    exact Percent.forall_octet (by decide +kernel)

theorem isSafe_of_mem_piece (mem : u ∈ piece isPlain o) : IsSafe u := by
  unfold piece at mem
  split at mem
  next plain =>
    rw [List.mem_singleton.1 mem]
    exact ((isWritten o).plain plain).2
  next => exact (List.forall_iff_forall_mem.1 (isWritten o).escape u mem).1

theorem isSafe_of_mem_encode (mem : u ∈ encode isPlain t) : IsSafe u := by
  obtain ⟨o, -, mem⟩ := List.mem_flatMap.1 mem
  exact isSafe_of_mem_piece mem

theorem eq_of_slash_mem_piece (mem : Posix.slash ∈ piece isPlain o) : o = 47 := by
  unfold piece at mem
  split at mem
  next =>
    have eq := congrArg UInt16.toUInt8 (List.mem_singleton.1 mem)
    exact (by simpa using eq.symm : o = Posix.slash.toUInt8)
  next => exact absurd rfl (List.forall_iff_forall_mem.1 (isWritten o).escape _ mem).2

theorem slash_not_mem_encode (apart : Posix.slash ∉ t) : Posix.slash ∉ encode isPlain t :=
  fun mem => by
  obtain ⟨o, octet, mem⟩ := List.mem_flatMap.1 mem
  obtain rfl := eq_of_slash_mem_piece mem
  exact apart (Utf8.mem_of_mem_utf8 octet (by decide))

theorem encode_append_slash (a b : Text) :
    encode isPlain (a ++ Posix.slash :: b) = encode isPlain a ++ Posix.slash ::
      encode isPlain b := by
  simp only [Percent.encode_eq_flatMap, Text.utf8, Text.chars_append_cons (u := Posix.slash) rfl,
    Text.chars_cons (u := Posix.slash) rfl rfl, List.flatMap_append, List.flatMap_cons]
  rfl

theorem encode_join (ss : List Text) :
    encode isPlain (Text.join [Posix.slash] ss) =
      Text.join [Posix.slash] (ss.map (encode isPlain)) :=
  Text.map_join rfl encode_append_slash ss

/-- The segments of a written path are the segments of the path. -/
theorem split_encode (t : Text) : Text.split (· == Posix.slash) (encode isPlain t) =
    (Text.split (· == Posix.slash) t).map (encode isPlain) := by
  conv => lhs; rw [← Text.join_split Posix.slash t, encode_join]
  refine Text.split_join (by simpa using Text.split_ne_nil _ t) fun written mem => ?_
  obtain ⟨s, piece, rfl⟩ := List.mem_map.1 mem
  exact slash_not_mem_encode fun inside => by simpa using (Text.mem_of_mem_split piece inside).2

/-! ## No dot and no slash is written as an escape -/

/-- An octet is written as a unit, or as the escape of something other than a dot or a slash. -/
theorem piece_cases (o : UInt8) : (∃ u, piece isPlain o = [u] ∧ u ≠ sign) ∨
    ∃ a b, piece isPlain o = [sign, a, b] ∧ a ≠ sign ∧ b ≠ sign ∧
      ¬ (a = Text.unit '2' ∧ (lower b = Text.unit 'e' ∨ lower b = Text.unit 'f')) := by
  by_cases plain : isPlain o
  · exact .inl ⟨o.toUInt16, if_pos plain, ((isWritten o).plain plain).1.2⟩
  · obtain ⟨high_ne, low_ne, digits⟩ := (isWritten o).digits
    refine .inr ⟨high o, low o, if_neg plain, high_ne, low_ne, fun ⟨two, other⟩ => plain ?_⟩
    obtain rfl | rfl := digits two other <;> decide

theorem plainDots_cons (other : u ≠ sign) (t : Text) : plainDots (u :: t) = u :: plainDots t := by
  match t with
  | [] => rfl
  | [a] => rfl
  | a :: b :: rest => simp [plainDots, other]

theorem hasEscapedSlash_cons (other : u ≠ sign) (t : Text) :
    hasEscapedSlash (u :: t) = hasEscapedSlash t := by
  match t with
  | [] => rfl
  | [a] => rfl
  | a :: b :: rest => simp [hasEscapedSlash, other]

theorem plainDots_octets (os : List UInt8) :
    plainDots (os.flatMap (piece isPlain)) = os.flatMap (piece isPlain) := by
  induction os with
  | nil => rfl
  | cons o os ih =>
    rw [List.flatMap_cons]
    obtain ⟨u, eq, other⟩ | ⟨a, b, eq, first, second, other⟩ := piece_cases o
    · rw [eq, List.singleton_append, plainDots_cons other, ih]
    · rw [eq]
      simp only [List.cons_append, List.nil_append]
      rw [plainDots, if_neg (by simpa using fun two => (not_or.1 (not_and.1 other two)).1),
        plainDots_cons first, plainDots_cons second, ih]

theorem hasEscapedSlash_octets (os : List UInt8) :
    hasEscapedSlash (os.flatMap (piece isPlain)) = false := by
  induction os with
  | nil => rfl
  | cons o os ih =>
    rw [List.flatMap_cons]
    obtain ⟨u, eq, other⟩ | ⟨a, b, eq, first, second, other⟩ := piece_cases o
    · rw [eq, List.singleton_append, hasEscapedSlash_cons other, ih]
    · rw [eq]
      simp only [List.cons_append, List.nil_append]
      rw [hasEscapedSlash, hasEscapedSlash_cons first, hasEscapedSlash_cons second, ih,
        Bool.or_false]
      simpa using fun two => (not_or.1 (not_and.1 other two)).2

theorem plainDots_encode (t : Text) : plainDots (encode isPlain t) = encode isPlain t :=
  plainDots_octets t.utf8

theorem hasEscapedSlash_slash_encode (t : Text) :
    hasEscapedSlash (Posix.slash :: encode isPlain t) = false := by
  rw [hasEscapedSlash_cons (by decide)]
  exact hasEscapedSlash_octets t.utf8

/-- A text whose octets are written as some text without U+FFFD is that text. -/
theorem eq_of_encode_eq (eq : encode isPlain t = s) (read : decode? s = some s)
    (clean : 0xFFFD ∉ s) : t = s := by
  have same : some t.repaired = some s := by
    rw [← Percent.decode?_encode fun o plain => ((isWritten o).plain plain).1, eq, read]
  exact Text.eq_of_repaired_eq (Option.some.inj same) clean

/-! ## Segments that stay as they are -/

theorem take_append_colon (drive : isDrive s) (noBar : Text.unit '|' ∉ s) :
    s.take 1 ++ [Text.unit ':'] = s := by
  match s, drive with
  | [a, b], drive =>
    simp only [isDrive, Bool.and_eq_true, Bool.or_eq_true, beq_iff_eq] at drive
    obtain rfl | rfl := drive.2
    · rfl
    · simp at noBar

theorem encode_ne_dots (stay : s ≠ Posix.here ∧ s ≠ Posix.parent) :
    encode isPlain s ≠ Posix.here ∧ encode isPlain s ≠ Posix.parent :=
  ⟨fun eq => stay.1 (eq_of_encode_eq eq (by decide) (by decide)),
    fun eq => stay.2 (eq_of_encode_eq eq (by decide) (by decide))⟩

/-- Written segments without dots to work off are kept. A drive is one of them, since no bar is
written. -/
theorem resolveSegments_map_encode_append (stay : ∀ s ∈ ss, s ≠ Posix.here ∧ s ≠ Posix.parent)
    (kept rest : List Text) : resolveSegments kept (ss.map (encode isPlain) ++ rest) =
      resolveSegments ((ss.map (encode isPlain)).reverse ++ kept) rest := by
  induction ss generalizing kept with
  | nil => rfl
  | cons s ss ih =>
    obtain ⟨here, up⟩ := encode_ne_dots (stay s (.head _))
    have next := ih (fun r mem => stay r (.tail s mem)) (encode isPlain s :: kept)
    rw [List.map_cons, List.cons_append, resolveSegments.eq_def]
    simp only [plainDots_encode, beq_iff_eq, up, here, if_false]
    split
    next drive =>
      rw [Bool.and_eq_true, List.isEmpty_iff] at drive
      rw [take_append_colon drive.2 fun mem => (isSafe_of_mem_encode mem).bar rfl, ← drive.1]
      simpa using next
    next => simpa using next

theorem resolveSegments_map_encode (stay : ∀ s ∈ ss, s ≠ Posix.here ∧ s ≠ Posix.parent) :
    resolveSegments [] (ss.map (encode isPlain)) = ss.map (encode isPlain) := by
  simpa [resolveSegments] using resolveSegments_map_encode_append stay [] []

/-- A dot at the end leaves a slash there. -/
theorem resolveSegments_here (dots : plainDots s = Posix.here) (kept : List Text) :
    resolveSegments kept [s] = kept.reverse ++ [[]] := by
  have down : Posix.here ≠ Posix.parent := by decide
  rw [resolveSegments.eq_def]
  simp [dots, down, resolveSegments]

/-- Two dots at the end leave a slash there, and some of the kept segments. -/
theorem resolveSegments_parent (dots : plainDots s = Posix.parent) (kept : List Text) :
    ∃ before, before <:+ kept ∧ resolveSegments kept [s] = before.reverse ++ [[]] := by
  rw [resolveSegments.eq_def]
  simp only [dots, beq_self_eq_true, if_true, List.isEmpty_nil, resolveSegments, List.reverse_cons]
  refine ⟨_, ?_, rfl⟩
  split
  · exact List.nil_suffix
  · split
    · exact List.suffix_rfl
    · exact List.nil_suffix
  · exact List.suffix_cons _ _

/-! ## The written path, read -/

theorem unit_of_mem_written (mem : u ∈ scheme ++ "///" ++ encode isPlain t) :
    isControlOrSpace u = false ∧
    isDropped u = false := by
  have front : ∀ u ∈ scheme ++ "///", isControlOrSpace u = false ∧ isDropped u = false :=
    List.forall_iff_forall_mem.1 (by decide)
  rcases List.mem_append.1 mem with mem | mem
  · exact front u mem
  · exact ⟨(isSafe_of_mem_encode mem).trimmed, (isSafe_of_mem_encode mem).dropped⟩

theorem body_written (t : Text) :
    body (scheme ++ "///" ++ encode isPlain t) = "///" ++ encode isPlain t := by
  have noBlank {r : Text} (blank : ∀ u ∈ r, isControlOrSpace u = false) :
      r.dropWhile isControlOrSpace = r := by
    cases r with
    | nil => rfl
    | cons u r => simp [blank u (.head _)]
  have kept : (scheme ++ "///" ++ encode isPlain t).filter (!isDropped ·) = scheme ++ "///" ++
      encode isPlain t :=
    List.filter_eq_self.2 fun u mem => by simpa using (unit_of_mem_written mem).2
  have path : ∀ u ∈ Text.ofString "///" ++ encode isPlain t, !endsPath u := fun u mem => by
    have front : ∀ u ∈ Text.ofString "///", !endsPath u := List.forall_iff_forall_mem.1 (by decide)
    rcases List.mem_append.1 mem with mem | mem
    · exact front u mem
    · simpa using (isSafe_of_mem_encode mem).ends
  simp only [body]
  rw [noBlank fun u mem => (unit_of_mem_written mem).1,
    noBlank fun u mem => (unit_of_mem_written (List.mem_reverse.1 mem)).1, List.reverse_reverse,
    kept, List.append_assoc, List.drop_left, Text.takeWhile_eq_self path]

theorem isWellFormed_written (t : Text) :
    Text.IsWellFormed (scheme ++ "///" ++ encode isPlain t) := by
  have front : ∀ u ∈ scheme ++ "///", u < 0x80 := List.forall_iff_forall_mem.1 (by decide)
  refine Text.isWellFormed_of_ascii fun u mem => ?_
  rcases List.mem_append.1 mem with mem | mem
  · exact front u mem
  · exact (isSafe_of_mem_encode mem).ascii

/-- Reading the uri of a path gives the repaired path, if no dot is left to work off. -/
theorem path?_written
    (stay : ∀ s ∈ Text.split (· == Posix.slash) t, s ≠ Posix.here ∧ s ≠ Posix.parent) :
    path? (scheme ++ "///" ++ encode isPlain t) = some (Posix.slash :: t.repaired) := by
  have host : hostAndPath ("///" ++ encode isPlain t) = ([], encode isPlain t) := rfl
  have pieces : Text.split isSlash (encode isPlain t) =
      Text.split (· == Posix.slash) (encode isPlain t) :=
    Text.split_congr fun u mem => by simp [isSlash, (isSafe_of_mem_encode mem).backslash]
  have segments := resolveSegments_map_encode stay
  have whole : Text.repaired (scheme ++ "///" ++ encode isPlain t) = scheme ++ "///" ++
      encode isPlain t :=
    (isWellFormed_written t).repaired
  simp only [path?, whole, body_written, host, pieces, split_encode, segments]
  rw [← split_encode, Text.join_split, hasEscapedSlash_slash_encode]
  rw [Percent.decode?_cons (by decide),
    Percent.decode?_encode fun o plain => ((isWritten o).plain plain).1]
  rfl

/-! ## The uri of a path -/

/-- The path without the control units that vanish at its end. -/
def beforeEnd (p : Text) : Text := (p.reverse.dropWhile isDroppedAtEnd).reverse

theorem prefix_beforeEnd (p : Text) : beforeEnd p <+: p := by
  rw [beforeEnd, ← List.reverse_suffix, List.reverse_reverse]
  exact List.dropWhile_suffix isDroppedAtEnd

theorem beforeEnd_eq_self_iff : beforeEnd p = p ↔ ∀ u ∈ p.getLast?, isDroppedAtEnd u = false := by
  rw [beforeEnd, ← List.head?_reverse, ← List.reverse_inj, List.reverse_reverse]
  cases p.reverse with
  | nil => simp
  | cons u t =>
    cases h : isDroppedAtEnd u with
    | false => simp [h]
    | true =>
      simp only [List.dropWhile_cons, h, if_true, List.head?_cons, Option.mem_some_iff, forall_eq']
      refine iff_of_false (fun eq => ?_) (by simp)
      have shorter := (List.dropWhile_suffix isDroppedAtEnd (l := t)).length_le
      rw [eq, List.length_cons] at shorter
      omega

/-- Behind a unit that stays the end is cut by itself. -/
theorem beforeEnd_append (front : Text) (stays : isDroppedAtEnd u = false) (t : Text) :
    beforeEnd (front ++ [u] ++ t) = front ++ [u] ++ beforeEnd t := by
  have cut : (t.reverse ++ u :: front.reverse).dropWhile isDroppedAtEnd =
      t.reverse.dropWhile isDroppedAtEnd ++ u :: front.reverse := by
    rw [List.dropWhile_append]
    split
    next none => simp [stays, List.isEmpty_iff.1 none]
    next => rfl
  simp [beforeEnd, cut]

theorem beforeEnd_fromRoot (names : List Text) (last : Text) :
    beforeEnd (Posix.fromRoot names last) = Posix.fromRoot names (beforeEnd last) := by
  have ends : ∃ front, Posix.slash :: names.flatMap (· ++ [Posix.slash]) = front ++
      [Posix.slash] := by
    refine List.getLast?_eq_some_iff.1 ?_
    induction names with
    | nil => rfl
    | cons s names ih =>
      have cut : Posix.slash :: (s :: names).flatMap (· ++ [Posix.slash]) =
          (Posix.slash :: s) ++ (Posix.slash :: names.flatMap (· ++ [Posix.slash])) := by simp
      rw [cut, List.getLast?_append, ih]
      rfl
  obtain ⟨front, eq⟩ := ends
  simp only [Posix.fromRoot, ← List.cons_append, eq]
  exact beforeEnd_append front (by decide) last

/-- A normal path from the root is its own absolute path, with a slash at the end or not. -/
theorem resolved_eq_self (normal : Posix.IsNormal p) (absolute : Posix.isAbsolute p) :
    resolved p = p := by
  unfold resolved
  cases normal with
  | root => decide
  | dot trailing => cases trailing <;> exact absurd absolute (by decide)
  | @path rooted trailing ss ne segment resolved =>
    rw [Posix.isAbsolute_ofSegments ne segment] at absolute
    subst absolute
    have full : Posix.absolute (Posix.ofSegments true trailing ss) =
        Posix.ofSegments true false ss := by
      rw [Posix.absolute, Posix.absoluteSegments, Posix.segments_ofSegments segment,
        Posix.resolveDots_of_isResolved (show Posix.IsResolved false ss from resolved)]
      simp [Posix.ofSegments]
    have noSlash : ((Posix.ofSegments true false ss).getLast? != some Posix.slash) = true := by
      rw [bne, Posix.getLast?_ofSegments ne segment]
      rfl
    dsimp only
    rw [Posix.getLast?_ofSegments ne segment, full, noSlash]
    cases trailing
    · rfl
    · simp [Posix.ofSegments]

variable {names : List Text} {last : Text}

/-- What the segments of a path come to when the last one may have become dots: names, and a last
one that is empty or as it was. -/
theorem exists_resolveSegments (proper : ∀ s ∈ names, Posix.IsName s) (last : Text) :
    ∃ names' last', names' <+: names ∧
      (last' = [] ∨ last' = last ∧ last ≠ Posix.here ∧ last ≠ Posix.parent) ∧
      resolveSegments [] ((names ++ [last]).map (encode isPlain)) =
        (names' ++ [last']).map (encode isPlain) := by
  have stay : ∀ s ∈ names, s ≠ Posix.here ∧ s ≠ Posix.parent :=
    fun s mem => ⟨(proper s mem).stays, (proper s mem).down⟩
  have front : resolveSegments [] ((names ++ [last]).map (encode isPlain)) =
      resolveSegments (names.map (encode isPlain)).reverse [encode isPlain last] := by
    simpa using resolveSegments_map_encode_append stay [] [encode isPlain last]
  by_cases up : last = Posix.parent
  · obtain ⟨before, suffix, eq⟩ :=
      resolveSegments_parent (s := encode isPlain last) (by rw [up]; decide)
      (names.map (encode isPlain)).reverse
    have cut : before.reverse = (names.take before.length).map (encode isPlain) := by
      rw [← List.reverse_prefix, List.reverse_reverse] at suffix
      rw [List.prefix_iff_eq_take.1 suffix, List.length_reverse, List.map_take]
    exact ⟨names.take before.length, [], List.take_prefix _ _,
      .inl rfl, by rw [front, eq, cut, List.map_append]; rfl⟩
  · by_cases here : last = Posix.here
    · have eq := resolveSegments_here (s := encode isPlain last) (by rw [here]; decide)
        (names.map (encode isPlain)).reverse
      exact ⟨names, [], List.prefix_rfl,
        .inl rfl, by rw [front, eq, List.reverse_reverse, List.map_append]; rfl⟩
    · refine ⟨names, last, List.prefix_rfl, .inr ⟨rfl, here, up⟩,
        resolveSegments_map_encode fun s mem => ?_⟩
      rcases List.mem_append.1 mem with mem | mem
      · exact stay s mem
      · exact List.mem_singleton.1 mem ▸ ⟨here, up⟩

theorem split_fromRoot (proper : ∀ s ∈ names, Posix.IsName s) (apart : Posix.slash ∉ last) :
    Text.split (· == Posix.slash) ((Posix.fromRoot names last).drop 1) = names ++ [last] := by
  rw [Posix.fromRoot_eq_join, List.drop_one, List.tail_cons]
  refine Text.split_join (by simp) fun s mem => ?_
  rcases List.mem_append.1 mem with mem | mem
  · exact (proper s mem).apart
  · exact List.mem_singleton.1 mem ▸ apart

theorem ofPath_fromRoot (proper : ∀ s ∈ names, Posix.IsName s)
    (properLast : last ≠ [] → Posix.IsName last) :
    ofPath (Posix.fromRoot names last) = scheme ++ "///" ++ Text.join [Posix.slash]
      (resolveSegments [] ((names ++ [beforeEnd last]).map (encode isPlain))) := by
  have full := resolved_eq_self (Posix.isNormal_fromRoot proper properLast) rfl
  have apart : Posix.slash ∉ beforeEnd last := fun mem => by
    have mem := (prefix_beforeEnd last).subset mem
    exact (properLast (List.ne_nil_of_mem mem)).apart mem
  simp only [ofPath]
  rw [full, ← beforeEnd, beforeEnd_fromRoot, split_encode, split_fromRoot proper apart]

/-- The segments of a normal path from the root are no dots. -/
theorem stay_of_isNormal (normal : Posix.IsNormal p) (absolute : Posix.isAbsolute p) :
    ∀ s ∈ Text.split (· == Posix.slash) (p.drop 1), s ≠ Posix.here ∧ s ≠ Posix.parent := by
  obtain ⟨names, last, proper, properLast, rfl⟩ := Posix.exists_fromRoot normal absolute
  have apart : Posix.slash ∉ last := fun mem => (properLast (List.ne_nil_of_mem mem)).apart mem
  rw [split_fromRoot proper apart]
  intro s mem
  rcases List.mem_append.1 mem with mem | mem
  · exact ⟨(proper s mem).stays, (proper s mem).down⟩
  · obtain rfl := List.mem_singleton.1 mem
    by_cases empty : s = []
    · subst empty
      decide
    · exact ⟨(properLast empty).stays, (properLast empty).down⟩

/-- A normal path from the root is written as it is, if nothing vanishes at its end. -/
theorem ofPath_of_isNormal (normal : Posix.IsNormal p) (absolute : Posix.isAbsolute p)
    (stays : beforeEnd p = p) :
    ofPath p = scheme ++ "///" ++ encode isPlain (p.drop 1) := by
  simp only [ofPath]
  rw [resolved_eq_self normal absolute, ← beforeEnd, stays, split_encode,
    resolveSegments_map_encode (stay_of_isNormal normal absolute), ← split_encode, Text.join_split]

/-- If something vanishes at its end it is written as a shorter path is. -/
theorem exists_ofPath_eq (normal : Posix.IsNormal p) (absolute : Posix.isAbsolute p)
    (vanishes : beforeEnd p ≠ p) :
    ∃ q, Posix.IsNormal q ∧ Posix.isAbsolute q ∧ q ⊆ p ∧ q.length < p.length ∧
      ofPath p = scheme ++ "///" ++ encode isPlain (q.drop 1) := by
  obtain ⟨names, last, proper, properLast, rfl⟩ := Posix.exists_fromRoot normal absolute
  obtain ⟨names', last', kept, isLast, eq⟩ := exists_resolveSegments proper (beforeEnd last)
  have subset : last' ⊆ last := fun u mem => by
    rcases isLast with rfl | ⟨rfl, -⟩
    · simp at mem
    · exact (prefix_beforeEnd last).subset mem
  have proper' : ∀ s ∈ names', Posix.IsName s := fun s mem => proper s (kept.subset mem)
  have properLast' : last' ≠ [] → Posix.IsName last' := fun ne => by
    obtain ⟨rfl, here, up⟩ := isLast.resolve_left ne
    have inside := properLast fun empty => ne (List.subset_nil.1 (empty ▸ subset))
    exact ⟨⟨ne, fun mem => inside.apart (subset mem)⟩, here, up⟩
  have shorter : last'.length < last.length := by
    have cut : (beforeEnd last).length ≠ last.length := fun same =>
      vanishes (by rw [beforeEnd_fromRoot, (prefix_beforeEnd last).eq_of_length same])
    have le := (prefix_beforeEnd last).length_le
    rcases isLast with rfl | ⟨rfl, -⟩
    · exact Nat.lt_of_le_of_lt (Nat.zero_le _) (Nat.lt_of_le_of_ne le cut)
    · exact Nat.lt_of_le_of_ne le cut
  refine ⟨Posix.fromRoot names' last', Posix.isNormal_fromRoot proper' properLast', rfl, ?_, ?_, ?_⟩
  · obtain ⟨more, rfl⟩ := kept
    simp only [Posix.fromRoot, List.flatMap_append]
    grind
  · obtain ⟨more, rfl⟩ := kept
    simp only [Posix.fromRoot, List.flatMap_append, List.length_cons, List.length_append]
    omega
  · rw [ofPath_fromRoot proper properLast, eq, ← encode_join, Posix.fromRoot_eq_join]
    rfl

/-- The uri of a normal path from the root, read again. -/
theorem path?_of_isNormal (normal : Posix.IsNormal p) (absolute : Posix.isAbsolute p) :
    path? (scheme ++ "///" ++ encode isPlain (p.drop 1)) = some p.repaired := by
  obtain ⟨t, rfl⟩ : ∃ t, p = Posix.slash :: t := by
    obtain ⟨names, last, -, -, rfl⟩ := Posix.exists_fromRoot normal absolute
    exact ⟨_, rfl⟩
  rw [path?_written (stay_of_isNormal normal absolute), List.drop_one, List.tail_cons]
  exact congrArg some (Text.repaired_append_cons rfl rfl [] t).symm

end FileUri

end Quill
