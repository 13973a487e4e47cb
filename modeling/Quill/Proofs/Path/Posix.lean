import Quill.Path.Posix
import Quill.Proofs.Text.Words

/-!
# Normal paths

A normalized path has single slashes and its dots are worked off: from the root it goes down by
names, and anywhere else it may go up before. Normalizing leaves a normal path alone.

## Main definitions

* `Posix.IsSegment` — the texts that stand between two slashes.
* `Posix.IsResolved` — segments with their dots worked off.
* `Posix.IsNormal` — normal paths; `Posix.fromRoot` is how those from the root look.

## Main statements

* `Posix.isNormal_normalize` — a normalized path is normal.
* `Posix.IsNormal.normalize` — a normal path is normalized as it is.
-/

namespace Quill

/-! ## Pieces and what they are put together to -/

namespace Text

variable {p : UInt16 → Bool} {ss : List Text} {t s : Text} {u v : UInt16}

theorem join_cons (glue s : Text) (ne : ss ≠ []) :
    join glue (s :: ss) = s ++ glue ++ join glue ss := by
  cases ss with
  | nil => exact absurd rfl ne
  | cons => rfl

theorem split_congr {q : UInt16 → Bool} (same : ∀ u ∈ t, p u = q u) : split p t = split q t := by
  induction t with
  | nil => rfl
  | cons u t ih => rw [split, split, same u (.head t), ih fun v mem => same v (.tail u mem)]

theorem mem_of_mem_split (mem : s ∈ split p t) (inside : u ∈ s) : u ∈ t ∧ p u = false := by
  induction t generalizing s with
  | nil =>
    obtain rfl : s = [] := by simpa [split] using mem
    simp at inside
  | cons v t ih =>
    rw [split] at mem
    split at mem
    next =>
      rcases List.mem_cons.1 mem with rfl | mem
      · simp at inside
      · exact ⟨.tail v (ih mem inside).1, (ih mem inside).2⟩
    next outside =>
      obtain ⟨piece, pieces, eq⟩ := List.exists_cons_of_ne_nil (split_ne_nil p t)
      simp only [eq] at mem ih
      rcases List.mem_cons.1 mem with rfl | mem
      · rcases List.mem_cons.1 inside with rfl | inside
        · exact ⟨.head t, by simpa using outside⟩
        · exact ⟨.tail v (ih (.head _) inside).1, (ih (.head _) inside).2⟩
      · exact ⟨.tail v (ih (.tail _ mem) inside).1, (ih (.tail _ mem) inside).2⟩

theorem mem_of_mem_join {glue : Text} (mem : u ∈ join glue ss) : u ∈ glue ∨ ∃ s ∈ ss, u ∈ s := by
  induction ss with
  | nil => simp [join] at mem
  | cons s ss ih =>
    by_cases ne : ss = []
    · subst ne
      exact .inr ⟨s, .head _, mem⟩
    · rw [join_cons glue s ne, List.mem_append, List.mem_append] at mem
      obtain (mem | mem) | mem := mem
      · exact .inr ⟨s, .head _, mem⟩
      · exact .inl mem
      · obtain inGlue | ⟨r, inside, mem⟩ := ih mem
        · exact .inl inGlue
        · exact .inr ⟨r, .tail s inside, mem⟩

/-- What goes through the separator goes through the pieces. -/
theorem map_join {f : Text → Text} (nil : f [] = [])
    (through : ∀ a b, f (a ++ u :: b) = f a ++ u :: f b)
    (ss : List Text) : f (join [u] ss) = join [u] (ss.map f) := by
  induction ss with
  | nil => exact nil
  | cons s ss ih =>
    by_cases last : ss = []
    · subst last
      rfl
    · rw [join_cons _ _ last, List.append_assoc, List.singleton_append, through, ih, List.map_cons,
        join_cons _ _ (by simpa using last), List.append_assoc, List.singleton_append]

/-- Cutting at a unit undoes joining by it. -/
theorem split_join (ne : ss ≠ []) (apart : ∀ s ∈ ss, u ∉ s) :
    split (· == u) (join [u] ss) = ss := by
  have solid (s : Text) (mem : s ∈ ss) : split (· == u) s = [s] :=
    split_of_none fun v inside => beq_eq_false_iff_ne.2 fun eq => apart s mem (eq ▸ inside)
  induction ss with
  | nil => exact absurd rfl ne
  | cons s ss ih =>
    by_cases last : ss = []
    · subst last
      exact solid s (.head _)
    · rw [join_cons [u] s last, List.append_assoc, List.singleton_append,
        split_append_cons (p := (· == u)) (by simp), solid s (.head _),
        ih last (fun r mem => apart r (.tail s mem)) (fun r mem => solid r (.tail s mem)),
        List.singleton_append]

end Text

namespace Posix

variable {above rooted trailing : Bool} {p : Text} {s : Text} {ss kept : List Text} {u : UInt16}

/-! ## Segments -/

structure IsSegment (s : Text) : Prop where
  ne_nil : s ≠ []
  apart : slash ∉ s

theorem isSegment_of_mem_segments (mem : s ∈ segments p) : IsSegment s := by
  obtain ⟨mem, ne⟩ := List.mem_filter.1 mem
  exact ⟨by simpa using ne, fun inside => by simpa using (Text.mem_of_mem_split mem inside).2⟩

theorem mem_of_mem_segments (mem : s ∈ segments p) (inside : u ∈ s) : u ∈ p :=
  (Text.mem_of_mem_split (List.mem_filter.1 mem).1 inside).1

theorem segments_append_slash (a b : Text) :
    segments (a ++ slash :: b) = segments a ++ segments b := by
  simp [segments, Text.split_append_cons]

@[simp] theorem segments_nil : segments [] = [] := rfl

theorem segments_slash (b : Text) : segments (slash :: b) = segments b := segments_append_slash [] b

theorem segments_join (segment : ∀ s ∈ ss, IsSegment s) : segments (Text.join [slash] ss) = ss := by
  by_cases empty : ss = []
  · subst empty
    rfl
  · rw [segments, Text.split_join empty fun s mem => (segment s mem).apart]
    exact List.filter_eq_self.2 fun s mem => by simpa using (segment s mem).ne_nil

/-! ## Dots -/

/-- No dot is left to work off: there is no `.`, and `..` stands in front only, if it may stand at
all. -/
structure IsResolved (above : Bool) (ss : List Text) : Prop where
  stays : ∀ s ∈ ss, s ≠ here
  goesUp : parent ∈ ss → above
  upFirst : ss.Pairwise fun a b => b = parent → a = parent

theorem isResolved_nil : IsResolved above [] := ⟨by simp, by simp, .nil⟩

theorem IsResolved.left {front behind : List Text} (resolved : IsResolved above (front ++ behind)) :
    IsResolved above front where
  stays s mem := resolved.stays s (List.mem_append_left _ mem)
  goesUp mem := resolved.goesUp (List.mem_append_left _ mem)
  upFirst := (List.pairwise_append.1 resolved.upFirst).1

theorem IsResolved.concat_name (resolved : IsResolved above ss) (stays : s ≠ here)
    (down : s ≠ parent) :
    IsResolved above (ss ++ [s]) where
  stays r mem := by
    rcases List.mem_append.1 mem with mem | mem
    · exact resolved.stays r mem
    · simpa [List.mem_singleton.1 mem] using stays
  goesUp mem := resolved.goesUp (by simpa [down.symm] using mem)
  upFirst := List.pairwise_append.2 ⟨resolved.upFirst, List.pairwise_singleton _ _, by simp [down]⟩

/-- The way up can follow the way up. -/
theorem IsResolved.concat_parent (resolved : IsResolved above ss) (allowed : above)
    (up : ∀ r ∈ ss, r = parent) :
    IsResolved above (ss ++ [parent]) where
  stays r mem := by
    rcases List.mem_append.1 mem with mem | mem
    · exact resolved.stays r mem
    · rw [List.mem_singleton.1 mem]
      decide
  goesUp _ := allowed
  upFirst := List.pairwise_append.2
    ⟨resolved.upFirst, List.pairwise_singleton _ _, by simpa using up⟩

/-- If the last of the kept segments goes up, they all do. -/
theorem IsResolved.eq_parent (resolved : IsResolved above (ss ++ [parent])) :
    ∀ r ∈ ss, r = parent := by
  simpa using (List.pairwise_append.1 resolved.upFirst).2.2

theorem isResolved_resolveDotsAux (resolved : IsResolved above kept.reverse) (ss : List Text) :
    IsResolved above (resolveDotsAux above kept ss) := by
  fun_induction resolveDotsAux above kept ss with
  | case1 => exact resolved
  | case2 kept s rest isHere ih => exact ih resolved
  | case3 s rest notHere isParent ih =>
    refine ih ?_
    obtain rfl : s = parent := by simpa using isParent
    cases above with
    | false => exact isResolved_nil
    | true => exact isResolved_nil.concat_parent rfl (by simp)
  | case4 s rest notHere isParent last before lastUp ih =>
    refine ih ?_
    obtain rfl : s = parent := by simpa using isParent
    obtain rfl : last = parent := by simpa using lastUp
    rw [List.reverse_cons, List.reverse_cons]
    rw [List.reverse_cons] at resolved
    refine resolved.concat_parent (resolved.goesUp (by simp)) fun r mem => ?_
    exact (List.mem_append.1 mem).elim (resolved.eq_parent r) List.mem_singleton.1
  | case5 s rest notHere isParent last before lastDown ih =>
    rw [List.reverse_cons] at resolved
    exact ih resolved.left
  | case6 kept s rest notHere notParent ih =>
    refine ih ?_
    rw [List.reverse_cons]
    exact resolved.concat_name (by simpa using notHere) (by simpa using notParent)

/-- Segments with their dots worked off are kept. -/
theorem resolveDotsAux_eq_append (resolved : IsResolved above (kept.reverse ++ ss)) :
    resolveDotsAux above kept ss = kept.reverse ++ ss := by
  induction ss generalizing kept with
  | nil => simp [resolveDotsAux]
  | cons s rest ih =>
    have next : resolveDotsAux above (s :: kept) rest = kept.reverse ++ s :: rest := by
      have onward : IsResolved above ((s :: kept).reverse ++ rest) := by simpa using resolved
      simpa using ih onward
    have stays : s ≠ here := resolved.stays s (by simp)
    rw [resolveDotsAux.eq_def]
    simp only [beq_iff_eq, stays, if_false]
    split
    next isParent =>
      obtain rfl : s = parent := by simpa using isParent
      have up := (List.pairwise_append.1 resolved.upFirst).2.2
      cases kept with
      | nil => simpa [resolved.goesUp (by simp)] using next
      | cons last before =>
        obtain rfl : last = parent := up last (by simp) parent (by simp) rfl
        simpa using next
    next => exact next

theorem resolveDots_of_isResolved (resolved : IsResolved above ss) : resolveDots above ss = ss :=
  resolveDotsAux_eq_append resolved

theorem mem_of_mem_resolveDotsAux (mem : s ∈ resolveDotsAux above kept ss) : s ∈ kept ∨ s ∈ ss := by
  fun_induction resolveDotsAux above kept ss <;> grind

theorem mem_of_mem_resolveDots (mem : s ∈ resolveDots above ss) : s ∈ ss := by
  simpa using mem_of_mem_resolveDotsAux mem

structure IsName (s : Text) : Prop extends IsSegment s where
  stays : s ≠ here
  down : s ≠ parent

theorem isResolved_false_iff : IsResolved false ss ↔ ∀ s ∈ ss, s ≠ here ∧ s ≠ parent := by
  constructor
  · exact fun resolved s mem =>
      ⟨resolved.stays s mem, fun eq => by simpa using resolved.goesUp (eq ▸ mem)⟩
  · exact fun proper => ⟨fun s mem => (proper s mem).1, fun mem => absurd rfl (proper _ mem).2,
      List.pairwise_of_forall_mem_list fun a _ b mem eq => absurd eq (proper b mem).2⟩

/-! ## Normal paths -/

def ofSegments (rooted trailing : Bool) (ss : List Text) : Text :=
  (if rooted then [slash] else []) ++ Text.join [slash] ss ++ (if trailing then [slash] else [])

/-- A path with single slashes whose dots are worked off. -/
inductive IsNormal : Text → Prop
  | root : IsNormal [slash]
  | dot (trailing : Bool) : IsNormal (here ++ if trailing then [slash] else [])
  | path (rooted trailing : Bool) {ss : List Text} (ne : ss ≠ []) (segment : ∀ s ∈ ss, IsSegment s)
      (resolved : IsResolved (!rooted) ss) : IsNormal (ofSegments rooted trailing ss)

theorem join_ne_nil (ne : ss ≠ []) (segment : ∀ s ∈ ss, IsSegment s) :
    Text.join [slash] ss ≠ [] := by
  obtain ⟨s, rest, rfl⟩ := List.exists_cons_of_ne_nil ne
  obtain ⟨u, t, rfl⟩ := List.exists_cons_of_ne_nil (segment s (.head _)).ne_nil
  cases rest <;> simp [Text.join]

theorem resolveDots_segments (p : Text) (above : Bool) :
    IsResolved above (resolveDots above (segments p)) ∧
      ∀ s ∈ resolveDots above (segments p), IsSegment s :=
  ⟨isResolved_resolveDotsAux isResolved_nil _,
    fun _ mem => isSegment_of_mem_segments (mem_of_mem_resolveDots mem)⟩

theorem normalize_of_ne_nil (ne : p ≠ []) : normalize p =
    if resolveDots (!isAbsolute p) (segments p) = [] then
      if isAbsolute p then [slash] else here ++ if p.getLast? == some slash then [slash] else []
    else ofSegments (isAbsolute p) (p.getLast? == some slash)
      (resolveDots (!isAbsolute p) (segments p)) := by
  obtain ⟨-, segment⟩ := resolveDots_segments p (!isAbsolute p)
  simp only [normalize, List.isEmpty_iff, ne, if_false]
  generalize resolveDots (!isAbsolute p) (segments p) = ss at segment
  by_cases empty : ss = []
  · subst empty
    cases p.getLast? == some slash <;> rfl
  · simp only [empty, join_ne_nil empty segment, if_false]
    rfl

theorem isNormal_normalize (p : Text) : IsNormal (normalize p) := by
  by_cases ne : p = []
  · subst ne
    exact .dot false
  · obtain ⟨resolved, segment⟩ := resolveDots_segments p (!isAbsolute p)
    rw [normalize_of_ne_nil ne]
    split
    · split
      · exact .root
      · exact .dot _
    next left => exact .path _ _ left segment resolved

theorem isAbsolute_ofSegments (ne : ss ≠ []) (segment : ∀ s ∈ ss, IsSegment s) :
    isAbsolute (ofSegments rooted trailing ss) = rooted := by
  cases rooted with
  | true => simp [isAbsolute, ofSegments]
  | false =>
    obtain ⟨s, rest, rfl⟩ := List.exists_cons_of_ne_nil ne
    obtain ⟨ne_nil, apart⟩ := segment s (.head _)
    obtain ⟨u, t, rfl⟩ := List.exists_cons_of_ne_nil ne_nil
    have first : u ≠ slash := fun eq => apart (eq ▸ .head _)
    cases rest <;> simpa [isAbsolute, ofSegments, Text.join] using first

theorem getLast?_join (ne : ss ≠ []) (segment : ∀ s ∈ ss, IsSegment s) :
    ∃ u, (Text.join [slash] ss).getLast? = some u ∧ u ≠ slash := by
  induction ss with
  | nil => exact absurd rfl ne
  | cons s rest ih =>
    by_cases last : rest = []
    · subst last
      obtain ⟨ne_nil, apart⟩ := segment s (.head _)
      refine ⟨s.getLast ne_nil, List.getLast?_eq_some_getLast ne_nil, fun eq => apart ?_⟩
      exact eq ▸ List.getLast_mem ne_nil
    · obtain ⟨u, eq, other⟩ := ih last fun r mem => segment r (.tail s mem)
      exact ⟨u, by rw [Text.join_cons _ _ last, List.getLast?_append, eq]; rfl, other⟩

theorem getLast?_ofSegments (ne : ss ≠ []) (segment : ∀ s ∈ ss, IsSegment s) :
    ((ofSegments rooted trailing ss).getLast? == some slash) = trailing := by
  cases trailing with
  | true => simp [ofSegments]
  | false =>
    obtain ⟨u, eq, other⟩ := getLast?_join ne segment
    simp [ofSegments, List.getLast?_append, eq, other]

theorem segments_ofSegments (segment : ∀ s ∈ ss, IsSegment s) :
    segments (ofSegments rooted trailing ss) = ss := by
  have behind : segments (Text.join [slash] ss ++ if trailing then [slash] else []) = ss := by
    cases trailing <;> simp [segments_append_slash, segments_join segment]
  cases rooted with
  | true => simpa [ofSegments, segments_slash] using behind
  | false => simpa [ofSegments] using behind

theorem ofSegments_ne_nil (ne : ss ≠ []) (segment : ∀ s ∈ ss, IsSegment s) :
    ofSegments rooted trailing ss ≠ [] := by
  simp [ofSegments, join_ne_nil ne segment]

theorem IsNormal.normalize (normal : IsNormal p) : normalize p = p := by
  cases normal with
  | root => decide
  | dot trailing => cases trailing <;> decide
  | path rooted trailing ne segment resolved =>
    rw [normalize_of_ne_nil (ofSegments_ne_nil ne segment), isAbsolute_ofSegments ne segment,
      getLast?_ofSegments ne segment, segments_ofSegments segment,
      resolveDots_of_isResolved resolved, if_neg ne]

theorem ofSegments_cons (s : Text) (ss : List Text) (trailing : Bool) :
    ofSegments false trailing (s :: ss) =
    s ++ ((if ss = [] then [] else slash :: Text.join [slash] ss) ++ if trailing then
      [slash] else []) := by
  cases ss <;> simp [ofSegments, Text.join]

/-- In place of a name that a normal path starts with there can be another one. -/
theorem IsNormal.replace_first {name other rest : Text} (normal : IsNormal (name ++ slash :: rest))
    (proper : IsName name) (proper' : IsName other) : IsNormal (other ++ slash :: rest) := by
  have first : segments (name ++ slash :: rest) = name :: segments rest := by
    have alone : segments (Text.join [slash] [name]) = [name] :=
      segments_join (by simpa using proper.toIsSegment)
    rw [segments_append_slash, show segments name = [name] from alone, List.singleton_append]
  generalize whole : name ++ slash :: rest = p at normal first
  cases normal with
  | root => exact absurd first (by simp [segments_slash])
  | dot trailing =>
    have dot : segments (here ++ if trailing then [slash] else []) = [here] := by
      cases trailing <;> decide
    exact absurd (List.cons.inj (dot.symm.trans first)).1.symm proper.stays
  | @path rooted trailing ss ne inside resolved =>
    have relative : rooted = false := by
      have absolute : isAbsolute (ofSegments rooted trailing ss) = rooted :=
        isAbsolute_ofSegments ne inside
      rw [← absolute, ← whole]
      obtain ⟨u, t, rfl⟩ := List.exists_cons_of_ne_nil proper.ne_nil
      simpa [isAbsolute] using fun eq : u = slash => proper.apart (eq ▸ .head _)
    subst relative
    rw [segments_ofSegments inside] at first
    subst first
    rw [ofSegments_cons, List.append_cancel_left_eq] at whole
    rw [whole, ← ofSegments_cons]
    refine .path false trailing (by simp)
      (by simpa using ⟨proper'.toIsSegment, fun s mem => inside s (.tail _ mem)⟩) ?_
    have down : ∀ s ∈ segments rest, s ≠ parent := fun s mem eq =>
      proper.down ((List.pairwise_cons.1 resolved.upFirst).1 s mem eq)
    exact ⟨by simpa using ⟨proper'.stays,
      fun s mem => resolved.stays s (.tail _ mem)⟩, fun _ => rfl, List.pairwise_cons.2
        ⟨fun s mem eq => absurd eq (down s mem), (List.pairwise_cons.1 resolved.upFirst).2⟩⟩

/-! ## Normal paths from the root -/

def fromRoot (names : List Text) (last : Text) :
    Text := slash :: (names.flatMap (· ++ [slash]) ++ last)

variable {names : List Text} {last : Text}

theorem fromRoot_eq_join (names : List Text) (last : Text) :
    fromRoot names last = slash :: Text.join [slash] (names ++ [last]) := by
  induction names with
  | nil => rfl
  | cons s names ih =>
    have tail := (List.cons.inj ih).2
    rw [List.cons_append, Text.join_cons _ _ (by simp), ← tail]
    simp [fromRoot]

theorem fromRoot_nil (ne : names ≠ []) : fromRoot names [] = ofSegments true true names := by
  suffices names.flatMap (· ++ [slash]) = Text.join [slash] names ++ [slash] by
    simp [fromRoot, ofSegments, this]
  induction names with
  | nil => exact absurd rfl ne
  | cons s names ih =>
    by_cases only : names = []
    · simp [only, Text.join]
    · rw [List.flatMap_cons, ih only, Text.join_cons _ _ only]
      simp

theorem fromRoot_of_ne_nil (names : List Text) (last : Text) :
    fromRoot names last = ofSegments true false (names ++ [last]) := by
  simp [fromRoot_eq_join, ofSegments]

/-- A normal path from the root goes down by names, with a slash at the end or not. -/
theorem exists_fromRoot (normal : IsNormal p) (absolute : isAbsolute p) :
    ∃ names last, (∀ s ∈ names, IsName s) ∧ (last ≠ [] → IsName last) ∧
    p = fromRoot names last := by
  cases normal with
  | root => exact ⟨[], [], by simp, by simp, rfl⟩
  | dot trailing => cases trailing <;> exact absurd absolute (by decide)
  | @path rooted trailing ss ne segment resolved =>
    rw [isAbsolute_ofSegments ne segment] at absolute
    subst absolute
    have proper (s : Text) (mem : s ∈ ss) : IsName s :=
      ⟨segment s mem, (isResolved_false_iff.1 resolved s mem).1,
        (isResolved_false_iff.1 resolved s mem).2⟩
    cases trailing with
    | true => exact ⟨ss, [], proper, by simp, (fromRoot_nil ne).symm⟩
    | false =>
      refine ⟨ss.dropLast, ss.getLast ne, fun s mem => proper s (List.dropLast_subset ss mem),
        fun _ => proper _ (List.getLast_mem ne), ?_⟩
      rw [fromRoot_of_ne_nil, List.dropLast_concat_getLast]

theorem isNormal_fromRoot (proper : ∀ s ∈ names, IsName s) (properLast : last ≠ [] → IsName last) :
    IsNormal (fromRoot names last) := by
  have resolved {ss : List Text} (proper : ∀ s ∈ ss, IsName s) : IsResolved false ss :=
    isResolved_false_iff.2 fun s mem => ⟨(proper s mem).stays, (proper s mem).down⟩
  by_cases trailing : last = []
  · subst trailing
    by_cases root : names = []
    · subst root
      exact .root
    · rw [fromRoot_nil root]
      exact .path true true root (fun s mem => (proper s mem).toIsSegment) (resolved proper)
  · have all : ∀ s ∈ names ++ [last], IsName s := fun s mem => by
      rcases List.mem_append.1 mem with mem | mem
      · exact proper s mem
      · exact List.mem_singleton.1 mem ▸ properLast trailing
    rw [fromRoot_of_ne_nil]
    exact .path true false (by simp) (fun s mem => (all s mem).toIsSegment) (resolved all)

/-- A path from the root stays one. -/
theorem isAbsolute_normalize (absolute : isAbsolute p) : isAbsolute (normalize p) := by
  have ne : p ≠ [] := fun eq => by simp [eq, isAbsolute] at absolute
  rw [normalize_of_ne_nil ne]
  simp only [absolute]
  split <;> simp [isAbsolute, ofSegments]

/-- Normalizing brings in nothing but slashes and dots. -/
theorem mem_of_mem_normalize (mem : u ∈ normalize p) : u ∈ p ∨ u = slash ∨ u = Text.unit '.' := by
  have inBody (inside : u ∈ Text.join [slash] (resolveDots (!isAbsolute p) (segments p))) :
      u ∈ p ∨ u = slash :=
    (Text.mem_of_mem_join inside).symm.imp
      (fun ⟨_, mem, inside⟩ => mem_of_mem_segments (mem_of_mem_resolveDots mem) inside)
        List.mem_singleton.1
  have dot (v : UInt16) (mem : v ∈ here) : v = Text.unit '.' := List.mem_singleton.1 mem
  unfold normalize at mem
  grind

end Posix

end Quill
