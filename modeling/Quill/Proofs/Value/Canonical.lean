import Quill.Data.Sort
import Quill.Proofs.Number.Reading
import Quill.Proofs.Value.Meaning
import Quill.Value.Canonical
import Quill.Value.Read

/-!
# What the canonical text tells

Reading the canonical text of a value gives the value back as data: every part of the text says
where it ends, whatever stands behind it. So values with one canonical text are the same data.
Values that are the same data have one canonical text, as the names of an object have one order.

## Main definitions

* `Value.ReadsBack` — the canonical text reads back as the same data; `Value.IsPlain.readsBack`.

## Main statements

* `Json.readString_quote` — a quoted text reads back.
* `Value.canonical_eq_iff` — canonical texts are equal exactly when the values are the same data.
-/

namespace Quill.Json

/-- The two digits of an octet read back. -/
theorem octet?_digits (o : UInt8) :
    Percent.octet? (Text.hex.digit (o.toNat / 16)) (Text.hex.digit (o.toNat % 16)) = some o := by
  have all : ∀ n, n < 256 → Percent.octet? (Text.hex.digit (n / 16)) (Text.hex.digit (n % 16)) =
      some n.toUInt8 := by decide +kernel
  rw [all o.toNat o.toNat_lt, Nat.toUInt8_eq, UInt8.ofNat_toNat]

/-- A unit is put together from its two octets. -/
theorem toUInt8_append (u : UInt16) :
    (u >>> 8).toUInt8.toUInt16 * 256 + u.toUInt8.toUInt16 = u := by
  apply UInt16.toNat.inj
  have := u.toNat_lt
  simp [Nat.shiftRight_eq_div_pow]
  omega

/-- An escape by number reads back. -/
theorem readString_hexUnit (acc tail : Text) (u : UInt16) :
    readString acc ("\\u" ++ hexUnit u ++ tail) = readString (u :: acc) tail := by
  have unit : unit? (Text.hex.digit ((u >>> 8).toUInt8.toNat / 16))
      (Text.hex.digit ((u >>> 8).toUInt8.toNat % 16)) (Text.hex.digit (u.toUInt8.toNat / 16))
      (Text.hex.digit (u.toUInt8.toNat % 16)) = some u := by
    rw [unit?, octet?_digits, octet?_digits]
    exact congrArg some (toUInt8_append u)
  show readString acc (Text.unit '\\' :: Text.unit 'u' :: _ :: _ :: _ :: _ :: tail) = _
  rw [readString.eq_def]
  simp only [if_neg (by decide : Text.unit '\\' ≠ Text.unit '"'), if_true, unit]

/-- An escape by letter reads back. -/
theorem readString_letter (acc tail : Text) {v : UInt16} (h : v ≠ Text.unit 'u') :
    readString acc (Text.unit '\\' :: v :: tail) = readString (unescape v :: acc) tail := by
  rw [readString.eq_def]
  simp only [if_neg (by decide : Text.unit '\\' ≠ Text.unit '"'), if_true]
  -- how many units stand behind the letter decides nothing
  match tail with
  | a :: b :: c :: d :: tail => simp only [if_neg h]
  | [] | [_] | [_, _] | [_, _, _] => rfl

/-- A unit that is written as itself reads back. -/
theorem readString_plain (acc tail : Text) {u : UInt16} (quote : u ≠ Text.unit '"')
    (backslash : u ≠ Text.unit '\\') :
    readString acc ([u] ++ tail) = readString (u :: acc) tail := by
  rw [List.singleton_append, readString.eq_def]
  simp only [if_neg quote, if_neg backslash]

theorem readString_escapeUnit (acc tail behind : Text) (paired : Bool) (u : UInt16) :
    readString acc (escapeUnit paired u behind ++ tail) = readString (u :: acc) tail := by
  have letter {s : Text} (v : UInt16) (h : v ≠ Text.unit 'u') (written : s = [Text.unit '\\', v])
      (eq : unescape v = u) : readString acc (s ++ tail) = readString (u :: acc) tail := by
    rw [written, ← eq]
    exact readString_letter acc tail h
  rw [escapeUnit]
  by_cases quote : u == Text.unit '"'
  · rw [if_pos quote]
    exact letter (Text.unit '"') (by decide) (by decide) (by rw [eq_of_beq quote]; decide)
  rw [if_neg quote]
  by_cases backslash : u == Text.unit '\\'
  · rw [if_pos backslash]
    exact letter (Text.unit '\\') (by decide) (by decide) (by rw [eq_of_beq backslash]; decide)
  rw [if_neg backslash]
  by_cases back : u == 8
  · rw [if_pos back]
    exact letter (Text.unit 'b') (by decide) (by decide) (by rw [eq_of_beq back]; decide)
  rw [if_neg back]
  by_cases tab : u == 9
  · rw [if_pos tab]
    exact letter (Text.unit 't') (by decide) (by decide) (by rw [eq_of_beq tab]; decide)
  rw [if_neg tab]
  by_cases line : u == 10
  · rw [if_pos line]
    exact letter (Text.unit 'n') (by decide) (by decide) (by rw [eq_of_beq line]; decide)
  rw [if_neg line]
  by_cases form : u == 12
  · rw [if_pos form]
    exact letter (Text.unit 'f') (by decide) (by decide) (by rw [eq_of_beq form]; decide)
  rw [if_neg form]
  by_cases carriage : u == 13
  · rw [if_pos carriage]
    exact letter (Text.unit 'r') (by decide) (by decide) (by rw [eq_of_beq carriage]; decide)
  rw [if_neg carriage]
  -- the others are written by number or as themselves
  have itself := readString_plain acc tail (by simpa using quote) (by simpa using backslash)
  have number := readString_hexUnit acc tail u
  split
  · exact number
  split
  · split
    · exact itself
    · exact number
  · split
    · split
      · exact itself
      · exact number
    · exact itself

/-- What stands between quotation marks reads back. -/
theorem readString_escape (acc t rest : Text) (paired : Bool) :
    readString acc (escape paired t ++ Text.unit '"' :: rest) = some (acc.reverse ++ t, rest) := by
  induction t generalizing acc paired with
  | nil =>
    rw [escape, List.nil_append, readString.eq_def]
    simp
  | cons u t ih => rw [escape, List.append_assoc, readString_escapeUnit, ih]; simp

/-- A quoted text reads back behind its first quotation mark. -/
theorem readString_quote (t rest : Text) :
    ∃ inner, quote t ++ rest = Text.unit '"' :: inner ∧ readString [] inner = some (t, rest) := by
  refine ⟨escape false t ++ Text.unit '"' :: rest, ?_, readString_escape [] t rest false⟩
  rw [quote]
  simp
  rfl

end Quill.Json

namespace Quill

/-! ### Sorting by distinct names -/

theorem Text.le_antisymm {a b : Text} (h1 : Text.le a b) (h2 : Text.le b a) : a = b := by
  refine Text.compare_eq_iff.1 ?_
  simp only [Text.le, bne_iff_ne] at h1 h2
  rw [← Text.compare_swap a b] at h2
  cases h : Text.compare a b <;> simp_all

/-- Pairs with distinct names have one order. -/
theorem Text.sortOn_eq_of_perm {α : Type}
    {xs ys : List (Text × α)} (distinct : (Dict.keys xs).Nodup)
    (perm : xs.Perm ys) : Text.sortOn Prod.fst xs = Text.sortOn Prod.fst ys := by
  have sorted (zs : List (Text × α)) :
      (Text.sortOn Prod.fst zs).Pairwise fun a b => Text.le a.1 b.1 :=
    pairwise_sortBy (fun a b : Text × α => Text.le a.1 b.1) (fun _ _ _ => Text.compare_trans_le)
      (fun _ _ => Text.le_total _ _) zs
  refine List.Perm.eq_of_pairwise ?_ (sorted xs) (sorted ys)
    ((Text.sortOn_perm _ _).trans (perm.trans (Text.sortOn_perm _ _).symm))
  rintro ⟨k, a⟩ ⟨l, b⟩ ha hb kl lk
  obtain rfl : k = l := Text.le_antisymm kl lk
  have ha := (Text.sortOn_perm _ _).mem_iff.1 ha
  have hb := perm.mem_iff.2 ((Text.sortOn_perm _ _).mem_iff.1 hb)
  rw [← Dict.get?_eq_some_iff distinct] at ha hb
  exact congrArg _ (Option.some.inj (ha.symm.trans hb))

namespace Value

/-! ### The parts of a canonical text -/

theorem canonicalItems_eq (xs : List Value) : canonicalItems xs = xs.map canonical := by
  induction xs with
  | nil => rfl
  | cons x xs ih => rw [canonicalItems, ih, List.map_cons]

theorem canonicalFields_eq (fields : List (Text × Value)) :
    canonicalFields fields = fields.map fun f => (f.1, f.2.canonical) := by
  induction fields with
  | nil => rfl
  | cons f rest ih => rw [canonicalFields, ih, List.map_cons]

theorem keys_canonicalFields (fields : List (Text × Value)) :
    Dict.keys (canonicalFields fields) = Dict.keys fields := by
  simp [canonicalFields_eq, Dict.keys]

theorem canonical_number {n : Number} (double : n.IsDouble) :
    (Value.number n).canonical = n.render := by
  match n, double with
  | .finite .., _ => rfl

theorem canonical_array (xs : List Value) :
    (Value.array xs).canonical = Text.unit '[' ::
      (Text.join "," (xs.map canonical) ++ [Text.unit ']']) := by
  rw [canonical, canonicalItems_eq, List.append_assoc]
  rfl

theorem join_cons_cons (part next : Text) (parts : List Text) :
    Text.join "," (part :: next :: parts) = part ++ Text.unit ',' ::
      Text.join "," (next :: parts) := by
  simp only [Text.join, List.append_assoc]
  rfl

def fieldCanonical (f : Text × Value) : Text := Json.quote f.1 ++ ":" ++ f.2.canonical

theorem canonical_object (fields : List (Text × Value)) :
    (Value.object fields).canonical =
      0x7b :: (Text.join "," ((Text.sortOn Prod.fst fields).map fieldCanonical) ++ [0x7d]) := by
  rw [canonical, canonicalFields_eq, Text.sortOn, sortBy_map, List.map_map, List.append_assoc]
  rfl

/-- A number begins with a unit that begins nothing else. -/
theorem exists_render {n : Number} (double : n.IsDouble) :
    ∃ u r, n.render = u :: r ∧ Json.isGap u = false ∧ ∀ v : UInt16,
    v = 34 ∨ 57 < v.toNat → u ≠ v := by
  obtain ⟨u, r, first, eq⟩ := Number.exists_render double
  have bounds : 45 ≤ u.toNat ∧ u.toNat ≤ 57 := by
    rcases first with digit | rfl
    · simp only [Number.isDigit, Bool.and_eq_true, decide_eq_true_eq,
        UInt16.le_iff_toNat_le] at digit
      exact ⟨Nat.le_trans (by decide) digit.1, digit.2⟩
    · decide
  refine ⟨u, r, eq, ?_, ?_⟩
  · simp only [Json.isGap, Bool.or_eq_false_iff, decide_eq_false_iff_not]
    refine ⟨⟨⟨?_, ?_⟩, ?_⟩, ?_⟩ <;> (rintro rfl; exact absurd bounds.1 (by decide))
  · rintro v (rfl | h) rfl
    · exact absurd bounds.1 (by decide)
    · omega

/-- A canonical text begins with a unit that is no blank and closes no list. -/
theorem IsPlain.exists_canonical {v : Value} (plain : v.IsPlain) :
    ∃ u r, v.canonical = u :: r ∧ Json.isGap u = false ∧ u ≠ Text.unit ']' := by
  cases plain with
  | null => exact ⟨_, _, rfl, by decide, by decide⟩
  | bool b => cases b <;> exact ⟨_, _, rfl, by decide, by decide⟩
  | @number n double =>
    obtain ⟨u, r, eq, gap, other⟩ := exists_render double
    exact ⟨u, r, by rw [canonical_number double, eq], gap, other _ (.inr (by decide))⟩
  | text t => exact ⟨Text.unit '"', _, rfl, by decide, by decide⟩
  | array items => exact ⟨_, _, canonical_array _, by decide, by decide⟩
  | object distinct values => exact ⟨_, _, canonical_object _, by decide, by decide⟩

/-! ### Reading the parts -/

/-- Whether the canonical text of a value reads back as the same data, whatever stands behind it. -/
def ReadsBack (v : Value) : Prop :=
  ∀ fuel rest, v.canonical.length ≤ fuel → Number.Closes rest →
    ∃ w, Json.read fuel (v.canonical ++ rest) = some (w, rest) ∧ w.meaning = v.meaning

/-- A canonical text is not empty, so there is fuel for its first part. -/
theorem readsBack_of_succ {v : Value} (ne : v.canonical ≠ [])
    (h : ∀ fuel rest, v.canonical.length ≤ fuel + 1 → Number.Closes rest →
      ∃ w, Json.read (fuel + 1) (v.canonical ++ rest) = some (w, rest) ∧ w.meaning = v.meaning) :
    ReadsBack v := by
  intro fuel rest enough closes
  obtain ⟨fuel, rfl⟩ := Nat.exists_eq_add_of_le' (Nat.le_trans (List.length_pos_iff.2 ne) enough)
  exact h fuel rest enough closes

theorem readsBack_null : ReadsBack .null :=
  readsBack_of_succ (by decide) fun _ _ _ _ => ⟨.null, rfl, rfl⟩

theorem readsBack_bool (b : Bool) : ReadsBack (.bool b) :=
  readsBack_of_succ (by cases b <;> decide) fun _ _ _ _ => ⟨.bool b, by cases b <;> rfl, rfl⟩

theorem readsBack_text (t : Text) : ReadsBack (.text t) := by
  refine readsBack_of_succ (by simp [canonical, Json.quote]) fun fuel rest _ _ => ?_
  obtain ⟨inner, eq, read⟩ := Json.readString_quote t rest
  refine ⟨.text t, ?_, rfl⟩
  rw [canonical, eq]
  show (Json.readString [] inner).map _ = _
  rw [read]
  rfl

/-- None of the words begins like a number. -/
theorem find?_words_eq_none {u : UInt16} (other : ∀ v : UInt16, 57 < v.toNat → u ≠ v) (t : Text) :
    (Json.words.find? fun w => Text.startsWith (u :: t) w.1) = none := by
  have begins (v : UInt16) (w : Text) (h : 57 < v.toNat) : ¬ Text.startsWith (u :: t) (v :: w) := by
    simp [Text.startsWith, List.isPrefixOf, (other v h).symm]
  rw [List.find?_eq_none]
  intro w mem
  rcases List.mem_cons.1 mem with rfl | mem
  · exact begins 110 [117, 108, 108] (by decide)
  rcases List.mem_cons.1 mem with rfl | mem
  · exact begins 116 [114, 117, 101] (by decide)
  obtain rfl := List.mem_singleton.1 mem
  exact begins 102 [97, 108, 115, 101] (by decide)

theorem readsBack_number {n : Number} (double : n.IsDouble) : ReadsBack (.number n) := by
  obtain ⟨u, r, eq, gap, other⟩ := exists_render double
  refine readsBack_of_succ (by simp [canonical_number double, eq]) fun fuel rest _ closes => ?_
  obtain ⟨n', read, -, same⟩ := Number.leading?_render double closes
  have noWord := find?_words_eq_none (fun v h => other v (.inr h)) (r ++ rest)
  refine ⟨.number n', ?_, by rw [meaning, meaning, same]⟩
  rw [canonical_number double, Json.read.eq_def]
  rw [eq, List.cons_append] at read ⊢
  simp only [List.dropWhile_cons, gap, Bool.false_eq_true, if_false,
    if_neg (other (Text.unit '"') (.inl rfl)), if_neg (other (Text.unit '[') (.inr (by decide))),
    if_neg (other 0x7b (.inr (by decide))), Json.readPlain, noWord, read, Option.map_some]

theorem readItems_join {xs : List Value} (ne : xs ≠ []) (back : ∀ x ∈ xs, ReadsBack x) (rest : Text)
    (fuel : ℕ) (enough : (Text.join "," (xs.map canonical)).length < fuel) :
    ∃ ws, Json.readItems fuel (Text.join "," (xs.map canonical) ++ Text.unit ']' :: rest) =
      some (ws, rest) ∧
      ws.map meaning = xs.map meaning := by
  induction xs generalizing fuel with
  | nil => exact absurd rfl ne
  | cons x xs ih =>
    obtain ⟨fuel, rfl⟩ := Nat.exists_eq_add_of_le' (Nat.one_le_of_lt enough)
    cases xs with
    | nil =>
      obtain ⟨w, read, same⟩ := back x (by simp) fuel (Text.unit ']' :: rest) (by
        simpa [Text.join] using Nat.le_of_lt_succ enough) (Number.closes_cons (by decide) _)
      refine ⟨[w], ?_, by simp [same]⟩
      rw [Json.readItems]
      show (Json.read fuel (x.canonical ++ _)).bind _ = _
      rw [read]
      rfl
    | cons y ys =>
      have parts : Text.join "," ((x :: y :: ys).map canonical) =
          x.canonical ++ Text.unit ',' :: Text.join "," ((y :: ys).map canonical) :=
            join_cons_cons _ _ _
      rw [parts, List.length_append, List.length_cons] at enough
      obtain ⟨w, read, same⟩ := back x (by simp) fuel
        (Text.unit ',' :: (Text.join "," ((y :: ys).map canonical) ++ Text.unit ']' :: rest))
        (by omega) (Number.closes_cons (by decide) _)
      obtain ⟨ws, later, same'⟩ := ih (by simp) (fun x hx => back x (by simp [hx])) fuel (by omega)
      refine ⟨w :: ws, ?_, by rw [List.map_cons, List.map_cons, same, same']⟩
      rw [parts, List.append_assoc, List.cons_append, Json.readItems, read]
      show (Json.readItems fuel _).bind _ = _
      rw [later]
      rfl

/-- A list with something in it is not closed at once. -/
theorem goesOn_of_first (bracket : Char) {u : UInt16} (gap : Json.isGap u = false)
    (other : u ≠ Text.unit bracket) (t r : Text) :
    Json.goesOn bracket (u :: t) ≠ some (false, r) := by
  rw [Json.goesOn]
  simp only [List.dropWhile_cons, gap, Bool.false_eq_true, if_false, if_neg other]
  split <;> simp

theorem read_items {inner : Text} (opens : ∀ r, Json.goesOn ']' inner ≠ some (false, r))
    (fuel : ℕ) :
    Json.read (fuel + 1) (Text.unit '[' :: inner) =
      (Json.readItems fuel inner).map fun r => (.array r.1, r.2) := by
  rw [Json.read.eq_def]
  simp only [List.dropWhile_cons, (by decide : Json.isGap (Text.unit '[') = false),
    Bool.false_eq_true, if_false, if_neg (by decide : Text.unit '[' ≠ Text.unit '"'), if_true]

theorem readsBack_array {xs : List Value} (plain : ∀ x ∈ xs, x.IsPlain)
    (back : ∀ x ∈ xs, ReadsBack x) :
    ReadsBack (.array xs) := by
  refine readsBack_of_succ (by simp [canonical_array]) fun fuel rest enough _ => ?_
  rw [canonical_array] at enough ⊢
  rw [List.cons_append, List.append_assoc, List.singleton_append]
  cases xs with
  | nil => exact ⟨.array [], rfl, rfl⟩
  | cons x xs =>
    obtain ⟨ws, read, same⟩ := readItems_join (by simp) back rest fuel (by
      simp only [List.length_cons, List.length_append] at enough
      omega)
    refine ⟨.array ws, ?_, by rw [meaning, meaning, meaningItems_eq, meaningItems_eq, same]⟩
    have opens :
        ∀ r, Json.goesOn ']' (Text.join "," ((x :: xs).map canonical) ++ Text.unit ']' :: rest) ≠
        some (false, r) := by
      obtain ⟨u, t, eq, gap, other⟩ := (plain x (by simp)).exists_canonical
      cases xs with
      | nil => simpa [Text.join, eq] using goesOn_of_first ']' gap other _
      | cons y ys => simpa [Text.join, eq] using goesOn_of_first ']' gap other _
    rw [read_items opens, read]
    rfl

/-! ### Objects -/

/-- An object with something in it is read field by field. -/
theorem read_fields {inner : Text} (opens : ∀ r, Json.goesOn '\x7d' inner ≠ some (false, r))
    (fuel : ℕ) :
    Json.read (fuel + 1) (0x7b :: inner) =
      (Json.readFields fuel inner).map fun r => (.ofFields r.1, r.2) := by
  rw [Json.read.eq_def]
  simp only [List.dropWhile_cons, (by decide : Json.isGap 0x7b = false), Bool.false_eq_true,
    if_false, if_neg (by decide : (0x7b : UInt16) ≠ Text.unit '"'),
    if_neg (by decide : (0x7b : UInt16) ≠ Text.unit '['), if_true]

theorem readName_field (k : Text) (v : Value) (t : Text) :
    Json.readName (fieldCanonical (k, v) ++ t) = some (k, v.canonical ++ t) := by
  obtain ⟨inner, eq, read⟩ := Json.readString_quote k (":" ++ (v.canonical ++ t))
  have colon : (":" : Text) ++ (v.canonical ++ t) = Text.unit ':' :: (v.canonical ++ t) := rfl
  rw [fieldCanonical, List.append_assoc, List.append_assoc, eq, Json.readName]
  simp only [List.dropWhile_cons, (by decide : Json.isGap (Text.unit '"') = false),
    Bool.false_eq_true,
    if_false, if_true, read, colon, (by decide : Json.isGap (Text.unit ':') = false)]

theorem readFields_join {fields : List (Text × Value)} (ne : fields ≠ [])
    (back : ∀ f ∈ fields, ReadsBack f.2) (rest : Text) (fuel : ℕ)
    (enough : (Text.join "," (fields.map fieldCanonical)).length < fuel) :
    ∃ others, Json.readFields fuel (Text.join "," (fields.map fieldCanonical) ++ 0x7d :: rest) =
        some (others, rest) ∧ meaningFields others = meaningFields fields := by
  induction fields generalizing fuel with
  | nil => exact absurd rfl ne
  | cons f fields ih =>
    obtain ⟨fuel, rfl⟩ := Nat.exists_eq_add_of_le' (Nat.one_le_of_lt enough)
    obtain ⟨k, v⟩ := f
    have long : v.canonical.length ≤ (fieldCanonical (k, v)).length := by
      simp only [fieldCanonical, List.length_append]
      omega
    cases fields with
    | nil =>
      obtain ⟨w, read, same⟩ := back (k, v) (by simp) fuel (0x7d :: rest)
        (long.trans (Nat.le_of_lt_succ enough)) (Number.closes_cons (by decide) _)
      refine ⟨[(k, w)], ?_, by simp [meaningFields, same]⟩
      rw [Json.readFields]
      show (Json.readName (fieldCanonical (k, v) ++ _)).bind _ = _
      rw [readName_field]
      show (Json.read fuel _).bind _ = _
      rw [read]
      rfl
    | cons g gs =>
      have parts : Text.join "," (((k, v) :: g :: gs).map fieldCanonical) =
          fieldCanonical (k, v) ++ Text.unit ',' :: Text.join "," ((g :: gs).map fieldCanonical) :=
        join_cons_cons _ _ _
      rw [parts, List.length_append, List.length_cons] at enough
      obtain ⟨w, read, same⟩ := back (k, v) (by simp) fuel
        (Text.unit ',' :: (Text.join "," ((g :: gs).map fieldCanonical) ++ 0x7d :: rest))
        (by simp only; omega) (Number.closes_cons (by decide) _)
      obtain ⟨others, later, same'⟩ :=
        ih (by simp) (fun f hf => back f (by simp [hf])) fuel (by omega)
      refine ⟨(k, w) :: others, ?_, ?_⟩
      · rw [parts, List.append_assoc, List.cons_append, Json.readFields, readName_field]
        show (Json.read fuel _).bind _ = _
        rw [read]
        show (Json.readFields fuel _).bind _ = _
        rw [later]
        rfl
      · rw [meaningFields, List.map_cons, ← meaningFields, same', same]
        rfl

theorem readsBack_object {fields : List (Text × Value)} (distinct : (Dict.keys fields).Nodup)
    (back : ∀ f ∈ fields, ReadsBack f.2) : ReadsBack (.object fields) := by
  refine readsBack_of_succ (by simp [canonical_object]) fun fuel rest enough _ => ?_
  rw [canonical_object] at enough ⊢
  have perm := Text.sortOn_perm Prod.fst fields
  have distinct' : (Dict.keys (Text.sortOn Prod.fst fields)).Nodup :=
    (perm.map Prod.fst).nodup_iff.2 distinct
  have back' : ∀ f ∈ Text.sortOn Prod.fst fields, ReadsBack f.2 :=
    fun f hf => back f (perm.mem_iff.1 hf)
  rw [← meaning_object_of_perm distinct' perm]
  generalize Text.sortOn Prod.fst fields = sorted at *
  rw [List.cons_append, List.append_assoc, List.singleton_append]
  cases sorted with
  | nil => exact ⟨.object [], rfl, rfl⟩
  | cons f sorted =>
    obtain ⟨others, read, same⟩ := readFields_join (by simp) back' rest fuel (by
      simp only [List.length_cons, List.length_append] at enough
      omega)
    have names : (Dict.keys others).Nodup := by
      rw [← keys_meaningFields, same, keys_meaningFields]
      exact distinct'
    refine ⟨.ofFields others, ?_, by rw [meaning_ofFields names, meaning_object_eq same]⟩
    have opens : ∀ r, Json.goesOn '\x7d'
        (Text.join "," ((f :: sorted).map fieldCanonical) ++ 0x7d :: rest) ≠ some (false, r) := by
      have first := @goesOn_of_first '\x7d' (Text.unit '"') (by decide) (by decide)
      cases sorted with
      | nil => exact first _
      | cons g gs => exact first _
    rw [read_fields opens, read]
    rfl

theorem IsPlain.readsBack {v : Value} (plain : v.IsPlain) : v.ReadsBack := by
  induction plain with
  | null => exact readsBack_null
  | bool b => exact readsBack_bool b
  | number double => exact readsBack_number double
  | text t => exact readsBack_text t
  | array items ih => exact readsBack_array items ih
  | object distinct _ ih => exact readsBack_object distinct ih

/-- The canonical text of a value is a JSON text of the same data. -/
theorem ofJson?_canonical {v : Value} (plain : v.IsPlain) :
    ∃ w, ofJson? v.canonical = some w ∧ w.meaning = v.meaning := by
  obtain ⟨w, read, same⟩ := plain.readsBack (2 * v.canonical.length + 2) [] (by omega)
    Number.closes_nil
  rw [List.append_nil] at read
  exact ⟨w, by rw [ofJson?, read]; rfl, same⟩

/-! ### Canonical texts and data -/

/-- Values with one canonical text are the same data. -/
theorem meaning_eq_of_canonical_eq {v w : Value} (hv : v.IsPlain) (hw : w.IsPlain)
    (eq : v.canonical = w.canonical) : v.meaning = w.meaning := by
  obtain ⟨v', readv, samev⟩ := ofJson?_canonical hv
  obtain ⟨w', readw, samew⟩ := ofJson?_canonical hw
  rw [eq, readw] at readv
  rw [← samev, ← samew, Option.some.inj readv]

/-- Arrays of the same data have items with the same canonical texts. -/
theorem map_canonical_eq {xs ys : List Value} (same : xs.map meaning = ys.map meaning)
    (ih : ∀ x ∈ xs, ∀ y ∈ ys, x.meaning = y.meaning → x.canonical = y.canonical) :
    xs.map canonical = ys.map canonical := by
  induction xs generalizing ys with
  | nil => rw [List.map_nil, eq_comm, List.map_eq_nil_iff] at same; rw [same]
  | cons x xs ih' =>
    cases ys with
    | nil => simp at same
    | cons y ys =>
      obtain ⟨first, later⟩ := List.cons.inj same
      rw [List.map_cons, List.map_cons, ih x (by simp) y (by simp) first,
        ih' later fun x hx y hy => ih x (by simp [hx]) y (by simp [hy])]

/-- Objects that are the same data have the same fields with the same canonical texts. -/
theorem canonicalFields_perm {fields others : List (Text × Value)}
    (distinct : (Dict.keys fields).Nodup)
    (distinct' : (Dict.keys others).Nodup) (same : meaningField fields = meaningField others)
    (ih : ∀ f ∈ fields, ∀ g ∈ others, f.2.meaning = g.2.meaning → f.2.canonical = g.2.canonical) :
    (canonicalFields fields).Perm (canonicalFields others) := by
  have lookup (fs : List (Text × Value)) (k : Text) :
      Dict.get? (canonicalFields fs) k = (Dict.get? fs k).map canonical := by
    rw [canonicalFields_eq, Dict.get?_map fun f : Text × Value => f.2.canonical]
  have nodup {fs : List (Text × Value)} (distinct : (Dict.keys fs).Nodup) :
      (Dict.keys (canonicalFields fs)).Nodup := by rwa [keys_canonicalFields]
  rw [List.perm_ext_iff_of_nodup (nodup distinct).of_map (nodup distinct').of_map]
  rintro ⟨k, t⟩
  rw [← Dict.get?_eq_some_iff (nodup distinct), ← Dict.get?_eq_some_iff (nodup distinct'),
    lookup, lookup]
  have same := congrFun same k
  rw [meaningField_eq, meaningField_eq] at same
  cases hf : Dict.get? fields k with
  | none =>
    rw [hf, Option.map_none, eq_comm, Option.map_eq_none_iff] at same
    rw [same]
  | some x =>
    rw [hf, Option.map_some, eq_comm, Option.map_eq_some_iff] at same
    obtain ⟨y, hg, same⟩ := same
    rw [hg, Option.map_some, Option.map_some,
      ih (k, x) ((Dict.get?_eq_some_iff distinct).1 hf) (k, y)
        ((Dict.get?_eq_some_iff distinct').1 hg) same.symm]

theorem canonical_eq_of_meaning_eq {v w : Value} (hv : v.IsPlain) (hw : w.IsPlain)
    (eq : v.meaning = w.meaning) : v.canonical = w.canonical := by
  induction hv generalizing w with
  | null => cases hw <;> simp_all [meaning]
  | bool b => cases hw <;> simp_all [meaning]
  | text t => cases hw <;> simp_all [meaning]
  | number double =>
    cases hw with
    | number double' =>
      rw [canonical_number double, canonical_number double']
      exact Number.render_eq_of_toRat_eq double double' (by simpa [meaning] using eq)
    | _ => simp [meaning] at eq
  | @array xs items ih =>
    cases hw with
    | @array ys items' =>
      rw [canonical_array, canonical_array]
      congr 3
      simp only [meaning, meaningItems_eq, Meaning.array.injEq] at eq
      exact map_canonical_eq eq fun x hx y hy => ih x hx (items' y hy)
    | _ => simp [meaning] at eq
  | @object fields distinct values ih =>
    cases hw with
    | @object others distinct' values' =>
      rw [canonical, canonical]
      congr 4
      simp only [meaning, Meaning.object.injEq] at eq
      refine Text.sortOn_eq_of_perm ?_
        (canonicalFields_perm distinct distinct' eq fun f hf g hg => ih f hf (values' g hg))
      rw [keys_canonicalFields]
      exact distinct
    | _ => simp [meaning] at eq

/-- Canonical texts are equal exactly when the values are the same data. -/
theorem canonical_eq_iff {v w : Value} (hv : v.IsPlain) (hw : w.IsPlain) :
    v.canonical = w.canonical ↔ v.meaning = w.meaning :=
  ⟨meaning_eq_of_canonical_eq hv hw, canonical_eq_of_meaning_eq hv hw⟩

end Value

end Quill
