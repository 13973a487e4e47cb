import Mathlib.Data.List.Induction
import Quill.Analysis.Symbol
import Quill.Proofs.Markup.Identifier
import Quill.Proofs.Text.Replacement

/-!
# Texts with their names kept apart

A draft is a text in which the names of symbols are pieces of their own, so that they can be given
other names. The places between two pieces of a draft are the ones that can be found again
afterwards.

## Main definitions

* `Renaming` — other names for labels and bindings.
* `Draft` — units and names, one after another; `Draft.text` is the text they make up.
* `Draft.rename` — the draft with other names.
* `Draft.names` — the names with their places.
* `Draft.Place` — a place between two pieces, before and after a renaming.
* `Draft.Follows` — all places of a part of a draft.

## Main statements

* `Draft.Place.lt_iff` — a renaming keeps the order of places.
* `Draft.foldr_replacements` — replacing the names one by one makes the text of the renamed draft.
-/

namespace Quill

/-- Other names for symbols: names stay names, and what is not the word of a directive does not
become one. -/
structure Renaming where
  apply : NameKind → Text → Text
  valid : ∀ kind {name}, Identifier.isValid name → Identifier.isValid (apply kind name)
  free : ∀ {name}, Directive.isReserved name = false → Directive.isReserved (apply .binding name) =
    false

def Renaming.refl : Renaming := ⟨fun _ name => name, fun _ => id, id⟩

@[simp] theorem Renaming.refl_apply (kind : NameKind) (name : Text) : refl.apply kind name = name :=
  rfl

inductive Draft.Piece where
  | unit (u : UInt16)
  | name (kind : NameKind) (name : Text)

/-- A text in which the names of symbols are kept apart. -/
abbrev Draft := List Draft.Piece

namespace Draft

def Piece.text : Piece → Text
  | unit u => [u]
  | name _ n => n

def Piece.rename (ρ : Renaming) : Piece → Piece
  | unit u => unit u
  | name kind n => name kind (ρ.apply kind n)

def text (d : Draft) : Text := d.flatMap Piece.text

def rename (ρ : Renaming) (d : Draft) : Draft := d.map (Piece.rename ρ)

def units (t : Text) : Draft := t.map .unit

def Valid (d : Draft) : Prop := ∀ kind name, Piece.name kind name ∈ d → Identifier.isValid name

def names (offset : Nat) : Draft → List Name
  | [] => []
  | .unit _ :: d => names (offset + 1) d
  | .name kind name :: d => ⟨kind, name, ⟨offset, offset + name.length⟩⟩ ::
    names (offset + name.length) d

variable {ρ : Renaming} {R : Int → Int → Prop} {d e : Draft} {p : Piece} {t : Text} {u : UInt16}
  {o o' : Nat} {x x' y y' : Int}

/-! ## Drafts in parts -/

@[simp] theorem text_nil : text [] = [] := rfl

@[simp] theorem text_cons (p : Piece) (d : Draft) : text (p :: d) = p.text ++ text d := rfl

@[simp] theorem text_append (d e : Draft) : (d ++ e).text = d.text ++ e.text := by simp [text]

@[simp] theorem text_unit (u : UInt16) : (Piece.unit u).text = [u] := rfl

@[simp] theorem text_name (kind : NameKind) (name : Text) :
    (Piece.name kind name).text = name := rfl

@[simp] theorem text_unit_cons (u : UInt16) (d : Draft) : text (.unit u :: d) = u :: text d := rfl

@[simp] theorem text_name_cons (kind : NameKind) (name : Text) (d : Draft) :
    text (.name kind name :: d) = name ++ text d := rfl

@[simp] theorem text_units (t : Text) : (units t).text = t := by
  induction t with
  | nil => rfl
  | cons u t ih => simpa [units] using ih

@[simp] theorem rename_nil : rename ρ [] = [] := rfl

@[simp] theorem rename_cons (p : Piece) (d : Draft) :
    rename ρ (p :: d) = p.rename ρ :: rename ρ d := rfl

@[simp] theorem rename_append (d e : Draft) : rename ρ (d ++ e) = rename ρ d ++ rename ρ e := by
  simp [rename]

@[simp] theorem rename_unit (u : UInt16) : (Piece.unit u).rename ρ = .unit u := rfl

@[simp] theorem rename_name (kind : NameKind) (name : Text) :
    (Piece.name kind name).rename ρ = .name kind (ρ.apply kind name) := rfl

@[simp] theorem rename_units (t : Text) : rename ρ (units t) = units t := by simp [rename, units]

@[simp] theorem rename_refl (d : Draft) : rename .refl d = d := by
  induction d with
  | nil => rfl
  | cons p d ih =>
    rw [rename_cons, ih]
    cases p <;> rfl

@[simp] theorem valid_nil : Valid [] := by simp [Valid]

@[simp] theorem valid_append : Valid (d ++ e) ↔ Valid d ∧ Valid e := by
  simp only [Valid, List.mem_append]
  grind

@[simp] theorem valid_unit_cons : Valid (.unit u :: d) ↔ Valid d := by simp [Valid]

@[simp] theorem valid_name_cons {kind : NameKind} {name : Text} :
    Valid (.name kind name :: d) ↔ Identifier.isValid name ∧ Valid d := by
  constructor
  · exact fun valid =>
      ⟨valid kind name (by simp), fun k n mem => valid k n (List.mem_cons_of_mem _ mem)⟩
  · rintro ⟨first, valid⟩ k n mem
    rcases List.mem_cons.1 mem with eq | mem
    · obtain ⟨rfl, rfl⟩ := Piece.name.inj eq
      exact first
    · exact valid k n mem

@[simp] theorem valid_units (t : Text) : Valid (units t) := by simp [Valid, units]

theorem Valid.rename (valid : Valid d) (ρ : Renaming) : Valid (d.rename ρ) := by
  induction d with
  | nil => exact valid
  | cons p d ih =>
    cases p with
    | unit u => simpa using ih (valid_unit_cons.1 valid)
    | name kind name =>
      obtain ⟨name_, valid⟩ := valid_name_cons.1 valid
      simpa using ⟨ρ.valid kind name_, ih valid⟩

@[simp] theorem names_units (offset : Nat) (t : Text) : names offset (units t) = [] := by
  induction t generalizing offset with
  | nil => rfl
  | cons u t ih => exact ih (offset + 1)

@[simp] theorem names_append (offset : Nat) (d e : Draft) :
    names offset (d ++ e) = names offset d ++ names (offset + d.text.length) e := by
  induction d generalizing offset with
  | nil => rfl
  | cons p d ih => cases p <;> simp [names, ih, Nat.add_assoc, Nat.add_comm 1]

/-! ## What a renaming leaves -/

theorem ne_nil_of_isValid {name : Text} (valid : Identifier.isValid name) : name ≠ [] := by
  rintro rfl
  simp [Identifier.isValid] at valid

theorem text_eq_nil_iff (valid : Valid d) : d.text = [] ↔ d = [] := by
  cases d with
  | nil => simp
  | cons p d =>
    cases p with
    | unit u => simp
    | name kind name => simp [ne_nil_of_isValid (valid_name_cons.1 valid).1]

theorem mem_text (mem : u ∈ d.text) (valid : Valid d) : Piece.unit u ∈ d ∨ Identifier.isPart u := by
  obtain ⟨p, inside, mem⟩ := List.mem_flatMap.1 mem
  cases p with
  | unit v =>
    obtain rfl : u = v := by simpa using mem
    exact .inl inside
  | name kind name => exact .inr (Identifier.isPart_of_isValid (valid kind name inside) u mem)

/-- A unit that belongs to no name is in a text as long as it is in the renamed one. -/
theorem mem_text_of_mem_rename (valid : Valid d) (other : Identifier.isPart u = false)
    (mem : u ∈ (d.rename ρ).text) : u ∈ d.text := by
  rcases mem_text mem (valid.rename ρ) with mem | part
  · obtain ⟨p, inside, eq⟩ := List.mem_map.1 mem
    cases p with
    | unit v =>
      obtain rfl : v = u := by simpa [Piece.rename] using eq
      exact List.mem_flatMap.2 ⟨_, inside, List.mem_singleton_self v⟩
    | name kind name => cases eq
  · simp [part] at other

/-- The first unit stays, if it belongs to no name. -/
theorem head?_text_rename (valid : Valid d) (other : Identifier.isPart u = false) :
    (d.rename ρ).text.head? = some u ↔ d.text.head? = some u := by
  cases d with
  | nil => rfl
  | cons p d =>
    cases p with
    | unit v => rfl
    | name kind name =>
      obtain ⟨valid, -⟩ := valid_name_cons.1 valid
      have not {name : Text} (valid : Identifier.isValid name) (t : Text) :
          (name ++ t).head? ≠ some u := by
        obtain ⟨v, name, rfl⟩ := List.exists_cons_of_ne_nil (ne_nil_of_isValid valid)
        have part := Identifier.isPart_of_isValid valid v (by simp)
        simp only [List.cons_append, List.head?_cons, ne_eq, Option.some.injEq]
        rintro rfl
        simp [part] at other
      exact iff_of_false (not (ρ.valid kind valid) _) (not valid _)

theorem trimEnd_of_isValid {name : Text} (valid : Identifier.isValid name) :
    Text.trimEnd name = name :=
  Text.trimEnd_eq_self_iff.2 fun u last =>
    Identifier.not_isBlank_of_isPart
      (Identifier.isPart_of_isValid valid u (List.mem_of_getLast? last))

theorem trimEnd_text_rename (valid : Valid d) (trimmed : Text.trimEnd d.text = d.text) :
    Text.trimEnd (d.rename ρ).text = (d.rename ρ).text := by
  cases d using List.reverseRecOn with
  | nil => rfl
  | append_singleton d p =>
    cases p with
    | unit v =>
      rw [Text.trimEnd_eq_self_iff] at trimmed ⊢
      simpa using trimmed
    | name kind name =>
      have valid := ρ.valid kind (valid_name_cons.1 (valid_append.1 valid).2).1
      simpa using Text.trimEnd_append_eq_self (text (rename ρ d)) (ne_nil_of_isValid valid)
        (trimEnd_of_isValid valid)

/-- A unit that belongs to no name cuts a draft. -/
theorem exists_of_text_eq (valid : Valid d) (other : Identifier.isPart u = false) {s t : Text}
    (eq : d.text = s ++ u :: t) : ∃ a b, d = a ++ .unit u :: b ∧ text a = s ∧ text b = t := by
  induction d generalizing s with
  | nil => simp at eq
  | cons p d ih =>
    cases p with
    | unit v =>
      have valid := valid_unit_cons.1 valid
      rw [text_unit_cons] at eq
      cases s with
      | nil =>
        obtain ⟨rfl, rfl⟩ := List.cons.inj eq
        exact ⟨[], d, rfl, rfl, rfl⟩
      | cons w s =>
        obtain ⟨rfl, behind⟩ := List.cons.inj eq
        obtain ⟨a, b, rfl, rfl, rfl⟩ := ih valid behind
        exact ⟨.unit v :: a, b, rfl, rfl, rfl⟩
    | name kind name =>
      obtain ⟨own, valid⟩ := valid_name_cons.1 valid
      rw [text_name_cons] at eq
      obtain ⟨s, rfl, behind⟩ : ∃ s', s = name ++ s' ∧ text d = s' ++ u :: t := by
        rcases List.append_eq_append_iff.1 eq with ⟨s', rfl, behind⟩ | ⟨more, rfl, behind⟩
        · exact ⟨s', rfl, behind⟩
        · cases more with
          | nil => exact ⟨[], by simp, behind.symm⟩
          | cons v more =>
            obtain rfl : u = v := (List.cons.inj behind).1
            simp [Identifier.isPart_of_isValid own u (by simp)] at other
      obtain ⟨a, b, rfl, rfl, rfl⟩ := ih valid behind
      exact ⟨.name kind name :: a, b, rfl, rfl, rfl⟩

/-- Units that belong to no name are units of the draft. -/
theorem exists_of_text_eq_append (valid : Valid d) {run : Text}
    (other : ∀ u ∈ run, Identifier.isPart u = false) (eq : d.text = run ++ t) :
    ∃ e, d = units run ++ e ∧ text e = t := by
  induction run generalizing d with
  | nil => exact ⟨d, rfl, eq⟩
  | cons u run ih =>
    obtain ⟨a, b, rfl, none, behind⟩ :=
      exists_of_text_eq (s := []) (t := run ++ t) valid (other u (by simp)) eq
    obtain ⟨valid, valid'⟩ := valid_append.1 valid
    obtain rfl := (text_eq_nil_iff valid).1 none
    obtain ⟨e, rfl, rfl⟩ := ih (valid_unit_cons.1 valid')
      (fun v mem => other v (List.mem_cons_of_mem u mem)) behind
    exact ⟨e, rfl, rfl⟩

theorem exists_of_rename_eq_append {run : Text} (eq : d.rename ρ = units run ++ e) :
    ∃ e', d = units run ++ e' ∧ rename ρ e' = e := by
  induction run generalizing d with
  | nil => exact ⟨d, rfl, eq⟩
  | cons u run ih =>
    cases d with
    | nil => simp [units] at eq
    | cons p d =>
      obtain ⟨first, behind⟩ := List.cons.inj eq
      cases p with
      | name kind name => cases first
      | unit v =>
        obtain rfl : v = u := by simpa using first
        obtain ⟨e', rfl, rfl⟩ := ih behind
        exact ⟨e', rfl, rfl⟩

theorem blank_text_rename (valid : Valid d) : Text.Blank (d.rename ρ).text ↔ Text.Blank d.text := by
  induction d with
  | nil => rfl
  | cons p d ih =>
    cases p with
    | unit u => simp [Text.blank_cons, ih (valid_unit_cons.1 valid)]
    | name kind name =>
      have solid {name : Text} (valid : Identifier.isValid name) : ¬ Text.Blank name :=
        fun blank => by
        obtain ⟨u, name, rfl⟩ := List.exists_cons_of_ne_nil (ne_nil_of_isValid valid)
        have part := Identifier.isPart_of_isValid valid u (by simp)
        simp [Identifier.not_isBlank_of_isPart part] at blank
      have own := (valid_name_cons.1 valid).1
      simp [Text.blank_append, solid own, solid (ρ.valid kind own)]

theorem rename_of_names_eq_nil {offset : Nat} (none : names offset d = []) : d.rename ρ = d := by
  induction d generalizing offset with
  | nil => rfl
  | cons p d ih =>
    cases p with
    | unit u => exact congrArg (Piece.unit u :: ·) (ih none)
    | name kind name => simp [names] at none

theorem exists_trimEnd (valid : Valid d) :
    ∃ kept gap, d = kept ++ units gap ∧ ∀ ρ, Text.trimEnd (text (rename ρ d)) =
      text (rename ρ kept) := by
  have parts : ∃ kept gap, d = kept ++ units gap ∧ Text.Blank gap ∧ Text.trimEnd (text kept) =
      text kept := by
    induction d using List.reverseRecOn with
    | nil => exact ⟨[], [], rfl, by simp, rfl⟩
    | append_singleton d p ih =>
      obtain ⟨front, last⟩ := valid_append.1 valid
      cases p with
      | unit u =>
        cases blank : Text.isBlank u with
        | true =>
          obtain ⟨kept, gap, rfl, blanks, trimmed⟩ := ih front
          exact ⟨kept, gap ++
            [u], by simp [units], by simp [Text.blank_append, blanks, blank], trimmed⟩
        | false => exact ⟨d ++ [.unit u],
          [], by simp [units], by simp, by simp [Text.trimEnd_eq_self_iff, blank]⟩
      | name kind name =>
        have valid := (valid_name_cons.1 last).1
        refine ⟨d ++ [.name kind name], [], by simp [units], by simp, ?_⟩
        simpa using Text.trimEnd_append_eq_self (text d) (ne_nil_of_isValid valid)
          (trimEnd_of_isValid valid)
  obtain ⟨kept, gap, rfl, blank, trimmed⟩ := parts
  refine ⟨kept, gap, rfl, fun ρ => ?_⟩
  rw [rename_append, text_append, rename_units, text_units, Text.trimEnd_append_of_blank blank,
    trimEnd_text_rename (valid_append.1 valid).1 trimmed]

/-! ## Places -/

def Place (ρ : Renaming) (d : Draft) (x x' : Int) : Prop :=
  ∃ front behind, d = front ++ behind ∧ x = front.text.length ∧ x' = (front.rename ρ).text.length

theorem length_text_pos (valid : Valid d) (ne : d ≠ []) : 0 < d.text.length :=
  List.length_pos_iff.2 (mt (text_eq_nil_iff valid).1 ne)

/-- Of two parts that a draft begins with, the longer one has the longer text. -/
theorem length_text_lt_iff {a a' b b' : Draft} (valid : Valid (a ++ a')) (eq : a ++ a' = b ++ b') :
    (text a).length < (text b).length ↔ a.length < b.length := by
  rcases List.append_eq_append_iff.1 eq with ⟨c, rfl, rfl⟩ | ⟨c, rfl, rfl⟩
  · have c_valid := (valid_append.1 (valid_append.1 valid).2).1
    cases c with
    | nil => simp
    | cons p c =>
      have := length_text_pos c_valid (by simp)
      simp only [text_append, List.length_append, List.length_cons] at this ⊢
      omega
  · simp only [text_append, List.length_append]
    omega

/-- A renaming keeps the order of places. -/
theorem Place.lt_iff (valid : Valid d) (h : Place ρ d x x') (k : Place ρ d y y') :
    x < y ↔ x' < y' := by
  obtain ⟨a, a', rfl, rfl, rfl⟩ := h
  obtain ⟨b, b', eq, rfl, rfl⟩ := k
  have renamed : rename ρ a ++ rename ρ a' = rename ρ b ++ rename ρ b' := by
    rw [← rename_append, eq, rename_append]
  have valid' : Valid (rename ρ a ++ rename ρ a') := by
    rw [← rename_append]
    exact valid.rename ρ
  rw [Int.ofNat_lt, Int.ofNat_lt, length_text_lt_iff valid eq, length_text_lt_iff valid' renamed]
  simp [rename]

theorem Place.le_iff (valid : Valid d) (h : Place ρ d x x') (k : Place ρ d y y') :
    x ≤ y ↔ x' ≤ y' := by
  have := k.lt_iff valid h
  omega

theorem Place.eq_iff (valid : Valid d) (h : Place ρ d x x') (k : Place ρ d y y') :
    x = y ↔ x' = y' := by
  have := h.lt_iff valid k
  have := k.lt_iff valid h
  omega

/-- The places of a draft that starts at `o`, and at `o'` when it is renamed, are among `R`. -/
def Follows (ρ : Renaming) (R : Int → Int → Prop) (o o' : Nat) : Draft → Prop
  | [] => R o o'
  | p :: d => R o o' ∧ Follows ρ R (o + p.text.length) (o' + (p.rename ρ).text.length) d

theorem Follows.start (h : Follows ρ R o o' d) : R o o' := by
  cases d with
  | nil => exact h
  | cons p d => exact h.1

theorem follows_append : Follows ρ R o o' (d ++ e) ↔ Follows ρ R o o' d ∧
    Follows ρ R (o + d.text.length) (o' + (d.rename ρ).text.length) e := by
  induction d generalizing o o' with
  | nil => exact ⟨fun h => ⟨h.start, h⟩, And.right⟩
  | cons p d ih => simp [Follows, ih, and_assoc, Nat.add_assoc]

theorem Follows.left (h : Follows ρ R o o' (d ++ e)) : Follows ρ R o o' d := (follows_append.1 h).1

theorem Follows.right (h : Follows ρ R o o' (d ++ e)) :
    Follows ρ R (o + d.text.length) (o' + (d.rename ρ).text.length) e :=
  (follows_append.1 h).2

theorem Follows.stop (h : Follows ρ R o o' d) :
    R (o + d.text.length : Nat) (o' + (d.rename ρ).text.length : Nat) :=
  (follows_append (e := []).1 (by simpa using h)).2

/-- The places of a text without names. -/
theorem Follows.within (h : Follows ρ R o o' (units t)) {k : Nat} (le : k ≤ t.length) :
    R (o + k : Nat) (o' + k : Nat) := by
  have parts : units t = units (t.take k) ++ units (t.drop k) := by
    simp [units]
  rw [parts] at h
  simpa [le] using h.left.stop

theorem follows_place (front d behind : Draft) : Follows ρ (Place ρ (front ++ (d ++ behind)))
    (text front).length (text (rename ρ front)).length d := by
  induction d generalizing front with
  | nil => exact ⟨front, behind, by simp, rfl, rfl⟩
  | cons p d ih =>
    refine ⟨⟨front, p :: d ++ behind, by simp, rfl, rfl⟩, ?_⟩
    simpa [Nat.add_assoc] using ih (front ++ [p])

/-! ## One other name -/

def replacements (kind : NameKind) (old new : Text) (offset : Nat) (d : Draft) : List Replacement :=
  ((names offset d).filter fun n => n.kind = kind ∧ n.name = old).map fun n => ⟨n.span, new⟩

variable {kind : NameKind} {old new : Text}

/-- Made one by one from the last to the first, the replacements make the text of the renamed
draft. -/
theorem foldr_replacements (rename_eq : ∀ k n, ρ.apply k n = if k = kind ∧ n = old then new else n)
    (front : Text) (d : Draft) :
    (replacements kind old new front.length d).foldr Replacement.apply (front ++ d.text) =
      front ++ (d.rename ρ).text := by
  induction d generalizing front with
  | nil => rfl
  | cons p d ih =>
    cases p with
    | unit u => simpa [replacements, names] using ih (front ++ [u])
    | name k n =>
      have later := ih (front ++ n)
      rw [List.length_append] at later
      simp only [text_cons, text_name, rename_cons, rename_name, rename_eq, ← List.append_assoc]
      by_cases eq : k = kind ∧ n = old
      · have one : replacements kind old new front.length (.name k n :: d) =
            ⟨⟨front.length, front.length + n.length⟩, new⟩ ::
              replacements kind old new (front.length + n.length) d := by
          simp [replacements, names, eq]
        have stop : ((front.length : Int) + n.length).toNat = (front ++ n).length := by
          simp only [List.length_append]
          omega
        rw [one, List.foldr_cons, later, if_pos eq, Replacement.apply, stop, List.drop_left,
          Int.toNat_natCast, List.append_assoc front n, List.take_left, List.append_assoc]
      · have one : replacements kind old new front.length (.name k n :: d) =
            replacements kind old new (front.length + n.length) d := by
          simp [replacements, names, eq]
        rw [one, later, if_neg eq]

/-- A name of a draft stands between its other pieces. -/
theorem exists_of_mem_names {n : Name} (mem : n ∈ names o d) : ∃ front behind : Draft,
    d = front ++ .name n.kind n.name :: behind ∧
      n.span = ⟨(o + front.text.length : Nat), (o + front.text.length + n.name.length : Nat)⟩ := by
  induction d generalizing o with
  | nil => simp [names] at mem
  | cons p d ih =>
    cases p with
    | unit u =>
      obtain ⟨front, behind, rfl, span⟩ := ih mem
      exact ⟨.unit u :: front, behind, rfl, by simp [span, Nat.add_assoc, Nat.add_comm 1]⟩
    | name kind name =>
      rcases List.mem_cons.1 mem with rfl | mem
      · exact ⟨[], d, rfl, by simp⟩
      · obtain ⟨front, behind, rfl, span⟩ := ih mem
        exact ⟨.name kind name :: front, behind, rfl, by simp [span, Nat.add_assoc]⟩

theorem pairwise_names (o : Nat) (d : Draft) :
    (names o d).Pairwise fun a b => a.span.stop ≤ b.span.start := by
  induction d generalizing o with
  | nil => exact .nil
  | cons p d ih =>
    cases p with
    | unit u => exact ih (o + 1)
    | name kind name =>
      refine List.pairwise_cons.2 ⟨fun b mem => ?_, ih (o + name.length)⟩
      obtain ⟨front, behind, -, span⟩ := exists_of_mem_names mem
      simp only [span]
      omega

theorem stop_mem_names (valid : Valid d) {n : Name} (mem : n ∈ names o d) :
    (o : Int) < n.span.stop ∧ n.span.stop ≤ (o + d.text.length : Nat) := by
  obtain ⟨front, behind, rfl, span⟩ := exists_of_mem_names mem
  have first := (valid_name_cons.1 (valid_append.1 valid).2).1
  have := List.length_pos_iff.2 (ne_nil_of_isValid first)
  simp only [span, text_append, text_name_cons, List.length_append]
  omega

theorem length_rename (rename_eq : ∀ k n, ρ.apply k n = if k = kind ∧ n = old then new else n)
    (d : Draft) (o : Nat) :
    ((d.rename ρ).text.length : Int) = d.text.length + ((new.length : Int) - old.length) *
      (names o d).countP fun n => n.kind = kind ∧ n.name = old := by
  induction d generalizing o with
  | nil => simp [names]
  | cons p d ih =>
    cases p with
    | unit u =>
      have := ih (o + 1)
      simp only [rename_cons, rename_unit, text_unit_cons, List.length_cons, names]
      push_cast
      omega
    | name k n =>
      have := ih (o + n.length)
      simp only [rename_cons, rename_name, text_name_cons, List.length_append, names, rename_eq,
        List.countP_cons]
      by_cases eq : k = kind ∧ n = old
      · obtain ⟨rfl, rfl⟩ := eq
        simp only [and_self, if_true, decide_true]
        push_cast
        rw [Int.mul_add]
        omega
      · simp only [eq, if_false, decide_false, Bool.false_eq_true, Nat.add_zero]
        push_cast
        omega

/-- A place moves by what the names in front of it have become longer. -/
theorem Place.shift (valid : Valid d)
    (rename_eq : ∀ k n, ρ.apply k n = if k = kind ∧ n = old then new else n)
    (h : Place ρ d x x') : x' = x + ((new.length : Int) - old.length) *
      (names 0 d).countP fun n => (n.kind = kind ∧ n.name = old) ∧ n.span.stop ≤ x := by
  obtain ⟨front, behind, rfl, rfl, rfl⟩ := h
  obtain ⟨front_valid, behind_valid⟩ := valid_append.1 valid
  have later : (names (0 + front.text.length) behind).countP
      (fun n => (n.kind = kind ∧ n.name = old) ∧ n.span.stop ≤ (front.text.length : Int)) = 0 := by
    refine List.countP_eq_zero.2 fun n mem => ?_
    have := (stop_mem_names behind_valid mem).1
    simp only [decide_eq_true_eq]
    omega
  have all : (names 0 front).countP
      (fun n => (n.kind = kind ∧ n.name = old) ∧ n.span.stop ≤ (front.text.length : Int)) =
        (names 0 front).countP fun n => n.kind = kind ∧ n.name = old := by
    refine List.countP_congr fun n mem => ?_
    have := (stop_mem_names front_valid mem).2
    simp only [decide_eq_true_eq, and_iff_left_iff_imp]
    omega
  rw [names_append, List.countP_append, later, all, Nat.add_zero]
  exact length_rename rename_eq front 0

end Draft

end Quill
