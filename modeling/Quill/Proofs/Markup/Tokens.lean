import Quill.Proofs.Markup.Contents
import Quill.Proofs.Markup.Draft

/-!
# Scanned text in drafts

What a scan finds cuts a text into tokens: a label, a reference, a use, a unit that is hidden, and
so on. Names with other names in their places are the names of the same tokens.

## Main definitions

* `Inline.Lexed` — drafts whose names are those that a scan finds.
* `Text.SameLead` — texts with the same units up to one that belongs to no name.
* `Draft.Isolated` — drafts whose names stand by themselves.

## Main statements

* `Inline.exists_lexed` — every text has such a draft.
-/

namespace Quill

open Identifier (isPart isStart isValid leading?)
open Draft (units)

/-! ## The beginning of a text -/

/-- A name at the start of a text goes on up to a unit that belongs to no name. -/
theorem Identifier.leading?_lead {lead rest : Text} (inside : ∀ u ∈ lead, isPart u)
    (other : ∀ u ∈ rest.head?, isPart u = false) :
    leading? (lead ++ rest) = if isValid lead then some lead else none := by
  cases lead with
  | nil =>
    cases rest with
    | nil => rfl
    | cons u r =>
      have := mt Identifier.isPart_of_isStart (Bool.eq_false_iff.1 (other u rfl))
      simp [leading?, isValid, this]
  | cons u lead =>
    have all : ∀ v ∈ lead, isPart v := fun v mem => inside v (List.mem_cons_of_mem u mem)
    have cut : (lead ++ rest).takeWhile isPart = lead := Text.takeWhile_append all other
    simp [leading?, isValid, cut, List.all_eq_true.2 all]

/-- The texts have the same units up to the first one that belongs to no name, and with it. -/
def Text.SameLead (s t : Text) : Prop :=
  ∃ lead s' t', s = lead ++ s' ∧ t = lead ++ t' ∧ (∀ u ∈ lead, isPart u) ∧ s'.head? = t'.head? ∧
    ∀ u ∈ s'.head?, isPart u = false

namespace Text.SameLead

variable {s t rest : Text} {u : UInt16}

theorem of_head? (same : s.head? = t.head?) (other : ∀ u ∈ s.head?, isPart u = false) :
    SameLead s t :=
  ⟨[], s, t, rfl, rfl, by simp, same, other⟩

theorem refl (t : Text) : SameLead t t := by
  exact ⟨t.takeWhile isPart, t.dropWhile isPart, t.dropWhile isPart, by simp, by simp,
    fun u => Text.of_mem_takeWhile, rfl, fun u => Text.not_of_mem_head?_dropWhile⟩

theorem cons (u : UInt16) (h : SameLead s t) : SameLead (u :: s) (u :: t) := by
  cases part : isPart u with
  | false => exact of_head? rfl (by simpa using part)
  | true =>
    obtain ⟨lead, s', t', rfl, rfl, inside, same, other⟩ := h
    exact ⟨u :: lead, s', t', rfl, rfl, by simpa [part] using inside, same, other⟩

theorem head?_eq (h : SameLead s t) : s.head? = t.head? := by
  obtain ⟨lead, s', t', rfl, rfl, -, same, -⟩ := h
  simp [List.head?_append, same]

theorem leading?_eq (h : SameLead s t) : leading? s = leading? t := by
  obtain ⟨lead, s', t', rfl, rfl, inside, same, other⟩ := h
  rw [Identifier.leading?_lead inside other, Identifier.leading?_lead inside (same ▸ other)]

theorem labelName?_eq (h : SameLead s t) : Inline.labelName? s = Inline.labelName? t := by
  obtain ⟨lead, s', t', rfl, rfl, inside, same, other⟩ := h
  unfold Inline.labelName?
  rw [Identifier.leading?_lead inside other, Identifier.leading?_lead inside (same ▸ other)]
  cases isValid lead <;> simp [same]

end Text.SameLead

namespace Inline

variable {d : Draft} {name t : Text} {u : UInt16} {ρ : Renaming}

/-! ## Tokens -/

/-- The unit by itself is a token in front of `rest`: it hides nothing, starts no comment, and no
mark. -/
structure Plain (u : UInt16) (rest : Text) : Prop where
  shows : u ≠ backslash
  quiet : startsComment u rest = false
  label : u = Text.unit '<' → labelName? rest = none
  mark : u = Text.unit '@' ∨ u = Text.unit '#' → leading? rest = none

/-- No name goes on at the start of the text. -/
def Ends (rest : Text) : Prop := ∀ u ∈ rest.head?, isPart u = false

/-- Drafts of scanned text: their names are those of the marks that a scan finds. -/
inductive Lexed : Draft → Prop
  | nil : Lexed []
  | last : Lexed (units [backslash])
  | hidden (u : UInt16) {d : Draft} (rest : Lexed d) : Lexed (.unit backslash :: .unit u :: d)
  | comment {u : UInt16} {t : Text} (starts : startsComment u t) : Lexed (units (u :: t))
  | label {name : Text} {d : Draft} (valid : isValid name) (rest : Lexed d) :
    Lexed (.unit (Text.unit '<') :: .name .label name :: .unit (Text.unit '>') :: d)
  | reference {name : Text} {d : Draft} (valid : isValid name) (ends : Ends d.text)
    (rest : Lexed d) :
    Lexed (.unit (Text.unit '@') :: .name .label name :: d)
  | use {name : Text} {d : Draft} (valid : isValid name) (free : Directive.isReserved name = false)
    (ends : Ends d.text) (rest : Lexed d) :
    Lexed (.unit (Text.unit '#') :: .name .binding name :: d)
  | reserved {name : Text} {d : Draft} (valid : isValid name) (reserved : Directive.isReserved name)
    (ends : Ends d.text) (rest : Lexed d) :
    Lexed (.unit (Text.unit '#') :: (units name ++ d))
  | plain {u : UInt16} {d : Draft} (plain : Plain u d.text) (rest : Lexed d) : Lexed (.unit u :: d)

theorem not_isPart_closing : isPart (Text.unit '>') = false := by decide

theorem labelName?_eq_some_iff :
    labelName? t = some name ↔ isValid name ∧ ∃ rest, t = name ++ Text.unit '>' :: rest := by
  constructor
  · intro found
    unfold labelName? at found
    split at found
    next n leads =>
      obtain ⟨behind, rfl⟩ := Identifier.isPrefixOf_of_leading? leads
      split at found
      next closed =>
        obtain rfl : n = name := by simpa using found
        refine ⟨Identifier.isValid_of_leading? leads, ?_⟩
        cases behind with
        | nil => simp at closed
        | cons u rest =>
          obtain rfl : u = Text.unit '>' := by simpa using closed
          exact ⟨rest, rfl⟩
      next => simp at found
    next => simp at found
  · rintro ⟨valid, rest, rfl⟩
    have leads : leading? (name ++ Text.unit '>' :: rest) = some name :=
      Identifier.leading?_append valid (by simpa using not_isPart_closing)
    simp [labelName?, leads]

theorem ends_of_leading? {rest : Text} (found : leading? (name ++ rest) = some name) :
    Ends rest := by
  cases name with
  | nil => exact absurd (Identifier.isValid_of_leading? found) (by simp [isValid])
  | cons v name =>
    have start : isStart v := by
      have valid := Identifier.isValid_of_leading? found
      simp only [isValid, Bool.and_eq_true] at valid
      exact valid.1
    have cut : (name ++ rest).takeWhile isPart = name := by simpa [leading?, start] using found
    have longer : name ++ (name ++ rest).dropWhile isPart = name ++ rest := by
      conv => rhs; rw [← List.takeWhile_append_dropWhile (p := isPart) (l := name ++ rest), cut]
    intro u first
    rw [← List.append_cancel_left longer] at first
    exact Text.not_of_mem_head?_dropWhile first

theorem exists_lexed (t : Text) : ∃ d, Lexed d ∧ d.text = t := by
  induction h : t.length using Nat.strongRecOn generalizing t with
  | ind n ih =>
    cases t with
    | nil => exact ⟨[], .nil, rfl⟩
    | cons u t =>
      subst h
      have on (rest : Text) (le : rest.length ≤ t.length) : ∃ d, Lexed d ∧ d.text = rest :=
        ih rest.length (by simpa using Nat.lt_succ_of_le le) rest rfl
      by_cases hides : u = backslash
      · subst hides
        cases t with
        | nil => exact ⟨_, .last, by simp⟩
        | cons v t =>
          obtain ⟨d, lexed, rfl⟩ := on t (by simp)
          exact ⟨_, .hidden v lexed, by simp⟩
      by_cases comment : startsComment u t
      · exact ⟨_, .comment comment, by simp⟩
      by_cases label : u = Text.unit '<' ∧ (labelName? t).isSome
      · obtain ⟨rfl, some_⟩ := label
        obtain ⟨name, found⟩ := Option.isSome_iff_exists.1 some_
        obtain ⟨valid, rest, rfl⟩ := labelName?_eq_some_iff.1 found
        obtain ⟨d, lexed, rfl⟩ := on rest (by simp; omega)
        exact ⟨_, .label valid lexed, by simp⟩
      by_cases mark : (u = Text.unit '@' ∨ u = Text.unit '#') ∧ (leading? t).isSome
      · obtain ⟨sign, some_⟩ := mark
        obtain ⟨name, found⟩ := Option.isSome_iff_exists.1 some_
        obtain ⟨rest, rfl⟩ := Identifier.isPrefixOf_of_leading? found
        obtain ⟨d, lexed, rfl⟩ := on rest (by simp)
        have valid := Identifier.isValid_of_leading? found
        have ends := ends_of_leading? found
        rcases sign with rfl | rfl
        · exact ⟨_, .reference valid ends lexed, by simp⟩
        · cases reserved : Directive.isReserved name with
          | false => exact ⟨_, .use valid reserved ends lexed, by simp⟩
          | true => exact ⟨_, .reserved valid reserved ends lexed, by simp⟩
      · obtain ⟨d, lexed, rfl⟩ := on t (Nat.le_refl _)
        refine ⟨_, .plain ⟨hides, by simpa using comment, fun eq => ?_, fun eq => ?_⟩
          lexed, by simp⟩
        · simpa [eq] using label
        · simpa [eq] using mark

namespace Lexed

theorem valid (h : Lexed d) : d.Valid := by
  induction h with
  | nil => simp
  | last | comment => exact Draft.valid_units _
  | hidden u rest ih => simpa using ih
  | label valid rest ih | reference valid ends rest ih | use valid free ends rest ih =>
    simpa [valid] using ih
  | reserved valid reserved ends rest ih => simpa using ih
  | plain plain rest ih => simpa using ih

/-- Under other names a text begins as before, up to its first mark. -/
theorem sameLead (h : Lexed d) (ρ : Renaming) : Text.SameLead d.text (d.rename ρ).text := by
  have sign {u : UInt16} (other : isPart u = false) (s t : Text) :
      Text.SameLead (u :: s) (u :: t) :=
    .of_head? rfl (by simpa using other)
  induction h with
  | nil => exact .refl _
  | last | comment =>
    rw [Draft.rename_units]
    exact .refl _
  | hidden | label | reference | use | reserved => exact sign (by decide) _ _
  | plain plain rest ih => exact ih.cons _

theorem ends_rename (h : Lexed d) (ends : Ends d.text) : Ends (d.rename ρ).text := by
  rwa [Ends, ← (h.sameLead ρ).head?_eq]

theorem plain_rename (h : Lexed d) (plain : Plain u d.text) : Plain u (d.rename ρ).text where
  shows := plain.shows
  quiet := by rw [startsComment, ← (h.sameLead ρ).head?_eq]; exact plain.quiet
  label := by rw [← (h.sameLead ρ).labelName?_eq]; exact plain.label
  mark := by rw [← (h.sameLead ρ).leading?_eq]; exact plain.mark

end Lexed

/-! ## Names that stand by themselves -/

end Inline

namespace Draft

open Inline (Ends ends_of_leading?)

variable {ρ : Renaming} {d e : Draft} {before : Option UInt16} {u : UInt16} {t word tail : Text}

/-- Between the unit `before` and the end of the draft, every name stands by itself: no unit beside
it could belong to a name, and behind a hash sign it is no word of a directive. -/
def Isolated : Option UInt16 → Draft → Prop
  | _, [] => True
  | _, .unit u :: d => Isolated (some u) d
  | before, .name kind name :: d =>
    (∃ u ∈ before, isPart u = false ∧
      (u = Text.unit '#' → kind = .binding ∧ Directive.isReserved name = false)) ∧
      Ends (text d) ∧ Isolated none d

theorem Isolated.of_none (h : Isolated none d) (before : Option UInt16) : Isolated before d := by
  cases d with
  | nil => trivial
  | cons p d =>
    cases p with
    | unit u => exact h
    | name kind name =>
      obtain ⟨⟨u, none, -⟩, -⟩ := h
      cases none

theorem isolated_units_append :
    Isolated before (units t ++ d) ↔ Isolated (t.getLast?.or before) d := by
  induction t generalizing before with
  | nil => rfl
  | cons u t ih =>
    have last : t.getLast?.or (some u) = (u :: t).getLast?.or before := by
      cases t <;> simp [List.getLast?_cons]
    rw [← last, ← ih]
    rfl

theorem isolated_units (before : Option UInt16) (t : Text) : Isolated before (units t) := by
  rw [← List.append_nil (units t)]
  exact isolated_units_append.2 trivial

/-- What is behind a part of a draft stands behind some unit. -/
theorem Isolated.right (h : Isolated before (d ++ e)) : ∃ before', Isolated before' e := by
  induction d generalizing before with
  | nil => exact ⟨before, h⟩
  | cons p d ih =>
    cases p with
    | unit u => exact ih h
    | name kind name => exact ih h.2.2

theorem Isolated.append_units (h : Isolated before d) (ends : Ends t) :
    Isolated before (d ++ units t) := by
  induction d generalizing before with
  | nil => exact isolated_units before t
  | cons p d ih =>
    cases p with
    | unit u => exact ih h
    | name kind name =>
      obtain ⟨own, behind, h⟩ := h
      refine ⟨own, fun u first => ?_, ih h⟩
      rw [List.append_eq, text_append, text_units, List.head?_append] at first
      cases some_ : (text d).head? with
      | none => exact ends u (by simpa [some_] using first)
      | some v => exact behind u (by simpa [some_] using first)

theorem ends_rename (valid : d.Valid) (ends : Ends d.text) : Ends (d.rename ρ).text := by
  cases d with
  | nil => exact ends
  | cons p d =>
    cases p with
    | unit u => exact ends
    | name kind name =>
      have own := (valid_name_cons.1 valid).1
      obtain ⟨u, name, rfl⟩ := List.exists_cons_of_ne_nil (ne_nil_of_isValid own)
      have part := Identifier.isPart_of_isValid own u (by simp)
      simp [ends u (by simp)] at part

/-- With other names the names stand by themselves. -/
theorem Isolated.rename (valid : d.Valid) (h : Isolated before d) (ρ : Renaming) :
    Isolated before (d.rename ρ) := by
  induction d generalizing before with
  | nil => trivial
  | cons p d ih =>
    cases p with
    | unit u => exact ih (valid_unit_cons.1 valid) h
    | name kind name =>
      obtain ⟨⟨u, is, other, free⟩, ends, h⟩ := h
      have valid := (valid_name_cons.1 valid).2
      refine ⟨⟨u, is, other, fun sign => ?_⟩, ends_rename valid ends, ih valid h⟩
      obtain ⟨rfl, unreserved⟩ := free sign
      exact ⟨rfl, ρ.free unreserved⟩

theorem Isolated.exists_word (h : Isolated (some u) d) (part : isPart u)
    (inside : ∀ v ∈ word, isPart v) (eq : d.text = word ++ tail) :
    ∃ e, d = units word ++ e ∧ text e = tail := by
  induction word generalizing d u with
  | nil => exact ⟨d, rfl, eq⟩
  | cons v word ih =>
    cases d with
    | nil => cases eq
    | cons p d =>
      cases p with
      | unit w =>
        rw [text_unit_cons] at eq
        obtain ⟨rfl, behind⟩ := List.cons.inj eq
        obtain ⟨e, rfl, rfl⟩ := ih (u := w) h (inside w (by simp))
          (fun v mem => inside v (List.mem_cons_of_mem w mem)) behind
        exact ⟨e, rfl, rfl⟩
      | name kind name =>
        obtain ⟨⟨w, is, other, -⟩, -⟩ := h
        obtain rfl := Option.some.inj is
        simp [part] at other

/-- A word of a directive behind a hash sign is not a name. -/
theorem Isolated.exists_directive (h : Isolated (some (Text.unit '#')) d) (valid : d.Valid)
    (word_valid : isValid word) (reserved : Directive.isReserved word) (ends : Ends tail)
    (eq : d.text = word ++ tail) : ∃ e, d = units word ++ e ∧ text e = tail := by
  obtain ⟨u, word', rfl⟩ := List.exists_cons_of_ne_nil (ne_nil_of_isValid word_valid)
  have part := Identifier.isPart_of_isValid word_valid
  cases d with
  | nil => cases eq
  | cons p d =>
    cases p with
    | unit w =>
      rw [text_unit_cons] at eq
      obtain ⟨rfl, behind⟩ := List.cons.inj eq
      obtain ⟨e, rfl, rfl⟩ := Isolated.exists_word (u := w) h (part w (by simp))
        (fun v mem => part v (List.mem_cons_of_mem w mem)) behind
      exact ⟨e, rfl, rfl⟩
    | name kind name =>
      obtain ⟨⟨w, is, -, free⟩, ends', -⟩ := h
      have name_valid := (valid_name_cons.1 valid).1
      -- both are the identifier at the start of the text
      have leads := Identifier.leading?_append word_valid ends
      rw [← eq, text_name_cons, Identifier.leading?_append name_valid ends'] at leads
      have free := (free (Option.some.inj is).symm).2
      simp [Option.some.inj leads, reserved] at free

end Draft

namespace Inline

/-- The names of scanned text stand by themselves. -/
theorem Lexed.isolated (h : Lexed d) : Draft.Isolated none d := by
  have signs : isPart (Text.unit '<') = false ∧ isPart (Text.unit '@') = false ∧
      isPart (Text.unit '#') = false := by decide
  induction h with
  | nil => trivial
  | last | comment => exact Draft.isolated_units _ _
  | hidden u rest ih | plain _ rest ih => exact ih.of_none _
  | label valid rest ih =>
    refine ⟨⟨_, rfl, signs.1, fun eq => absurd eq (by decide)⟩, ?_, ih.of_none _⟩
    exact fun u first => Option.some.inj first ▸ not_isPart_closing
  | reference valid ends rest ih =>
    exact ⟨⟨_, rfl, signs.2.1, fun eq => absurd eq (by decide)⟩, ends, ih⟩
  | use valid free ends rest ih => exact ⟨⟨_, rfl, signs.2.2, fun _ => ⟨rfl, free⟩⟩, ends, ih⟩
  | reserved valid reserved ends rest ih =>
    exact Draft.isolated_units_append.2 (ih.of_none _)

/-! ## Scanning tokens -/

variable {s rest : Text} {offset : Nat} {before : Option UInt16} {opened : List OpenSign}

theorem scan_skip (name rest : Text) (offset : Nat) (before : Option UInt16)
    (opened : List OpenSign) :
    scan name.length offset before opened (name ++ rest) =
      scan 0 (offset + name.length) (name.getLast?.or before) opened rest := by
  induction name generalizing offset before with
  | nil => rfl
  | cons u name ih =>
    have last : name.getLast?.or (some u) = (u :: name).getLast?.or before := by
      cases name <;> simp [List.getLast?_cons]
    rw [List.cons_append, List.length_cons, scan, ih, last, Nat.add_assoc, Nat.add_comm 1]

theorem scan_comment (starts : startsComment u t) :
    scan 0 offset before opened (u :: t) = ⟨[], [], opened⟩ := by
  have shows : (u == backslash) = false := by
    obtain ⟨rfl, -⟩ : u = Posix.slash ∧ _ := by simpa [startsComment] using starts
    decide
  simp [scan, shows, starts]

theorem scan_label (valid : isValid name) (rest : Text) :
    scan 0 offset before opened (Text.unit '<' :: (name ++ Text.unit '>' :: rest)) =
      consItem (.label (markAt offset name 1))
        (scan 0 (offset + (1 + name.length + 1)) (some (Text.unit '>')) opened rest) := by
  have found : labelName? (name ++ Text.unit '>' :: rest) = some name :=
    labelName?_eq_some_iff.2 ⟨valid, rest, rfl⟩
  have skip := scan_skip (name ++ [Text.unit '>']) rest (offset + 1) (some (Text.unit '<')) opened
  simp only [List.length_append, List.length_singleton, List.append_assoc, List.singleton_append,
    List.getLast?_append, List.getLast?_singleton, Option.some_or] at skip
  have shows : (Text.unit '<' == backslash) = false := by decide
  have quiet : startsComment (Text.unit '<') (name ++ Text.unit '>' :: rest) = false := by
    simp [startsComment, show (Text.unit '<' == Posix.slash) = false by decide]
  simp only [scan, shows, quiet, found, beq_self_eq_true, if_true, Bool.false_eq_true,
    if_false, skip]
  congr 2
  omega

/-- What a mark without closing bracket is read as. -/
theorem scan_mark {sign : UInt16} (is : sign = Text.unit '@' ∨ sign = Text.unit '#')
    (valid : isValid name)
    (ends : Ends rest) : scan 0 offset before opened (sign :: (name ++ rest)) =
      let found := scan 0 (offset + (1 + name.length)) name.getLast? opened rest
      if sign = Text.unit '@' then consItem (.reference (markAt offset name 0)) found
      else if Directive.isReserved name then
        consError ⟨.misplacedDirective name, (markAt offset name 0).span⟩ found
      else consItem (.use (markAt offset name 0)) found := by
  have found : leading? (name ++ rest) = some name := Identifier.leading?_append valid ends
  have skip := scan_skip name rest (offset + 1) (some sign) opened
  have last : name.getLast?.or (some sign) = name.getLast? := by
    obtain ⟨u, name, rfl⟩ := List.exists_cons_of_ne_nil (Draft.ne_nil_of_isValid valid)
    simp [List.getLast?_cons]
  rw [last, Nat.add_assoc] at skip
  rcases is with rfl | rfl
  · have shows : (Text.unit '@' == backslash) = false := by decide
    have quiet : startsComment (Text.unit '@') (name ++ rest) = false := by
      simp [startsComment, show (Text.unit '@' == Posix.slash) = false by decide]
    have other : (Text.unit '@' == Text.unit '<') = false := by decide
    simp only [scan, shows, quiet, other, found, beq_self_eq_true, if_true, Bool.false_eq_true,
      if_false, skip]
  · have shows : (Text.unit '#' == backslash) = false := by decide
    have quiet : startsComment (Text.unit '#') (name ++ rest) = false := by
      simp [startsComment, show (Text.unit '#' == Posix.slash) = false by decide]
    have other : (Text.unit '#' == Text.unit '<') = false := by decide
    have other' : (Text.unit '#' == Text.unit '@') = false := by decide
    have other'' : Text.unit '#' ≠ Text.unit '@' := by decide
    simp only [scan, shows, quiet, other, other', other'', found, beq_self_eq_true, if_true,
      Bool.false_eq_true, if_false, skip]

/-- A unit by itself may be an emphasis sign. -/
theorem scan_plain (plain : Plain u rest) : scan 0 offset before opened (u :: rest) =
    match emphasis? before u rest with
    | some e => scan 0 (offset + 1) (some u) (toggle opened e offset) rest
    | none => scan 0 (offset + 1) (some u) opened rest := by
  have none_ (other : (u == Text.unit '*') = false) (other' : (u == Text.unit '_') = false) :
      emphasis? before u rest = none := by simp [emphasis?, other, other']
  rw [scan]
  simp only [beq_eq_false_iff_ne.2 plain.shows, plain.quiet, Bool.false_eq_true, if_false]
  split
  next label =>
    obtain rfl : u = Text.unit '<' := by simpa using label
    rw [plain.label rfl, none_ (by decide) (by decide)]
  split
  next mark =>
    obtain rfl : u = Text.unit '@' := by simpa using mark
    rw [plain.mark (.inl rfl), none_ (by decide) (by decide)]
  split
  next mark =>
    obtain rfl : u = Text.unit '#' := by simpa using mark
    rw [plain.mark (.inr rfl), none_ (by decide) (by decide)]
  · rfl

/-- The names of a draft are those of the items that a scan finds. -/
theorem Lexed.names_eq (h : Lexed d) (offset : Nat) (before : Option UInt16)
    (opened : List OpenSign) :
    (scan 0 offset before opened d.text).items.filterMap Name.ofItem? = d.names offset := by
  induction h generalizing offset before opened with
  | nil => rfl
  | last => rfl
  | comment starts =>
    rw [Draft.text_units, scan_comment starts, Draft.names_units]
    rfl
  | hidden u rest ih => exact ih (offset + 2) (some u) opened
  | label valid rest ih =>
    simp only [Draft.text_cons, Draft.text_unit, Draft.text_name, List.singleton_append,
      scan_label valid]
    simp [consItem, Name.ofItem?, markAt, Draft.names, ih, Nat.add_assoc, Int.add_assoc]
  | reference valid ends rest ih =>
    simp only [Draft.text_cons, Draft.text_unit, Draft.text_name, List.singleton_append,
      scan_mark (.inl rfl) valid ends, if_true]
    simp [consItem, Name.ofItem?, markAt, Draft.names, ih, Nat.add_assoc, Int.add_assoc]
  | use valid free ends rest ih =>
    have sign : Text.unit '#' ≠ Text.unit '@' := by decide
    simp only [Draft.text_cons, Draft.text_unit, Draft.text_name, List.singleton_append,
      scan_mark (.inr rfl) valid ends, if_neg sign, free, Bool.false_eq_true, if_false]
    simp [consItem, Name.ofItem?, markAt, Draft.names, ih, Nat.add_assoc, Int.add_assoc]
  | reserved valid reserved ends rest ih =>
    have sign : Text.unit '#' ≠ Text.unit '@' := by decide
    simp only [Draft.text_cons, Draft.text_unit, Draft.text_append, Draft.text_units,
      List.singleton_append, scan_mark (.inr rfl) valid ends, if_neg sign, reserved, if_true]
    simp [consError, Draft.names, ih, Nat.add_assoc]
  | plain plain rest ih =>
    rw [Draft.text_cons, Draft.text_unit, List.singleton_append, scan_plain plain]
    split <;> exact ih _ _ _

/-! ## Comments and labels -/

variable {more name' : Text}

theorem beforeComment_append (inside : ∀ u ∈ name, u ≠ backslash ∧ u ≠ Posix.slash) (rest : Text) :
    beforeComment 0 (name ++ rest) = name ++ beforeComment 0 rest := by
  induction name with
  | nil => rfl
  | cons u name ih =>
    obtain ⟨shows, quiet⟩ := inside u (by simp)
    have later := ih fun v mem => inside v (by simp [mem])
    simp [beforeComment, startsComment, shows, quiet, later]

theorem plain_of_isValid (valid : isValid name) : ∀ u ∈ name, u ≠ backslash ∧ u ≠ Posix.slash := by
  intro u mem
  have part := Identifier.isPart_of_isValid valid u mem
  constructor <;>
  · rintro rfl
    exact absurd part (by decide)

theorem inside_sign {sign : UInt16} (is : sign ≠ backslash ∧ sign ≠ Posix.slash)
    (valid : isValid name) :
    ∀ u ∈ sign :: name, u ≠ backslash ∧ u ≠ Posix.slash := by
  simp only [List.mem_cons]
  rintro u (rfl | mem)
  · exact is
  · exact plain_of_isValid valid u mem

theorem inside_label (valid : isValid name) :
    ∀ u ∈ Text.unit '<' :: (name ++ [Text.unit '>']), u ≠ backslash ∧ u ≠ Posix.slash := by
  simp only [List.mem_cons, List.mem_append, List.not_mem_nil, or_false]
  rintro u (rfl | mem | rfl)
  · decide
  · exact plain_of_isValid valid u mem
  · decide

theorem beforeComment_hidden (u : UInt16) (rest : Text) :
    beforeComment 0 (backslash :: u :: rest) = backslash :: u :: beforeComment 0 rest := by
  simp [beforeComment]

theorem beforeComment_plain (shows : u ≠ backslash) (rest : Text) : beforeComment 0 (u :: rest) =
    if startsComment u rest then [] else u :: beforeComment 0 rest := by
  simp [beforeComment, shows]

/-- Words without backslashes and slashes change places in front of a comment. -/
theorem beforeComment_exchange
    {w w' s s' : Text} (inside : ∀ u ∈ w, u ≠ backslash ∧ u ≠ Posix.slash)
    (inside' : ∀ u ∈ w', u ≠ backslash ∧ u ≠ Posix.slash)
    (later : beforeComment 0 (s ++ rest) = s ++ more → beforeComment 0 (s' ++ rest) = s' ++ more)
    (eq : beforeComment 0 (w ++ s ++ rest) = w ++ s ++ more) :
    beforeComment 0 (w' ++ s' ++ rest) = w' ++ s' ++ more := by
  rw [List.append_assoc, beforeComment_append inside, List.append_assoc] at eq
  rw [List.append_assoc, beforeComment_append inside', later (List.append_cancel_left eq),
    List.append_assoc]

/-- A comment behind a text is found again behind the text with other names. -/
theorem Lexed.beforeComment_rename (h : Lexed d)
    (eq : beforeComment 0 (d.text ++ rest) = d.text ++ more) (ρ : Renaming) :
    beforeComment 0 ((d.rename ρ).text ++ rest) = (d.rename ρ).text ++ more := by
  induction h with
  | nil => exact eq
  | last => simpa using eq
  | @comment u t starts =>
    obtain ⟨rfl, first⟩ : u = Posix.slash ∧ t.head? = some Posix.slash := by
      simpa [startsComment] using starts
    have starts : startsComment Posix.slash (t ++ rest) = true := by
      simp [startsComment, List.head?_append, first]
    rw [Draft.text_units, List.cons_append, beforeComment_plain (by decide), if_pos starts] at eq
    exact absurd eq (by simp)
  | hidden u lexed ih =>
    simp only [Draft.text_unit_cons, Draft.rename_cons, Draft.rename_unit, List.cons_append,
      beforeComment_hidden, List.cons.injEq, true_and] at eq ⊢
    exact ih eq
  | label valid lexed ih =>
    simpa using beforeComment_exchange (inside_label valid) (inside_label (ρ.valid .label valid)) ih
      (by simpa using eq)
  | reference valid ends lexed ih =>
    have sign : Text.unit '@' ≠ backslash ∧ Text.unit '@' ≠ Posix.slash := by decide
    simpa using beforeComment_exchange (inside_sign sign valid)
      (inside_sign sign (ρ.valid .label valid)) ih
      (by simpa using eq)
  | use valid free ends lexed ih =>
    have sign : Text.unit '#' ≠ backslash ∧ Text.unit '#' ≠ Posix.slash := by decide
    simpa using beforeComment_exchange (inside_sign sign valid)
      (inside_sign sign (ρ.valid .binding valid)) ih
      (by simpa using eq)
  | reserved valid reserved ends lexed ih =>
    have sign : Text.unit '#' ≠ backslash ∧ Text.unit '#' ≠ Posix.slash := by decide
    simpa using beforeComment_exchange (inside_sign sign valid) (inside_sign sign valid)
      ih (by simpa using eq)
  | @plain u d plain lexed ih =>
    simp only [Draft.text_unit_cons, Draft.rename_cons, Draft.rename_unit, List.cons_append,
      beforeComment_plain plain.shows] at eq ⊢
    split at eq
    next => simp at eq
    next quiet =>
      have same : startsComment u ((d.rename ρ).text ++ rest) =
          startsComment u (d.text ++ rest) := by
        simp only [startsComment, List.head?_append, (lexed.sameLead ρ).head?_eq]
      rw [same, if_neg quiet, ih (List.cons.inj eq).2]

theorem withoutLabels_skip (name rest : Text) :
    withoutLabels name.length (name ++ rest) = withoutLabels 0 rest := by
  induction name with
  | nil => rfl
  | cons u name ih => exact ih

theorem withoutLabels_cons (other : u ≠ Text.unit '<' ∨ labelName? rest = none) :
    withoutLabels 0 (u :: rest) = u :: withoutLabels 0 rest := by
  rw [withoutLabels]
  rcases other with ne | none
  · simp [ne]
  · simp [none]

theorem withoutLabels_label (valid : isValid name) (rest : Text) :
    withoutLabels 0 (Text.unit '<' :: (name ++ Text.unit '>' :: rest)) =
      Text.unit ' ' :: withoutLabels 0 rest := by
  have found : labelName? (name ++ Text.unit '>' :: rest) = some name :=
    labelName?_eq_some_iff.2 ⟨valid, rest, rfl⟩
  have skip := withoutLabels_skip (name ++ [Text.unit '>']) rest
  simp only [List.length_append, List.length_singleton, List.append_assoc,
    List.singleton_append] at skip
  rw [withoutLabels]
  simp [found, skip]

/-- Whether there is anything but labels does not depend on the names. -/
theorem Lexed.blank_withoutLabels_iff (h : Lexed d) (ρ : Renaming) :
    Text.Blank (withoutLabels 0 (d.rename ρ).text) ↔ Text.Blank (withoutLabels 0 d.text) := by
  have shown {u : UInt16} (is : Text.isBlank u = false ∧ u ≠ Text.unit '<') (s t : Text) :
      Text.Blank (withoutLabels 0 (u :: s)) ↔ Text.Blank (withoutLabels 0 (u :: t)) := by
    simp [withoutLabels_cons (.inl is.2), is.1]
  induction h with
  | nil => exact Iff.rfl
  | last | comment => rw [Draft.rename_units]
  | hidden | reference | use | reserved => exact shown (by decide) _ _
  | label valid lexed ih =>
    simp only [Draft.rename_cons, Draft.rename_unit, Draft.rename_name, Draft.text_unit_cons,
      Draft.text_name_cons, withoutLabels_label valid, withoutLabels_label (ρ.valid _ valid),
      Text.blank_cons, ih]
  | @plain u d plain lexed ih =>
    have none (rest : Text) (plain : Plain u rest) : u ≠ Text.unit '<' ∨ labelName? rest = none :=
      (em (u = Text.unit '<')).symm.imp_right plain.label
    simp only [Draft.rename_cons, Draft.rename_unit, Draft.text_unit_cons,
      withoutLabels_cons (none _ plain), withoutLabels_cons (none _ (lexed.plain_rename plain)),
      Text.blank_cons, ih]

end Inline

end Quill
