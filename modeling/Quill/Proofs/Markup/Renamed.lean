import Quill.Proofs.Data.Lists
import Quill.Proofs.Markup.Tokens

/-!
# Items and errors with other names

Where the names of symbols are replaced, the same items and errors are found, with the other names
and in other places.

## Main definitions

* `Item.Renamed`, `SyntaxError.Moved` — an item and an error, before and after.
* `Inline.Respelled` — scanned text, before and after.
* `Inline.Renamed` — what a scan finds, before and after.

## Main statements

* `Inline.Lexed.renamed_scan` — a scan finds the same tokens.
-/

namespace Quill

open List (Forall₂)
open Draft (units)

variable {ρ : Renaming} {R : Int → Int → Prop}

/-! ## Items and errors -/

/-- Both ends of a place have moved as `R` says. -/
def Span.Moved (R : Int → Int → Prop) (s s' : Span) : Prop := R s.start s'.start ∧ R s.stop s'.stop

/-- A mark whose name has become what `f` says. -/
structure Mark.Renamed (f : Text → Text) (R : Int → Int → Prop) (m m' : Mark) : Prop where
  name : m'.name = f m.name
  span : m.span.Moved R m'.span
  nameSpan : m.nameSpan.Moved R m'.nameSpan

/-- Scanned text, before and after: the names of its marks have become others. -/
def Inline.Respelled (ρ : Renaming) (t t' : Text) : Prop :=
  ∃ d, Lexed d ∧ d.text = t ∧ (d.rename ρ).text = t'

def Heading.titleOf (content : Text) : Text :=
  Text.trim (Text.collapseBlanks false (Inline.withoutLabels 0 content))

structure Heading.Renamed (ρ : Renaming) (R : Int → Int → Prop) (h h' : Heading) : Prop where
  level : h'.level = h.level
  title : ∃ c c', Inline.Respelled ρ c c' ∧ h.title = titleOf c ∧ h'.title = titleOf c'
  span : h.span.Moved R h'.span
  titleSpan : h.titleSpan.Moved R h'.titleSpan
  label : h'.label = h.label.map (ρ.apply .label)

structure Binding.Renamed (ρ : Renaming) (R : Int → Int → Prop) (b b' : Binding) : Prop where
  name : b'.name = ρ.apply .binding b.name
  value : Inline.Respelled ρ b.value b'.value
  span : b.span.Moved R b'.span
  nameSpan : b.nameSpan.Moved R b'.nameSpan
  valueSpan : b.valueSpan.Moved R b'.valueSpan

/-- An inclusion of the same document in another place. -/
structure Inclusion.Moved (R : Int → Int → Prop) (i i' : Inclusion) : Prop where
  specifier : i'.specifier = i.specifier
  target : i'.target = i.target
  span : i.span.Moved R i'.span
  pathSpan : i.pathSpan.Moved R i'.pathSpan

inductive Item.Renamed (ρ : Renaming) (R : Int → Int → Prop) : Item → Item → Prop
  | heading {h h' : Heading} (same : h.Renamed ρ R h') : Renamed ρ R (.heading h) (.heading h')
  | label {m m' : Mark} (same : m.Renamed (ρ.apply .label) R m') :
      Renamed ρ R (.label m) (.label m')
  | reference {m m' : Mark} (same : m.Renamed (ρ.apply .label) R m') :
    Renamed ρ R (.reference m) (.reference m')
  | binding {b b' : Binding} (same : b.Renamed ρ R b') : Renamed ρ R (.binding b) (.binding b')
  | use {m m' : Mark} (same : m.Renamed (ρ.apply .binding) R m') : Renamed ρ R (.use m) (.use m')
  | inclusion {i i' : Inclusion} (same : i.Moved R i') : Renamed ρ R (.inclusion i) (.inclusion i')

structure SyntaxError.Moved (R : Int → Int → Prop) (e e' : SyntaxError) : Prop where
  problem : e'.problem = e.problem
  span : e.span.Moved R e'.span

structure OpenSign.Moved (R : Int → Int → Prop) (s s' : OpenSign) : Prop where
  emphasis : s'.emphasis = s.emphasis
  start : R s.offset s'.offset
  stop : R (s.offset + 1) (s'.offset + 1)

/-! ## Scans -/

namespace Inline

variable {d : Draft} {o o' : Nat} {before before' : Option UInt16} {opened opened' : List OpenSign}
  {e : Emphasis} {r r' : Inline}

/-- What a scan finds, before and after. -/
structure Renamed (ρ : Renaming) (R : Int → Int → Prop) (r r' : Inline) : Prop where
  items : Forall₂ (Item.Renamed ρ R) r.items r'.items
  errors : Forall₂ (SyntaxError.Moved R) r.errors r'.errors
  opened : Forall₂ (OpenSign.Moved R) r.opened r'.opened

theorem Renamed.consItem {i i' : Item} (item : i.Renamed ρ R i') (h : Renamed ρ R r r') :
    Renamed ρ R (consItem i r) (consItem i' r') :=
  ⟨.cons item h.items, h.errors, h.opened⟩

theorem Renamed.consError {x x' : SyntaxError} (error : x.Moved R x') (h : Renamed ρ R r r') :
    Renamed ρ R (consError x r) (consError x' r') :=
  ⟨h.items, .cons error h.errors, h.opened⟩

theorem forall₂_toggle (h : Forall₂ (OpenSign.Moved R) opened opened')
    (sign : OpenSign.Moved R ⟨e, o⟩ ⟨e, o'⟩) :
    Forall₂ (OpenSign.Moved R) (toggle opened e o) (toggle opened' e o') := by
  have same (s s' : OpenSign) (h : s.Moved R s') : (s.emphasis == e) = (s'.emphasis == e) := by
    rw [h.emphasis]
  have closes : opened.any (·.emphasis == e) = opened'.any (·.emphasis == e) :=
    Related.any_eq h same
  unfold toggle
  rw [closes]
  split
  · exact List.rel_reverse (Related.eraseP (List.rel_reverse h) same)
  · exact List.rel_append h (.cons sign .nil)

theorem renamed_markAt {kind : NameKind} {name : Text} {closing : Nat}
    (sign : R o o') (start : R (o + 1 : Nat) (o' + 1 : Nat))
    (stop : R (o + 1 + name.length : Nat) (o' + 1 + (ρ.apply kind name).length : Nat))
    (close : R (o + 1 + name.length + closing : Nat)
      (o' + 1 + (ρ.apply kind name).length + closing : Nat)) :
    (markAt o name closing).Renamed (ρ.apply kind) R (markAt o' (ρ.apply kind name) closing) :=
  ⟨rfl, ⟨sign, close⟩, ⟨start, stop⟩⟩

theorem not_underscore {rest : Text} (ends : Ends rest) {P : Prop}
    (first : rest.head? = some (Text.unit '_')) : P :=
  absurd (ends _ first) (by decide)

/-- With other names a scan finds the same tokens. Of the unit before the text it may only take
notice when that is the same. -/
theorem Lexed.renamed_scan (h : Lexed d) (follows : d.Follows ρ R o o')
    (signs : Forall₂ (OpenSign.Moved R) opened opened')
    (word : d.text.head? = some (Text.unit '_') →
      before.any Identifier.isWord = before'.any Identifier.isWord) :
    Renamed ρ R (scan 0 o before opened d.text) (scan 0 o' before' opened' (d.rename ρ).text) := by
  induction h generalizing o o' before before' opened opened' with
  | nil => exact ⟨.nil, .nil, signs⟩
  | last => exact ⟨.nil, .nil, signs⟩
  | comment starts =>
    rw [Draft.rename_units, Draft.text_units, scan_comment starts, scan_comment starts]
    exact ⟨.nil, .nil, signs⟩
  | hidden u lexed ih =>
    obtain ⟨-, -, follows⟩ := follows
    exact ih follows signs fun _ => rfl
  | label valid lexed ih =>
    obtain ⟨sign, start, stop, follows⟩ := follows
    simp only [Draft.rename_cons, Draft.rename_unit, Draft.rename_name, Draft.text_unit_cons,
      Draft.text_name_cons, scan_label valid, scan_label (ρ.valid _ valid)]
    exact .consItem (.label (renamed_markAt sign start stop follows.start))
      (ih (by simpa [Nat.add_assoc] using follows) signs fun _ => rfl)
  | reference valid ends lexed ih =>
    obtain ⟨sign, start, follows⟩ := follows
    simp only [Draft.rename_cons, Draft.rename_unit, Draft.rename_name, Draft.text_unit_cons,
      Draft.text_name_cons, scan_mark (.inl rfl) valid ends,
      scan_mark (.inl rfl) (ρ.valid _ valid) (lexed.ends_rename ends), if_true]
    exact .consItem (.reference (renamed_markAt sign start follows.start follows.start))
      (ih (by simpa [Nat.add_assoc] using follows) signs (not_underscore ends))
  | use valid free ends lexed ih =>
    obtain ⟨sign, start, follows⟩ := follows
    have other : Text.unit '#' ≠ Text.unit '@' := by decide
    simp only [Draft.rename_cons, Draft.rename_unit, Draft.rename_name, Draft.text_unit_cons,
      Draft.text_name_cons, scan_mark (.inr rfl) valid ends, if_neg other, free, ρ.free free,
      scan_mark (.inr rfl) (ρ.valid _ valid) (lexed.ends_rename ends), Bool.false_eq_true, if_false]
    exact .consItem (.use (renamed_markAt sign start follows.start follows.start))
      (ih (by simpa [Nat.add_assoc] using follows) signs (not_underscore ends))
  | @reserved name d valid reserved ends lexed ih =>
    obtain ⟨sign, follows⟩ := follows
    have other : Text.unit '#' ≠ Text.unit '@' := by decide
    have renamed : Draft.rename ρ (units name ++ d) = units name ++ Draft.rename ρ d := by simp
    rw [Draft.rename_cons, Draft.rename_unit, renamed]
    simp only [Draft.text_unit_cons, Draft.text_append, Draft.text_units,
      scan_mark (.inr rfl) valid ends, if_neg other, reserved, if_true,
      scan_mark (.inr rfl) valid (lexed.ends_rename ends)]
    have behind := follows.right
    simp only [Draft.rename_units, Draft.text_units] at behind
    exact .consError ⟨rfl, sign, behind.start⟩
      (ih (by simpa [Nat.add_assoc] using behind) signs (not_underscore ends))
  | @plain u d plain lexed ih =>
    obtain ⟨start, follows⟩ := follows
    have same : emphasis? before u d.text = emphasis? before' u (d.rename ρ).text := by
      rw [emphasis?, emphasis?, (lexed.sameLead ρ).head?_eq]
      by_cases underscore : u = Text.unit '_'
      · rw [word (by simp [underscore])]
      · simp [underscore]
    rw [Draft.rename_cons, Draft.rename_unit, Draft.text_unit_cons, Draft.text_unit_cons,
      scan_plain plain, scan_plain (lexed.plain_rename plain), ← same]
    split
    · exact ih follows (forall₂_toggle signs ⟨rfl, start, follows.start⟩) fun _ => rfl
    · exact ih follows signs fun _ => rfl

theorem Lexed.renamed_scan_start (h : Lexed d) (follows : d.Follows ρ R o o') :
    Renamed ρ R (scan 0 o none [] d.text) (scan 0 o' none [] (d.rename ρ).text) :=
  h.renamed_scan follows .nil fun _ => rfl

end Inline

end Quill
