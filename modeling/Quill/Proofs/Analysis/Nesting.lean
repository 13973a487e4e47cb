import Quill.Proofs.Analysis.Outline
import Quill.Proofs.Flow.Computed
import Quill.Proofs.Markup.Rows
import Quill.Proofs.Text.RoundTrip

/-!
# How the symbols of an outline are nested

A section runs up to the next heading that is not deeper, less the blanks at its end. What is in it
is inside of it, but for places that reach into those blanks: an empty title, and a binding without
a value.

## Main definitions

* `Range.Within` — one range lies in another.
* `DocumentSymbol.Nested` — what is selected of a symbol and what is under it are inside of it, and
  headings are apart.
* `Text.BlankBetween` — offsets with nothing but blanks between them.
* `Outline.Overhangs` — a title, or a binding directly under its heading, that reaches into the
  blanks at the end of the section.

## Main statements

* `Outline.le_sectionEnd_iff` — what a section reaches.
* `Outline.nested_ofModule_iff` — the symbols of a document are nested unless something overhangs.
* `Outline.answer_documentSymbols` — the same of the answer.
-/

namespace Quill

def Range.Within (a b : Range) : Prop := b.start.le a.start ∧ a.stop.le b.stop

/-- What is selected of a symbol and what is under it lies in its range, and headings beside each
other are apart, here and everywhere below. -/
inductive DocumentSymbol.Nested : List DocumentSymbol → Prop
  | nil : Nested []
  | cons {s : DocumentSymbol} {behind : List DocumentSymbol}
    (selected : s.selectionRange.Within s.range)
      (around : ∀ c ∈ s.children, c.range.Within s.range)
      (apart : s.kind = .heading → ∀ s' ∈ behind, s'.kind = .heading →
        s.range.stop.le s'.range.start)
      (children : Nested s.children) (others : Nested behind) : Nested (s :: behind)

/-- There is nothing but blanks between two offsets. -/
def Text.BlankBetween (t : Text) (a b : Int) : Prop :=
  ∀ k : Nat, a ≤ k → k < b → ∀ u ∈ t[k]?, isBlank u = true

variable {t : Text} {o a a' b b' : Int} {h : Heading} {stop p : Int}

namespace Text

theorem take_append_slice_append_drop {i j : Nat} (le : i ≤ j) (t : Text) :
    t.take i ++ (t.slice i j ++ t.drop j) = t := by
  have behind : t.drop j = (t.drop i).drop (j - i) := by rw [List.drop_drop, Nat.add_sub_cancel' le]
  rw [slice, behind, List.take_append_drop, List.take_append_drop]

theorem BlankBetween.mono (blank : t.BlankBetween a b) (le : a ≤ a') (le' : b' ≤ b) :
    t.BlankBetween a' b' :=
  fun k after before => blank k (Int.le_trans le after) (Int.lt_of_lt_of_le before le')

theorem SolidBefore.not_blankBetween (solid : t.SolidBefore o) (lt : a < o) (le : o ≤ b) :
    ¬ t.BlankBetween a b := by
  obtain ⟨front, u, behind, rfl, seen, rfl⟩ := solid
  intro blank
  have := blank front.length (by omega) (by omega) u (by simp)
  simp [seen] at this

end Text

theorem Mark.WrittenAs.inside {m : Mark} {sign : UInt16}
    {closing : Text} (as : m.WrittenAs sign closing t) :
    m.nameSpan.Inside m.span.start m.span.stop := by
  obtain ⟨o, -, span⟩ := as.span
  obtain ⟨o', -, name⟩ := as.nameSpan
  have start := as.start
  rw [span, name] at start ⊢
  refine ⟨?_, ?_, ?_⟩ <;>
    · simp only [List.length_cons, List.length_append] at *
      omega

/-- A label ends with a sign. -/
theorem Mark.WrittenAs.solidBefore {m : Mark} {sign u : UInt16} (as : m.WrittenAs sign [u] t)
    (seen : Text.isBlank u = false) : t.SolidBefore m.span.stop := by
  obtain ⟨o, stands, span⟩ := as.span
  rw [span]
  refine stands.solidBefore (by simp) fun v last => ?_
  rw [← List.cons_append, List.getLast?_concat] at last
  exact Option.some.inj last ▸ seen

/-! ## What overhangs -/

namespace Outline

def sectionStop (stop : Int) (level : Nat) (behind : List Item) : Int :=
  ((behind.find? fun i => i.heading?.any (·.level ≤ level)).map (·.span.start)).getD stop

def bindingsAhead (items : List Item) : List Binding :=
  (items.takeWhile fun i => i.heading?.isNone).filterMap Item.binding?

/-- Some title, or some binding directly under a heading, reaches into the blanks at the end of its
section: the unit in front of its end is a blank, and so is all that the section may take behind
it. -/
inductive Overhangs (t : Text) (stop : Int) : List Item → Prop
  | title {h : Heading} {behind : List Item}
      (blank : t.BlankBetween (h.titleSpan.stop - 1) (sectionStop stop h.level behind)) :
      Overhangs t stop (.heading h :: behind)
  | binding {h : Heading} {behind : List Item} {b : Binding} (under : b ∈ bindingsAhead behind)
      (blank : t.BlankBetween (b.span.stop - 1) (sectionStop stop h.level behind)) :
      Overhangs t stop (.heading h :: behind)
  | later {i : Item} {behind : List Item} (overhangs : Overhangs t stop behind) :
      Overhangs t stop (i :: behind)

end Outline

/-! ## Where a section ends -/

theorem Heading.Placed.nonneg (placed : h.Placed t 0 b) : 0 ≤ h.span.stop :=
  Int.le_trans placed.inside.start placed.inside.ordered

namespace Outline

/-- A section is cut off behind the last unit of its text that can be seen. -/
theorem exists_sectionEnd (nonneg : 0 ≤ h.span.stop) (le : h.span.stop ≤ stop)
    (inText : stop ≤ t.length) :
    ∃ front seen tail behind :
    Text, t = front ++ (seen ++ (tail ++ behind)) ∧ h.span.stop = front.length ∧
      stop = (front.length + seen.length + tail.length : Nat) ∧
      sectionEnd t h stop = (front.length + seen.length : Nat) ∧
      (∀ u ∈ seen.getLast?, Text.isBlank u = false) ∧ Text.Blank tail := by
  obtain ⟨i, first⟩ := Int.eq_ofNat_of_zero_le nonneg
  obtain ⟨j, rfl⟩ := Int.eq_ofNat_of_zero_le (Int.le_trans nonneg le)
  have ordered : i ≤ j := by omega
  have inText : j ≤ t.length := by omega
  have length := Text.length_slice t i j
  obtain ⟨tail, eq, blank⟩ := Text.exists_trimEnd_append (t.slice i j)
  have parts := congrArg List.length eq
  have before : (t.take i).length = i := by rw [List.length_take]; omega
  rw [List.length_append] at parts
  refine ⟨t.take i, Text.trimEnd (t.slice i j), tail, t.drop j,
    ?_, by rw [before, first], by omega, ?_,
    Text.trimEnd_eq_self_iff.1 (Text.trimEnd_trimEnd _), fun u mem =>
      List.all_eq_true.1 blank u mem⟩
  · rw [← List.append_assoc (Text.trimEnd _), ← eq, Text.take_append_slice_append_drop ordered]
  · simp only [sectionEnd, first, Int.toNat_natCast]
    split <;> omega

/-- A section does not end before its heading, nor behind the text that it may take. -/
theorem sectionEnd_inside (placed : h.Placed t 0 t.length) (le : h.span.stop ≤ stop)
    (inText : stop ≤ t.length) :
    h.span.stop ≤ sectionEnd t h stop ∧ sectionEnd t h stop ≤ stop := by
  obtain ⟨front, seen, tail, behind, -, first, rfl, eq, -, -⟩ :=
    exists_sectionEnd placed.nonneg le inText
  rw [eq, first]
  omega

theorem solidBefore_sectionEnd (placed : h.Placed t 0 t.length) (le : h.span.stop ≤ stop)
    (inText : stop ≤ t.length) :
    t.SolidBefore (sectionEnd t h stop) := by
  obtain ⟨front, seen, tail, behind, cut, first, -, eq, last, -⟩ :=
    exists_sectionEnd placed.nonneg le inText
  rw [eq]
  by_cases none_ : seen = []
  · subst none_
    rw [List.length_nil, Nat.add_zero, ← first]
    exact placed.solid
  · have stands : t.StandsAt front.length seen := ⟨front, tail ++ behind, cut, rfl⟩
    exact stands.solidBefore none_ last

theorem blankBetween_sectionEnd (placed : h.Placed t 0 t.length) (le : h.span.stop ≤ stop)
    (inText : stop ≤ t.length) : t.BlankBetween (sectionEnd t h stop) stop := by
  obtain ⟨front, seen, tail, behind, cut, -, rfl, eq, -, blank⟩ :=
    exists_sectionEnd placed.nonneg le inText
  intro k after before u there
  rw [cut, ← List.append_assoc, List.getElem?_append_right (by simp; omega),
    List.getElem?_append_left (by simp; omega)] at there
  exact blank u (List.mem_of_getElem? there)

theorem le_sectionEnd_iff (placed : h.Placed t 0 t.length) (le : h.span.stop ≤ stop)
    (inText : stop ≤ t.length) :
    p ≤ sectionEnd t h stop ↔ ¬ t.BlankBetween (p - 1) stop := by
  constructor
  · intro reached
    have solid := solidBefore_sectionEnd placed le inText
    exact fun blank =>
      solid.not_blankBetween (by omega) (sectionEnd_inside placed le inText).2 blank
  · intro seen
    by_contra behind
    exact seen ((blankBetween_sectionEnd placed le inText).mono (by omega) (Int.le_refl _))

/-! ## Items in the order of their text -/

structure Laid (t : Text) (stop : Int) (items : List Item) : Prop where
  sorted : items.Pairwise Row.Precedes
  onLine : ∀ i ∈ items, ∃ row, Row t 0 t.length row ∧ i ∈ row
  written : ∀ i ∈ items, i.Written t
  before : ∀ i ∈ items, i.span.stop ≤ stop ∧ i.hitSpan.stop ≤ stop
  inText : stop ≤ t.length

theorem laid_read (uri : Uri) (t : Text) : Laid t t.length (Module.read uri t).items where
  sorted := Module.pairwise_items uri t
  onLine _ mem := Module.exists_row_of_mem mem
  written _ := Module.written_of_mem_items
  before i mem := by
    obtain ⟨row, of_text, own⟩ := Module.exists_row_of_mem mem
    exact ⟨(of_text.inside i own).1.stop, (of_text.inside i own).2.stop⟩
  inText := Int.le_refl _

namespace Laid

variable {items inner outer : List Item} {i : Item} {level : Nat}

theorem inside (laid : Laid t stop items) (mem : i ∈ items) : i.span.Inside 0 t.length := by
  obtain ⟨row, of_text, own⟩ := laid.onLine i mem
  exact (of_text.inside i own).1

theorem heading_placed (laid : Laid t stop items) (mem : .heading h ∈ items) :
    h.Placed t 0 t.length := by
  obtain ⟨row, of_text, own⟩ := laid.onLine _ mem
  exact of_text.heading_placed own

theorem binding_placed {b : Binding} (laid : Laid t stop items) (mem : .binding b ∈ items) :
    b.Placed 0 t.length := by
  obtain ⟨row, of_text, own⟩ := laid.onLine _ mem
  exact of_text.binding_placed own

theorem sublist (laid : Laid t stop items) (sub : inner.Sublist items) : Laid t stop inner where
  sorted := laid.sorted.sublist sub
  onLine i mem := laid.onLine i (sub.mem mem)
  written i mem := laid.written i (sub.mem mem)
  before i mem := laid.before i (sub.mem mem)
  inText := laid.inText

theorem front (laid : Laid t stop (inner ++ outer)) (ends : Ends level outer) :
    Laid t (stopAt stop outer) inner ∧ stopAt stop outer ≤ stop := by
  have own := laid.sublist (List.sublist_append_left inner outer)
  cases outer with
  | nil => exact ⟨own, Int.le_refl _⟩
  | cons i behind =>
    obtain ⟨g, rfl, -⟩ := ends i rfl
    have inside := laid.inside (i := .heading g) (by simp)
    have le := (laid.before (.heading g) (by simp)).1
    have ordered := inside.ordered
    have inText := inside.stop
    refine ⟨{ own with before := fun i mem => ?_, inText := ?_ }, ?_⟩
    · have ahead := ((List.pairwise_append.1 laid.sorted).2.2 i mem (.heading g) (by simp)).heading
          rfl
      exact ⟨Int.le_of_lt ahead.1, Int.le_of_lt ahead.2⟩
    · exact Int.le_trans ordered inText
    · exact Int.le_trans ordered le

end Laid

/-! ## Ranges of symbols -/

variable {current : Option Heading} {items inner outer behind : List Item} {i : Item} {level : Nat}
  {symbols : List DocumentSymbol} {s : DocumentSymbol}

theorem rangeOf_within_iff {s s' : Span} (inside : s.Inside 0 t.length)
    (inside' : s'.Inside 0 t.length) :
    ((LineTable.ofText t).rangeOf s).Within ((LineTable.ofText t).rangeOf s') ↔
      s'.start ≤ s.start ∧ s.stop ≤ s'.stop := by
  have first := Int.le_trans inside'.ordered inside'.stop
  have last := Int.le_trans inside'.start inside'.ordered
  exact and_congr (LineTable.positionAt_le_iff inside.start first)
    (LineTable.positionAt_le_iff last inside.stop)

/-- A leaf covers its item, and there is nothing under it. -/
theorem leaf?_shape {lines : LineTable} (leaf : leaf? lines current i = some s) :
    s.kind ≠ .heading ∧ s.children = [] ∧ s.range = lines.rangeOf i.span := by
  cases i with
  | label m =>
    simp only [leaf?] at leaf
    split at leaf
    · simp at leaf
    · obtain rfl := Option.some.inj leaf
      exact ⟨by simp [DocumentSymbol.kind], rfl, rfl⟩
  | binding b =>
    obtain rfl := Option.some.inj leaf
    exact ⟨by simp [DocumentSymbol.kind], rfl, rfl⟩
  | heading h | reference m | use m | inclusion i => simp [leaf?] at leaf

theorem leaf?_selected (laid : Laid t stop items) (mem : i ∈ items)
    (leaf : leaf? (LineTable.ofText t) current i = some s) : s.selectionRange.Within s.range := by
  have selected {name : Span} (inside : name.Inside i.span.start i.span.stop) :
      ((LineTable.ofText t).rangeOf name).Within ((LineTable.ofText t).rangeOf i.span) := by
    have whole := laid.inside mem
    exact (rangeOf_within_iff (inside.mono whole.start whole.stop) whole).2
      ⟨inside.start, inside.stop⟩
  cases i with
  | label m =>
    simp only [leaf?] at leaf
    split at leaf
    · simp at leaf
    · obtain rfl := Option.some.inj leaf
      exact selected (Mark.WrittenAs.inside (laid.written _ mem))
  | binding b =>
    obtain rfl := Option.some.inj leaf
    have placed := laid.binding_placed mem
    refine selected (placed.name.mono (Int.le_refl _) ?_)
    exact Int.le_trans (Int.sub_le_self _ (by decide))
      (Int.le_trans placed.value.ordered placed.value.stop)
  | heading h | reference m | use m | inclusion i => simp [leaf?] at leaf

/-! ## Overhanging items section by section -/

theorem overhangs_cons_iff (plain : i.heading? = none) :
    Overhangs t stop (i :: behind) ↔ Overhangs t stop behind := by
  refine ⟨fun overhangs => ?_, .later⟩
  cases overhangs with
  | title | binding => simp [Item.heading?] at plain
  | later overhangs => exact overhangs

theorem overhangs_heading_iff : Overhangs t stop (.heading h :: behind) ↔
    t.BlankBetween (h.titleSpan.stop - 1) (sectionStop stop h.level behind) ∨
      (∃ b ∈ bindingsAhead behind,
        t.BlankBetween (b.span.stop - 1) (sectionStop stop h.level behind)) ∨
      Overhangs t stop behind := by
  constructor
  · intro overhangs
    cases overhangs with
    | title blank => exact .inl blank
    | binding under blank => exact .inr (.inl ⟨_, under, blank⟩)
    | later overhangs => exact .inr (.inr overhangs)
  · rintro (blank | ⟨b, under, blank⟩ | overhangs)
    · exact .title blank
    · exact .binding under blank
    · exact .later overhangs

theorem sectionStop_append (ends : Ends level outer) (stop : Int) (inner : List Item) :
    sectionStop stop level (inner ++ outer) = sectionStop (stopAt stop outer) level inner := by
  rw [sectionStop, sectionStop, List.find?_append]
  cases inner.find? fun i => i.heading?.any (·.level ≤ level) with
  | some i => rfl
  | none =>
    cases outer with
    | nil => rfl
    | cons i behind =>
      obtain ⟨g, rfl, le⟩ := ends i rfl
      simp [stopAt, Item.heading?, le]

theorem sectionStop_of_deeper (deeper : ∀ g, .heading g ∈ inner → level < g.level) (stop : Int) :
    sectionStop stop level inner = stop := by
  have none_ : (inner.find? fun i => i.heading?.any (·.level ≤ level)) = none := by
    refine List.find?_eq_none.2 fun i mem => ?_
    cases i with
    | heading g => simpa [Item.heading?] using deeper g mem
    | label m | reference m | binding b | use m | inclusion i => simp [Item.heading?]
  rw [sectionStop, none_]
  rfl

theorem bindingsAhead_cons (plain : i.heading? = none) (behind : List Item) :
    bindingsAhead (i :: behind) = i.binding?.toList ++ bindingsAhead behind := by
  simp only [bindingsAhead, List.takeWhile_cons, plain, Option.isNone_none, if_true,
    List.filterMap_cons]
  cases i.binding? <;> rfl

@[simp] theorem bindingsAhead_heading (h : Heading) (behind : List Item) :
    bindingsAhead (.heading h :: behind) = [] := rfl

theorem bindingsAhead_of_ends (ends : Ends level outer) : bindingsAhead outer = [] := by
  cases outer with
  | nil => rfl
  | cons i behind =>
    obtain ⟨g, rfl, -⟩ := ends i rfl
    rfl

theorem bindingsAhead_append (ends : Ends level outer) (inner : List Item) :
    bindingsAhead (inner ++ outer) = bindingsAhead inner := by
  induction inner using headings_induction with
  | nil => exact bindingsAhead_of_ends ends
  | plain i behind plain ih =>
    rw [List.cons_append, bindingsAhead_cons plain, bindingsAhead_cons plain, ih]
  | heading h behind => rfl

theorem Ends.mono {level' : Nat} (ends : Ends level outer) (le : level ≤ level') :
    Ends level' outer := fun i first =>
  have ⟨g, eq, le'⟩ := ends i first
  ⟨g, eq, Nat.le_trans le' le⟩

theorem overhangs_append_iff (ends : Ends level outer)
    (deeper : ∀ g, .heading g ∈ inner → level < g.level) :
    Overhangs t stop (inner ++ outer) ↔ Overhangs t (stopAt stop outer) inner ∨
    Overhangs t stop outer := by
  induction inner using headings_induction with
  | nil => simp only [List.nil_append, iff_or_self]; nofun
  | plain i behind plain ih =>
    have ih := ih fun g mem => deeper g (by simp [mem])
    rw [List.cons_append, overhangs_cons_iff plain, overhangs_cons_iff plain, ih]
  | heading h behind ih =>
    have ih := ih fun g mem => deeper g (by simp [mem])
    have ends := ends.mono (Nat.le_of_lt (deeper h (by simp)))
    rw [List.cons_append, overhangs_heading_iff, overhangs_heading_iff, ih, sectionStop_append ends,
      bindingsAhead_append ends, or_assoc, or_assoc]

/-! ## Nested symbols -/

theorem nested_cons_iff : DocumentSymbol.Nested (s :: symbols) ↔ s.selectionRange.Within s.range ∧
    (∀ c ∈ s.children, c.range.Within s.range) ∧
    (s.kind = .heading → ∀ s' ∈ symbols, s'.kind = .heading → s.range.stop.le s'.range.start) ∧
    DocumentSymbol.Nested s.children ∧ DocumentSymbol.Nested symbols := by
  constructor
  · rintro ⟨⟩
    exact ⟨‹_›, ‹_›, ‹_›, ‹_›, ‹_›⟩
  · rintro ⟨selected, around, apart, children, others⟩
    exact .cons selected around apart children others

theorem Outlined.exists_item
    {lines : LineTable} (outlined : Outlined t lines current stop items symbols)
    (mem : s ∈ symbols) : ∃ i ∈ items, s.range.start = lines.positionAt i.span.start := by
  induction outlined with
  | nil => simp at mem
  | @item current stop i behind symbols plain outlined ih =>
    rcases List.mem_append.1 mem with own | others
    · obtain ⟨-, -, range⟩ := leaf?_shape (Option.mem_toList.1 own)
      exact ⟨i, by simp, by rw [range]; rfl⟩
    · obtain ⟨j, inside, eq⟩ := ih others
      exact ⟨j, by simp [inside], eq⟩
  | @heading current stop h inner children current' outer symbols deeper ends inside
    outlined ih ih' =>
    rcases List.mem_cons.1 mem with rfl | others
    · exact ⟨.heading h, by simp, rfl⟩
    · obtain ⟨j, inside, eq⟩ := ih' others
      exact ⟨j, by simp [inside], eq⟩

/-- A section ends in front of the headings behind it. -/
theorem Outlined.stop_le (outlined : Outlined t (LineTable.ofText t) current stop outer symbols)
    (laid : Laid t stop outer) (ends : Ends level outer) (mem : s ∈ symbols)
    (le : p ≤ stopAt stop outer) :
    ((LineTable.ofText t).positionAt p).le s.range.start := by
  obtain ⟨i, inside, eq⟩ := outlined.exists_item mem
  rw [eq]
  refine LineTable.positionAt_le (Int.le_trans le ?_) _
  cases outer with
  | nil => simp at inside
  | cons j behind =>
    rcases List.mem_cons.1 inside with rfl | later
    · exact Int.le_refl _
    · exact ((List.pairwise_cons.1 laid.sorted).1 i later).start_le

/-- Of what begins in a section it holds all that does not reach into the blanks at its end. -/
theorem within_section_iff {place : Span} (placed : h.Placed t 0 t.length) (le : h.span.stop ≤ stop)
    (inText : stop ≤ t.length) (inside : place.Inside 0 t.length)
    (first : h.span.start ≤ place.start) :
    ((LineTable.ofText t).rangeOf place).Within
        ((LineTable.ofText t).rangeOf ⟨h.span.start, sectionEnd t h stop⟩) ↔
      ¬ t.BlankBetween (place.stop - 1) stop := by
  obtain ⟨reaches, within_⟩ := sectionEnd_inside placed le inText
  have ordered := Int.le_trans placed.inside.ordered reaches
  rw [rangeOf_within_iff inside (.of_le placed.inside.start ordered (Int.le_trans within_ inText)),
    ← le_sectionEnd_iff placed le inText]
  exact and_iff_right first

theorem leaf?_within_iff (laid : Laid t stop items) (mem : i ∈ items)
    (placed : h.Placed t 0 t.length)
    (le : h.span.stop ≤ stop) (first : h.span.start ≤ i.span.start) :
    (∀ c ∈ (leaf? (LineTable.ofText t) current i).toList,
        c.range.Within ((LineTable.ofText t).rangeOf ⟨h.span.start, sectionEnd t h stop⟩)) ↔
      ∀ b ∈ i.binding?.toList, ¬ t.BlankBetween (b.span.stop - 1) stop := by
  have reached := within_section_iff placed le laid.inText (laid.inside mem) first
  cases i with
  | binding b =>
    simp only [leaf?, Item.binding?, Option.toList_some, List.forall_mem_singleton]
    exact reached
  | label m =>
    have as : m.WrittenAs (Text.unit '<') [Text.unit '>'] t := laid.written _ mem
    have seen : ¬ t.BlankBetween (m.span.stop - 1) stop :=
      (as.solidBefore (by decide)).not_blankBetween (by omega) (laid.before _ mem).1
    refine iff_of_true (fun c leaf => ?_) (by simp [Item.binding?])
    obtain ⟨-, -, range⟩ := leaf?_shape (Option.mem_toList.1 leaf)
    exact range ▸ reached.2 seen
  | heading h | reference m | use m | inclusion i => simp [leaf?, Item.binding?]

/-- A section holds the symbols of its items unless a binding reaches into the blanks at its end. -/
theorem Outlined.within_iff (outlined : Outlined t (LineTable.ofText t) current stop items symbols)
    (laid : Laid t stop items) (placed : h.Placed t 0 t.length) (le : h.span.stop ≤ stop)
    (first : ∀ i ∈ items, h.span.start ≤ i.span.start) :
    (∀ c ∈ symbols, c.range.Within
      ((LineTable.ofText t).rangeOf ⟨h.span.start, sectionEnd t h stop⟩)) ↔
      ∀ b ∈ bindingsAhead items, ¬ t.BlankBetween (b.span.stop - 1) stop := by
  induction outlined with
  | nil => simp [bindingsAhead]
  | @item current stop i behind symbols plain outlined ih =>
    have ih := ih (laid.sublist (List.sublist_cons_self ..)) le fun j mem => first j (by simp [mem])
    rw [bindingsAhead_cons plain, List.forall_mem_append, List.forall_mem_append, ih]
    exact and_congr (leaf?_within_iff laid List.mem_cons_self placed le
      (first i List.mem_cons_self)) Iff.rfl
  | @heading current stop g inner children current' outer symbols deeper ends inside
    outlined ih ih' =>
    have ih' := ih' (laid.sublist
        ((List.sublist_append_right ..).trans (List.sublist_cons_self ..))) le
      fun j mem => first j (by simp [mem])
    rw [List.forall_mem_cons, ih', bindingsAhead_of_ends ends, bindingsAhead_heading]
    have whole : Laid t stop ((.heading g :: inner) ++ outer) := laid
    obtain ⟨own, shorter⟩ := whole.front ends
    have under := own.heading_placed (h := g) (by simp)
    have behind := (own.before (.heading g) List.mem_cons_self).1
    obtain ⟨reaches, within_⟩ := sectionEnd_inside under behind own.inText
    have place : Span.Inside 0 t.length ⟨g.span.start, sectionEnd t g (stopAt stop outer)⟩ :=
      .of_le under.inside.start (Int.le_trans under.inside.ordered reaches)
        (Int.le_trans within_ own.inText)
    have seen : ¬ t.BlankBetween (sectionEnd t g (stopAt stop outer) - 1) stop :=
      (solidBefore_sectionEnd under behind own.inText).not_blankBetween (by omega)
      (Int.le_trans within_ shorter)
    exact iff_of_true
      ⟨(within_section_iff placed le laid.inText place (first (.heading g) (by simp))).2
        seen, by simp⟩ (by simp)

theorem Outlined.nested_iff (outlined : Outlined t (LineTable.ofText t) current stop items symbols)
    (laid : Laid t stop items) : DocumentSymbol.Nested symbols ↔ ¬ Overhangs t stop items := by
  induction outlined with
  | nil => exact iff_of_true .nil nofun
  | @item current stop i behind symbols plain outlined ih =>
    rw [overhangs_cons_iff plain, ← ih (laid.sublist (List.sublist_cons_self ..))]
    cases leaf : leaf? (LineTable.ofText t) current i with
    | none => rfl
    | some s =>
      obtain ⟨kind, children, -⟩ := leaf?_shape leaf
      rw [Option.toList_some, List.singleton_append, nested_cons_iff, children]
      simp [kind, leaf?_selected laid List.mem_cons_self leaf, DocumentSymbol.Nested.nil]
  | @heading current stop h inner children current' outer symbols deeper ends inside
    outlined ih ih' =>
    have whole : Laid t stop ((.heading h :: inner) ++ outer) := laid
    obtain ⟨own, -⟩ := whole.front ends
    have placed := own.heading_placed (h := h) (by simp)
    have le := (own.before (.heading h) List.mem_cons_self).1
    have first (i : Item) (mem : i ∈ inner) : h.span.start ≤ i.span.start :=
      ((List.pairwise_cons.1 own.sorted).1 i mem).start_le
    have own' := own.sublist (List.sublist_cons_self ..)
    have laid' := laid.sublist ((List.sublist_append_right ..).trans (List.sublist_cons_self ..))
    have title : h.titleSpan.Inside 0 t.length :=
      placed.title.mono (Int.le_trans placed.inside.start (by omega)) (Int.le_refl _)
    have selected := within_section_iff placed le own.inText title
        (by have := placed.title.start; omega)
    have around := inside.within_iff own' placed le first
    have apart (s : DocumentSymbol) (mem : s ∈ symbols) :=
      outlined.stop_le laid' ends mem (sectionEnd_inside placed le own.inText).2
    rw [overhangs_heading_iff, sectionStop_append ends, sectionStop_of_deeper deeper,
      bindingsAhead_append ends,
      overhangs_append_iff ends deeper, nested_cons_iff, not_or, not_or, not_or]
    simp only [not_exists, not_and]
    refine and_congr selected (and_congr around ?_)
    exact (and_iff_right fun _ s mem _ => apart s mem).trans (and_congr (ih own') (ih' laid'))

theorem nested_ofModule_iff (uri : Uri) (t : Text) :
    DocumentSymbol.Nested (ofModule t (Module.read uri t)) ↔
    ¬ Overhangs t t.length (Module.read uri t).items :=
  (outlined_ofModule t (Module.read uri t)).nested_iff (laid_read uri t)

/-! ## The answer -/

theorem yields_documentSymbols {s : Snapshot} {doc : SnapshotDocument} (filed : s.Filed)
    (entry : s.entryDocument? = some doc) (uri : Uri) :
    Flow.Yields (.computed .quill) (Question.documentSymbols.answer s uri)
      (.ok (.documentSymbols (ofModule doc.text (Module.read doc.uri doc.text)))) := by
  have own : s.document? doc.uri = some doc := by
    obtain ⟨uri', -, found⟩ := Option.bind_eq_some_iff.1 entry
    rwa [filed.uri_eq found]
  refine Flow.Yields.call (Flow.yields_memo (.answer _) ?_ rfl)
  refine Flow.Yields.bind (Flow.Yields.bind (Flow.yields_entry entry _) ?_) (Flow.yields_done _ _)
  exact (Flow.yields_parse own).call.bind (Flow.yields_done _ _)

/-- The symbols of the entry are nested unless something in it overhangs. -/
theorem answer_documentSymbols (s : Snapshot) (uri : Uri) (doc : SnapshotDocument) (filed : s.Filed)
    (entry : s.entryDocument? = some doc) : ∃ symbols,
    Flow.Yields (.computed .quill) (Question.documentSymbols.answer s uri)
      (.ok (.documentSymbols symbols)) ∧
      (DocumentSymbol.Nested symbols ↔
        ¬ Overhangs doc.text doc.text.length (Module.read doc.uri doc.text).items) :=
  ⟨_, yields_documentSymbols filed entry uri, nested_ofModule_iff doc.uri doc.text⟩

theorem answer_documentSymbols_sections :
    let doc : SnapshotDocument := ⟨"/ws/main.quill", "= A\n#let x =\n== B", 1, "", .memory⟩
    let s : Snapshot := ⟨.file doc.uri, [(doc.uri, doc)], [], .default, ""⟩
    s.Filed ∧ s.entryDocument? = some doc ∧ ∃ symbols,
      Flow.Yields (.computed .quill) (Question.documentSymbols.answer s doc.uri)
        (.ok (.documentSymbols symbols)) ∧
        (DocumentSymbol.Nested symbols ↔
          ¬ Overhangs doc.text doc.text.length (Module.read doc.uri doc.text).items) := by
  intro doc s
  have filed : s.Filed := ⟨by decide, by decide⟩
  have entry : s.entryDocument? = some doc := by decide
  exact ⟨filed, entry, answer_documentSymbols s doc.uri doc filed entry⟩

/-- The title of a heading that has none is behind the blanks at the end of its section. -/
theorem not_answer_documentSymbols :
    ¬ ∀ (s : Snapshot) (uri : Uri) (doc : SnapshotDocument), s.Filed →
    s.entryDocument? = some doc → ∃ symbols,
      Flow.Yields (.computed .quill) (Question.documentSymbols.answer s uri)
        (.ok (.documentSymbols symbols)) ∧
        DocumentSymbol.Nested symbols := by
  intro all
  let doc : SnapshotDocument := ⟨"/ws/main.quill", "=   ", 1, "", .memory⟩
  let s : Snapshot := ⟨.file doc.uri, [(doc.uri, doc)], [], .default, ""⟩
  have filed : s.Filed := ⟨by decide, by decide⟩
  have entry : s.entryDocument? = some doc := by decide
  obtain ⟨symbols, yields, nested⟩ := all s doc.uri doc filed entry
  obtain rfl : symbols = ofModule doc.text (Module.read doc.uri doc.text) := by
    simpa using (yields_documentSymbols filed entry doc.uri).ensures.of_canEnd yields.canEnd
  have items : (Module.read doc.uri doc.text).items = [.heading ⟨1, [], ⟨0, 1⟩, ⟨4, 4⟩, none⟩] := by
    decide
  refine (nested_ofModule_iff doc.uri doc.text).1 nested
    (items ▸ .title fun k after before u there => ?_)
  obtain rfl : k = 3 := by
    have : 4 - 1 ≤ (k : Int) := after
    have : (k : Int) < 4 := before
    omega
  obtain rfl : u = Text.unit ' ' := Option.some.inj there.symm
  decide

end Outline

end Quill
