import Mathlib.Data.List.Pairwise
import Quill.Proofs.Markup.Includes
import Quill.Proofs.Markup.Places

/-!
# The items of a line

A line gives marks, which are labels, references and uses; or a heading with the marks in its title;
or a binding with the marks in its value; or one inclusion. The items of a document are those of its
lines.

## Main definitions

* `Item.mark?` — the label, reference or use that an item is.
* `Text.SolidBefore` — offsets behind a unit that is no blank.
* `Heading.Placed`, `Binding.Placed`, `Row.Marks` — where the parts of a line are.
* `Row` — what a line gives.

## Main statements

* `Module.exists_rows` — the items of a document line by line.
* `Module.exists_row_of_touches` — the items that a cursor touches are on one line.
* `Module.pairwise_items` — a heading is behind all items before it.
-/

namespace Quill

open Text (Blank)

def Item.mark? : Item → Option Mark
  | label m | reference m | use m => some m
  | _ => none

/-- The unit in front of the offset is no blank. -/
def Text.SolidBefore (t : Text) (o : Int) : Prop :=
  ∃ front u behind, t = front ++ u :: behind ∧ Text.isBlank u = false ∧ o = (front.length + 1 : Nat)

/-- A heading between two offsets of a text: its title is behind a sign, and it ends with a unit
that can be seen, no earlier than a title that it has. -/
structure Heading.Placed (t : Text) (lo hi : Int) (h : Heading) : Prop where
  inside : h.span.Inside lo hi
  title : h.titleSpan.Inside (h.span.start + 1) hi
  title_le : h.titleSpan.start < h.titleSpan.stop → h.titleSpan.stop ≤ h.span.stop
  solid : t.SolidBefore h.span.stop

/-- A binding between two offsets: its name, a sign, and the value with which it ends. -/
structure Binding.Placed (lo hi : Int) (b : Binding) : Prop where
  inside : b.span.Inside lo hi
  name : b.nameSpan.Inside b.span.start (b.valueSpan.start - 1)
  value : b.valueSpan.Inside b.span.start b.span.stop

structure Row.Marks (t : Text) (lo hi : Int) (items : List Item) : Prop where
  marks : ∀ i ∈ items, i.mark?.isSome
  written : ∀ i ∈ items, i.Written t
  inside : ∀ i ∈ items, i.span.Inside lo hi
  apart : items.Pairwise fun a b => a.span.stop ≤ b.span.start

/-- What a line gives between two offsets of a text. -/
inductive Row (t : Text) (lo hi : Int) : List Item → Prop
  | marks {items : List Item} (found : Row.Marks t lo hi items) : Row t lo hi items
  | inclusion {i : Inclusion} (inside : i.span.Inside lo hi) (solid : t.SolidBefore i.span.stop) :
    Row t lo hi [.inclusion i]
  | heading {h : Heading} {items : List Item} (placed : h.Placed t lo hi)
      (found : Row.Marks t h.titleSpan.start h.titleSpan.stop items) :
      Row t lo hi (.heading h :: items)
  | binding {b : Binding} {items : List Item} (placed : b.Placed lo hi)
      (found : Row.Marks t b.valueSpan.start b.valueSpan.stop items) :
      Row t lo hi (.binding b :: items)

variable {t c x : Text} {lo lo' hi hi' : Int} {o start : Nat} {uri : Uri} {opened : List OpenSign}
  {items : List Item} {i j : Item} {m : Mark}

/-! ## Marks -/

namespace Item

theorem isSome_mark?_iff : i.mark?.isSome ↔ i.body? = none ∧ i.inclusion? = none := by
  cases i <;> simp [mark?, body?, inclusion?]

/-- A cursor has to touch all of a mark. -/
theorem hitSpan_of_mark? (mark : i.mark?.isSome) : i.hitSpan = i.span := by
  cases i <;> simp_all [mark?, hitSpan]

theorem start_lt_stop_of_mark? (mark : i.mark?.isSome) (written : i.Written t) :
    i.span.start < i.span.stop := by
  have longer {m : Mark} {sign : UInt16} {closing : Text} (as : m.WrittenAs sign closing t) :
      m.span.start < m.span.stop := by
    obtain ⟨o, -, eq⟩ := as.span
    simp only [eq, List.length_cons]
    omega
  cases i with
  | label m | reference m | use m => exact longer written
  | heading h | binding b | inclusion i => simp [mark?] at mark

end Item

namespace Text

/-- Behind what stands at an offset is its last unit. -/
theorem StandsAt.solidBefore (stands : t.StandsAt o c) (ne : c ≠ [])
    (solid : ∀ u ∈ c.getLast?, isBlank u = false) : t.SolidBefore (o + c.length : Nat) := by
  obtain ⟨c, u, rfl⟩ := (List.eq_nil_or_concat' c).resolve_left ne
  obtain ⟨front, behind, rfl, rfl⟩ := stands
  exact ⟨front ++ c, u, behind, by simp, solid u (by simp), by simp [Nat.add_assoc]⟩

/-- Cutting off the blanks at the end takes nothing from a part that ends with a unit that can be
seen. -/
theorem length_le_trimEnd_append {a b : Text} (solid : ∀ u ∈ a.getLast?, isBlank u = false) :
    a.length ≤ (trimEnd (a ++ b)).length := by
  by_cases blank : trimEnd b = []
  · have same : trimEnd (a ++ b) = a := by
      rw [trimEnd_append_of_blank (trimEnd_eq_nil_iff.1 blank), trimEnd_eq_self_iff.2 solid]
    exact Nat.le_of_eq (congrArg List.length same.symm)
  · rw [trimEnd_append_of_ne_nil a blank, List.length_append]
    omega

end Text

theorem Heading.Placed.mono {h : Heading} (placed : h.Placed t lo' hi') (le : lo ≤ lo')
    (le' : hi' ≤ hi) :
    h.Placed t lo hi where
  inside := placed.inside.mono le le'
  title := placed.title.mono (Int.le_refl _) le'
  title_le := placed.title_le
  solid := placed.solid

theorem Binding.Placed.mono {b : Binding} (placed : b.Placed lo' hi') (le : lo ≤ lo')
    (le' : hi' ≤ hi) :
    b.Placed lo hi where
  inside := placed.inside.mono le le'
  name := placed.name
  value := placed.value

/-! ## What a line gives -/

namespace Row

theorem Marks.mono (found : Marks t lo' hi' items) (le : lo ≤ lo') (le' : hi' ≤ hi) :
    Marks t lo hi items where
  marks := found.marks
  written := found.written
  inside i mem := (found.inside i mem).mono le le'
  apart := found.apart

theorem marks_scan (stands : t.StandsAt o c) (stop : (o + c.length : Nat) ≤ hi)
    (before : Option UInt16)
    (opened : List OpenSign) : Marks t o hi (Inline.scan 0 o before opened c).items := by
  have placed := Inline.placed_scan stands stop before opened
  exact ⟨fun i mem => Item.isSome_mark?_iff.2
    ⟨(placed.written i mem).2, Includes.inclusion?_scan _ _ _ _ _ i mem⟩,
    fun i mem => (placed.written i mem).1, placed.inside, placed.apart⟩

theorem nil : Row t lo hi [] := .marks ⟨by simp, by simp, by simp, .nil⟩

theorem mono (row : Row t lo' hi' items) (le : lo ≤ lo') (le' : hi' ≤ hi) : Row t lo hi items := by
  cases row with
  | marks found => exact .marks (found.mono le le')
  | inclusion inside solid => exact .inclusion (inside.mono le le') solid
  | heading placed found => exact .heading (placed.mono le le') found
  | binding placed found => exact .binding (placed.mono le le') found

theorem of_fails {read : Nat → Text → List Item × List SyntaxError}
    (fails : LineRead.Fails read c) :
    Row t lo hi (read o c).1 := by
  obtain ⟨_, _, _, _, _, eq⟩ := fails
  rw [eq]
  exact nil

theorem heading_line
    (stands : t.StandsAt o (Text.unit '=' :: c)) (stop : (o + (c.length + 1) : Nat) ≤ hi) :
    Row t o hi (LineRead.heading o (Text.unit '=' :: c)).1 := by
  obtain ⟨signs, rest, rfl, signs_, ends⟩ := Text.exists_run (· == Text.unit '=') c
  obtain ⟨gap, x, rfl, spaces, solid⟩ := Text.exists_run Text.isSpaceOrTab rest
  have signs_ : ∀ u ∈ Text.unit '=' :: signs, (u == Text.unit '=') = true :=
    List.forall_mem_cons.2 ⟨by simp, signs_⟩
  have title := (stands.right (a := Text.unit '=' :: signs)).right.prefix_
      (LineRead.prefix_content x)
  have shorter := (LineRead.prefix_content x).length_le
  have visible : Text.trimEnd (Text.unit '=' :: (signs ++ (gap ++ x))) ≠ [] := fun blank =>
    absurd (Text.trimEnd_eq_nil_iff.1 blank (Text.unit '=') (by simp)) (by decide)
  obtain ⟨behind, whole, -⟩ := Text.exists_trimEnd_append (Text.unit '=' :: (signs ++ (gap ++ x)))
  have trimmed := stands.prefix_ ⟨behind, whole.symm⟩
  have length := congrArg List.length whole
  have pos := List.length_pos_iff.2 visible
  simp only [List.length_append, List.length_cons] at length stop title
  rw [← List.cons_append, LineRead.heading_eq signs_ ends spaces solid]
  refine .heading ⟨?_, ?_, fun seen => ?_, ?_⟩ ?_
  · exact .of_le (Int.le_refl _) (by omega) (by simp only [List.cons_append]; omega)
  · exact .of_le (by simp only [List.length_cons]; omega) (by omega)
      (by simp only [List.length_cons]; omega)
  · -- the title ends with a unit that can be seen, and so the line goes on up to there
    have ne : LineRead.content x ≠ [] := List.length_pos_iff.1 (by simp only at seen; omega)
    have last : ∀ u ∈ (LineRead.content x).getLast?, Text.isBlank u = false :=
      Text.trimEnd_eq_self_iff.1 (Text.trimEnd_trimEnd _)
    obtain ⟨more, eq⟩ := LineRead.prefix_content x
    have reaches := Text.length_le_trimEnd_append
        (a := Text.unit '=' :: signs ++ gap ++ LineRead.content x)
      (b := more) fun u mem => last u (by rwa [List.getLast?_append_of_ne_nil _ ne] at mem)
    simp only [List.cons_append, List.append_assoc, eq, List.length_cons,
      List.length_append] at reaches ⊢
    omega
  · exact trimmed.solidBefore visible (Text.trimEnd_eq_self_iff.1 (Text.trimEnd_trimEnd _))
  · simpa using marks_scan title (Int.le_refl _) none []

theorem binding_line (stands : t.StandsAt o (Directive.keyword .binding ++ x))
    (stop : (o + (Directive.keyword .binding ++ x).length : Nat) ≤ hi) :
    Row t o hi (LineRead.binding o (Directive.keyword .binding ++ x)).1 := by
  by_cases shape : ∃ gap name gap' tail, x = gap ++ (name ++ (gap' ++ Text.unit '=' :: tail)) ∧
      (∀ u ∈ gap, Text.isSpaceOrTab u = true) ∧ Identifier.isValid name ∧ ∀ u ∈ gap',
      Text.isSpaceOrTab u = true
  · obtain ⟨gap, name, gap', tail, rfl, spaces, valid, spaces'⟩ := shape
    obtain ⟨gap'', x, rfl, spaces'', solid⟩ := Text.exists_run Text.isSpaceOrTab tail
    have value := stands.right.right.right.right.tail.right.prefix_ (LineRead.prefix_content x)
    have shorter := (LineRead.prefix_content x).length_le
    simp only [List.length_append, List.length_cons] at stop
    rw [LineRead.binding_eq spaces valid spaces' spaces'' solid]
    refine .binding ⟨?_, ?_, ?_⟩ ?_
    · exact .of_le (Int.le_refl _) (by omega) (by omega)
    · exact .of_le (by simp only; omega) (by omega) (by simp only; omega)
    · exact .of_le (by simp only; omega) (by omega) (Int.le_refl _)
    · exact marks_scan value (Int.le_refl _) none []
  · exact of_fails (LineRead.fails_binding shape)

theorem inclusion_line (uri : Uri) (stands : t.StandsAt o (Directive.keyword .inclusion ++ x))
    (stop : (o + (Directive.keyword .inclusion ++ x).length : Nat) ≤ hi) :
    Row t o hi (LineRead.inclusion uri o (Directive.keyword .inclusion ++ x)).1 := by
  rcases LineRead.inclusion_cases uri x with fails | ⟨gap, path, rest, rfl, read⟩
  · exact of_fails fails
  · -- the path stands between two quotation marks, and the inclusion ends with the second one
    have quoted : t.StandsAt (o + (Directive.keyword .inclusion).length + gap.length)
        (Includes.mark :: (path ++ [Includes.mark])) := stands.right.right.prefix_ ⟨rest, by simp⟩
    have solid := quoted.solidBefore (by simp) fun u last => by
      rw [← List.cons_append, List.getLast?_concat] at last
      exact Option.some.inj last ▸ by decide
    have last : o + (Directive.keyword .inclusion).length + gap.length + 1 + path.length + 1 =
        o + (Directive.keyword .inclusion).length + gap.length +
          (Includes.mark :: (path ++ [Includes.mark])).length := by
      simp only [List.length_cons, List.length_append, List.length_nil]
      omega
    simp only [List.length_append, List.length_cons] at stop
    rw [read]
    exact .inclusion (.of_le (Int.le_refl _) (by omega) (by omega)) (last ▸ solid)

theorem readAt (uri : Uri) (opened : List OpenSign) (stands : t.StandsAt o c)
    (stop : (o + c.length : Nat) ≤ hi) : Row t o hi (Module.readAt uri opened o c).items := by
  cases Module.form c with
  | empty => exact nil
  | comment slashes =>
    rw [Module.readAt_comment slashes]
    exact nil
  | heading tail => exact heading_line stands stop
  | binding ends =>
    rw [Module.readAt_binding ends]
    exact binding_line stands stop
  | inclusion ends =>
    rw [Module.readAt_inclusion ends]
    exact inclusion_line uri stands stop
  | text text =>
    rw [text.readAt_eq]
    exact .marks (marks_scan stands stop none opened)

theorem readLine {l : Line} (uri : Uri) (opened : List OpenSign)
    (stands : t.StandsAt l.start l.content) :
    Row t l.start l.stop (Module.readLine uri opened l).items := by
  obtain ⟨start, content⟩ := l
  obtain ⟨indent, blank, eq⟩ := Text.exists_blank_append_trimStart content
  have solid : ∀ u ∈ (Text.trimStart content).head?, Text.isBlank u = false := fun u =>
    Text.not_isBlank_of_mem_head?_trimStart
  generalize Text.trimStart content = c at eq solid
  subst eq
  rw [Module.readLine_append blank solid]
  refine mono (readAt uri opened stands.right ?_) (Int.ofNat_le.2 (Nat.le_add_right ..))
    (Int.le_refl _)
  simp only [Line.stop, List.length_append]
  omega

/-! ## Places on a line -/

/-- Items are on their line, and so are the parts of them that a cursor has to touch. -/
theorem inside (row : Row t lo hi items) :
    ∀ i ∈ items, i.span.Inside lo hi ∧ i.hitSpan.Inside lo hi := by
  have marks {lo' hi' items} (found : Marks t lo' hi' items) (le : lo ≤ lo') (le' : hi' ≤ hi) :
      ∀ i ∈ items, i.span.Inside lo hi ∧ i.hitSpan.Inside lo hi := fun i mem => by
    rw [Item.hitSpan_of_mark? (found.marks i mem), and_self]
    exact (found.inside i mem).mono le le'
  cases row with
  | marks found => exact marks found (Int.le_refl _) (Int.le_refl _)
  | inclusion inside => simpa [Item.hitSpan, Item.span] using inside
  | @heading h items placed found =>
    have from_ : lo ≤ h.span.start + 1 := Int.le_trans placed.inside.start (by omega)
    exact List.forall_mem_cons.2 ⟨⟨placed.inside, placed.title.mono from_ (Int.le_refl _)⟩,
      marks found (Int.le_trans from_ placed.title.start) placed.title.stop⟩
  | @binding b items placed found =>
    have first := placed.inside.start
    have last := placed.inside.stop
    have name := placed.name
    have value := placed.value
    refine List.forall_mem_cons.2 ⟨⟨placed.inside, name.mono first ?_⟩, marks found ?_ ?_⟩
    · exact Int.le_trans (Int.sub_le_self _ (by decide))
        (Int.le_trans value.ordered (Int.le_trans value.stop last))
    · exact Int.le_trans first value.start
    · exact Int.le_trans value.stop last

theorem Marks.not_mem (found : Marks t lo hi items) (other : i.mark? = none) :
    i ∉ items := fun mem => by
  simpa [other] using found.marks i mem

theorem heading_placed {h : Heading} (row : Row t lo hi items) (mem : .heading h ∈ items) :
    h.Placed t lo hi := by
  cases row with
  | marks found => exact absurd mem (found.not_mem rfl)
  | inclusion inside => simp at mem
  | heading placed found =>
    cases (List.mem_cons.1 mem).resolve_right (found.not_mem rfl)
    exact placed
  | binding placed found => simpa using (List.mem_cons.1 mem).resolve_right (found.not_mem rfl)

theorem binding_placed {b : Binding} (row : Row t lo hi items) (mem : .binding b ∈ items) :
    b.Placed lo hi := by
  cases row with
  | marks found => exact absurd mem (found.not_mem rfl)
  | inclusion inside => simp at mem
  | heading placed found => simpa using (List.mem_cons.1 mem).resolve_right (found.not_mem rfl)
  | binding placed found =>
    cases (List.mem_cons.1 mem).resolve_right (found.not_mem rfl)
    exact placed

/-- What holds of two items of a document, the first one read before the other: a heading is on a
later line. -/
structure Precedes (a b : Item) : Prop where
  start_le : a.span.start ≤ b.span.start
  heading : b.heading?.isSome → a.span.stop < b.span.start ∧ a.hitSpan.stop < b.span.start

theorem Precedes.of_mark (le : i.span.start ≤ j.span.start) (mark : j.mark?.isSome) :
    Precedes i j :=
  ⟨le, by cases j <;> simp_all [Item.mark?, Item.heading?]⟩

theorem Marks.precedes (found : Marks t lo hi items) : items.Pairwise Precedes :=
  found.apart.imp_of_mem fun {a b} mem mem' le =>
    .of_mark (Int.le_trans (found.inside a mem).ordered le) (found.marks b mem')

/-- The items of a line are in order. -/
theorem precedes (row : Row t lo hi items) : items.Pairwise Precedes := by
  cases row with
  | marks found => exact found.precedes
  | inclusion inside => exact List.pairwise_singleton _ _
  | heading placed found =>
    refine List.pairwise_cons.2 ⟨fun j mem => .of_mark ?_ (found.marks j mem), found.precedes⟩
    have := placed.title.start
    have := (found.inside j mem).start
    simp only [Item.span] at *
    omega
  | binding placed found =>
    refine List.pairwise_cons.2 ⟨fun j mem => .of_mark ?_ (found.marks j mem), found.precedes⟩
    exact Int.le_trans placed.value.start (found.inside j mem).start

def Ahead (r r' : List Item) : Prop :=
  ∃ o : Int, (∀ a ∈ r, a.span.stop < o ∧ a.hitSpan.stop < o) ∧ ∀ b ∈ r', o ≤ b.span.start ∧
  o ≤ b.hitSpan.start

end Row

/-! ## Documents -/

namespace Module

open List (Forall₂)

variable {lines : List Line} {rows : List (List Item)}

theorem exists_rows_of_lines {P : Line → List Item → Prop} (uri : Uri) (opened : List OpenSign)
    (holds : ∀ l ∈ lines, ∀ opened, P l (readLine uri opened l).items) :
    ∃ rows, Forall₂ P lines rows ∧ (readLines uri opened lines).1 = rows.flatten := by
  induction lines generalizing opened with
  | nil => exact ⟨[], .nil, rfl⟩
  | cons l lines ih =>
    obtain ⟨rows, found, eq⟩ := ih (readLine uri opened l).opened fun l mem =>
      holds l (by simp [mem])
    exact ⟨_ :: rows, .cons (holds l (by simp) opened) found, by rw [readLines, eq,
      List.flatten_cons]⟩

theorem exists_rows (uri : Uri) (t : Text) :
    ∃ rows, Forall₂ (fun l row => Row t l.start l.stop row) t.lines rows ∧
    (read uri t).items = rows.flatten :=
  exists_rows_of_lines uri [] fun _ mem opened =>
    Row.readLine uri opened (Text.standsAt_of_mem_lines mem)

theorem exists_of_mem_rows {P : Line → List Item → Prop}
    {row : List Item} (found : Forall₂ P lines rows) (mem : row ∈ rows) : ∃ l ∈ lines, P l row := by
  obtain ⟨i, inside, rfl⟩ := List.mem_iff_getElem.1 mem
  obtain ⟨length, get⟩ := List.forall₂_iff_get.1 found
  exact ⟨lines.get ⟨i, length ▸ inside⟩, List.get_mem .., get i _ inside⟩

/-- Lines end before the next ones start. -/
theorem pairwise_ahead (found : Forall₂ (fun l row => Row t l.start l.stop row) lines rows)
    (sorted : lines.Pairwise fun a b => a.stop < b.start) : rows.Pairwise Row.Ahead := by
  induction found with
  | nil => exact .nil
  | @cons l row lines rows first found ih =>
    obtain ⟨behind, sorted⟩ := List.pairwise_cons.1 sorted
    refine List.pairwise_cons.2
      ⟨fun row' mem => ⟨l.stop + 1, fun a mem => ?_, fun b mem' => ?_⟩, ih sorted⟩
    · obtain ⟨span, hit⟩ := first.inside a mem
      exact ⟨Int.lt_add_one_of_le span.stop, Int.lt_add_one_of_le hit.stop⟩
    · obtain ⟨l', inLines, other⟩ := exists_of_mem_rows found mem
      obtain ⟨span, hit⟩ := other.inside b mem'
      have := behind l' inLines
      have := span.start
      have := hit.start
      omega

theorem exists_row_of_mem (mem : i ∈ (read uri t).items) :
    ∃ row, Row t 0 t.length row ∧ i ∈ row := by
  obtain ⟨rows, found, eq⟩ := exists_rows uri t
  obtain ⟨row, inside, own⟩ := List.mem_flatten.1 (eq ▸ mem)
  obtain ⟨l, line, of_line⟩ := exists_of_mem_rows found inside
  have inText := (Text.standsAt_of_mem_lines line).length_le
  exact ⟨row, of_line.mono (Int.natCast_nonneg _) (Int.ofNat_le.2 inText), own⟩

/-- The items of a document in their order. -/
theorem pairwise_items (uri : Uri) (t : Text) : (read uri t).items.Pairwise Row.Precedes := by
  obtain ⟨rows, found, eq⟩ := exists_rows uri t
  refine eq ▸ List.pairwise_flatten.2 ⟨fun row mem => ?_, ?_⟩
  · obtain ⟨l, -, of_line⟩ := exists_of_mem_rows found mem
    exact of_line.precedes
  · have ahead := pairwise_ahead found (Text.pairwise_linesFrom 0 t)
    refine ahead.imp_of_mem fun {r r'} mem _ ahead a inside b inside' => ?_
    obtain ⟨l, -, of_line⟩ := exists_of_mem_rows found mem
    obtain ⟨o, before, behind⟩ := ahead
    have ordered := (of_line.inside a inside).1.ordered
    have := before a inside
    have := behind b inside'
    exact ⟨by omega, fun _ => by omega⟩

theorem exists_row_of_touches {o : Int} (mem : i ∈ (read uri t).items)
    (touches : i.hitSpan.touches o) :
    ∃ l ∈ t.lines, ∃ row, Row t l.start l.stop row ∧
      ∀ j ∈ (read uri t).items, j.hitSpan.touches o → j ∈ row := by
  obtain ⟨rows, found, eq⟩ := exists_rows uri t
  obtain ⟨row, inside, own⟩ := List.mem_flatten.1 (eq ▸ mem)
  obtain ⟨l, line, of_line⟩ := exists_of_mem_rows found inside
  refine ⟨l, line, row, of_line, fun j mem' touches' => ?_⟩
  obtain ⟨row', inside', other⟩ := List.mem_flatten.1 (eq ▸ mem')
  -- of two lines one is ahead of the other, and the cursor would be in both
  let Apart (r r' : List Item) : Prop :=
    ∀ a ∈ r, ∀ b ∈ r', ¬(a.hitSpan.touches o ∧ b.hitSpan.touches o)
  have apart : rows.Pairwise Apart :=
    (pairwise_ahead found (Text.pairwise_linesFrom 0 t)).imp fun ⟨p, before, behind⟩ a inRow b
      inRow' both => by
      have := before a inRow
      have := behind b inRow'
      simp only [Span.touches_iff] at both
      omega
  have : Std.Symm Apart := ⟨fun _ _ apart a inRow b inRow' both => apart b inRow' a inRow both.symm⟩
  by_contra outside
  have ne : row ≠ row' := fun same => outside (same ▸ other)
  exact apart.forall inside inside' ne i own j other ⟨touches, touches'⟩

end Module

end Quill
