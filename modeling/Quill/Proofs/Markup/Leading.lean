import Quill.Proofs.Markup.Rows

/-!
# Items that lead their lines

Headings and inclusions are the first items of their lines: what else is on such a line is a mark
behind them, and nothing that can be seen is in front of a heading. A label stands on the line of a
heading exactly if it is in the span of the latest heading in front of it.

## Main definitions

* `Module.headings` — the headings among items.
* `Item.OnHeadingLine` — an item on the line of a heading.

## Main statements

* `Module.pairwise_line_lt` — headings and inclusions are on later lines than the items in front of
  them.
* `Module.line_lt_of_solid` — what can be seen in front of a heading is on an earlier line.
* `Module.within_latest_iff` — the labels on the lines of headings.
* `Module.pairwise_start_lt` — items begin at different places.
-/

namespace Quill

open List (Forall₂)

variable {t c : Text} {uri : Uri} {opened : List OpenSign} {a b lo hi e : Int} {o : Nat}
  {m : Mark} {h : Heading}
  {i : Item} {inclusion : Inclusion} {front behind items : List Item} {lines : List Line}
  {rows : List (List Item)}

/-! ## Lines -/

abbrev Text.lineAt (t : Text) (o : Int) : Int := ((LineTable.ofText t).positionAt o).line

/-- The number of the line of an offset does not become smaller. -/
theorem Text.line_mono (le : a ≤ b) (t : Text) : t.lineAt a ≤ t.lineAt b := by
  have := Position.le_iff.1 (LineTable.positionAt_le le (.ofText t))
  simp only [Text.lineAt]
  omega

instance (t : Text) (a b : Int) : Decidable (t.SameLine a b) := inferInstanceAs (Decidable (_ = _))

def Item.OnHeadingLine (t : Text) (items : List Item) (i : Item) : Prop :=
  ∃ j ∈ items, j.heading?.isSome ∧ t.SameLine i.span.start j.span.start

instance (t : Text) (items : List Item) (i : Item) : Decidable (i.OnHeadingLine t items) :=
  inferInstanceAs (Decidable (∃ j ∈ items, _))

def Heading.Leads (l : Line) (h : Heading) : Prop :=
  ∃ indent c : Text, l.content = indent ++ c ∧ Text.Blank indent ∧
  h.span.start = (l.start + indent.length : Nat)

theorem Text.SolidBefore.exists_line (solid : t.SolidBefore e) :
    ∃ l ∈ t.lines, l.start < e ∧ e ≤ l.stop := by
  obtain ⟨front, u, behind, rfl, seen, rfl⟩ := solid
  have plain : Text.isBreak u = false := by
    by_contra breaks
    rw [Bool.not_eq_false, Text.isBreak, Bool.or_eq_true, beq_iff_eq, beq_iff_eq] at breaks
    rcases breaks with rfl | rfl <;> exact absurd seen (by decide)
  have there : (front ++ u :: behind)[front.length]? = some u := by simp
  obtain ⟨l, mem, start, stop⟩ := Text.exists_line_of_getElem? there plain 0
  exact ⟨l, mem, by omega, by omega⟩

theorem Text.SolidBefore.le_length (solid : t.SolidBefore e) : e ≤ t.length := by
  obtain ⟨front, u, behind, rfl, -, rfl⟩ := solid
  simp only [List.length_append, List.length_cons]
  omega

/-- Behind the first item of a line there are only marks. -/
theorem Row.pairwise_mark (row : Row t lo hi items) : items.Pairwise fun _ b => b.mark?.isSome := by
  cases row with
  | marks found => exact List.pairwise_of_forall_mem_list fun _ _ b mem => found.marks b mem
  | inclusion inside solid => exact List.pairwise_singleton _ _
  | heading placed found | binding placed found =>
    exact List.pairwise_cons.2
      ⟨found.marks, List.pairwise_of_forall_mem_list fun _ _ b mem => found.marks b mem⟩

namespace Module

/-- The items of later lines are on later lines. -/
theorem pairwise_rows (found : Forall₂ (fun l row => Row t l.start l.stop row) lines rows)
    (sub : ∀ l ∈ lines, l ∈ t.lines) (sorted : lines.Pairwise fun a b => a.stop < b.start) :
    rows.Pairwise fun r r' => ∀ a ∈ r, ∀ b ∈ r', t.lineAt a.span.start < t.lineAt b.span.start := by
  induction found with
  | nil => exact .nil
  | @cons l row lines rows first found ih =>
    obtain ⟨behind, sorted⟩ := List.pairwise_cons.1 sorted
    refine List.pairwise_cons.2
      ⟨fun row' mem a inRow b inRow' => ?_, ih (fun l mem => sub l (by simp [mem])) sorted⟩
    obtain ⟨l', inLines, other⟩ := exists_of_mem_rows found mem
    have a_ := (first.inside a inRow).1
    have b_ := (other.inside b inRow').1
    have lt := behind l' inLines
    have before := before_of_lt (sub l (by simp)) (sub l' (by simp [inLines])) lt a_ b_
    refine Int.lt_iff_le_and_ne.2 ⟨Text.line_mono before.start_le t, fun same => ?_⟩
    obtain rfl := (Text.sameLine_iff (sub l (by simp)) (sub l' (by simp [inLines]))
      ⟨a_.start, Int.le_trans a_.ordered a_.stop⟩ ⟨b_.start, Int.le_trans b_.ordered b_.stop⟩).1
        same
    simp only [Line.stop] at lt
    omega

theorem pairwise_line_lt (uri : Uri) (t : Text) :
    (read uri t).items.Pairwise fun a b => b.mark? = none →
    t.lineAt a.span.start < t.lineAt b.span.start := by
  obtain ⟨rows, found, eq⟩ := exists_rows uri t
  refine eq ▸ List.pairwise_flatten.2 ⟨fun row mem => ?_, ?_⟩
  · obtain ⟨l, -, of_line⟩ := exists_of_mem_rows found mem
    exact of_line.pairwise_mark.imp fun mark none_ => by simp [none_] at mark
  · exact (pairwise_rows found (fun _ => id) (Text.pairwise_linesFrom 0 t)).imp fun later a
      inRow b inRow' _ =>
      later a inRow b inRow'

/-- An inclusion ends with a quotation mark. -/
theorem solidBefore_inclusion (mem : .inclusion inclusion ∈ (read uri t).items) :
    t.SolidBefore inclusion.span.stop := by
  obtain ⟨row, of_text, own⟩ := exists_row_of_mem mem
  cases of_text with
  | marks found => exact absurd own (found.not_mem rfl)
  | inclusion inside solid =>
    obtain rfl := Item.inclusion.inj (List.mem_singleton.1 own)
    exact solid
  | heading placed found | binding placed found =>
    simpa using (List.mem_cons.1 own).resolve_right (found.not_mem rfl)

theorem heading_not_mem_scan (o : Nat) (before : Option UInt16) (opened : List OpenSign)
    (c : Text) :
    .heading h ∉ (Inline.scan 0 o before opened c).items :=
  have stands : (List.replicate o 0 ++ c : Text).StandsAt o c :=
    ⟨List.replicate o 0, [], by simp, by simp⟩
  (Row.marks_scan stands (Int.le_refl _) before opened).not_mem rfl

/-- A heading is read where its line begins, but for blanks. -/
theorem heading_start (mem : .heading h ∈ (readAt uri opened o c).items) : h.span.start = o := by
  have fails {read : Nat → Text → List Item × List SyntaxError}
      {c : Text} (fails : LineRead.Fails read c) :
      .heading h ∉ (read o c).1 := by
    obtain ⟨_, _, _, _, _, eq⟩ := fails
    simp [eq]
  cases Module.form c with
  | empty => simp [readAt] at mem
  | comment slashes => simp [readAt_comment slashes] at mem
  | heading tail =>
    rcases List.mem_cons.1 mem with own | marks
    · rw [Item.heading.inj own]
    · exact (heading_not_mem_scan _ _ _ _ marks).elim
  | @binding x ends =>
    rw [readAt_binding ends] at mem
    by_cases shape : ∃ gap name gap' tail, x = gap ++ (name ++ (gap' ++ Text.unit '=' :: tail)) ∧
        (∀ u ∈ gap, Text.isSpaceOrTab u = true) ∧ Identifier.isValid name ∧ ∀ u ∈ gap',
        Text.isSpaceOrTab u = true
    · obtain ⟨gap, name, gap', tail, rfl, spaces, valid, spaces'⟩ := shape
      obtain ⟨gap'', x, rfl, spaces'', solid⟩ := Text.exists_run Text.isSpaceOrTab tail
      rw [apart, LineRead.binding_eq spaces valid spaces' spaces'' solid] at mem
      exact (heading_not_mem_scan _ _ _ _ ((List.mem_cons.1 mem).resolve_left (by simp))).elim
    · exact (fails (LineRead.fails_binding shape) mem).elim
  | @inclusion x ends =>
    rw [readAt_inclusion ends] at mem
    rcases LineRead.inclusion_cases uri x with failed | ⟨gap, path, rest, rfl, read⟩
    · exact (fails failed mem).elim
    · simp [apart, read] at mem
  | text text =>
    rw [text.readAt_eq] at mem
    exact (heading_not_mem_scan _ _ _ _ mem).elim

theorem exists_line_of_heading (mem : .heading h ∈ (read uri t).items) :
    ∃ l ∈ t.lines, h.Leads l := by
  obtain ⟨rows, found, eq⟩ :=
    exists_rows_of_lines (P := fun l row => ∀ h, .heading h ∈ row → h.Leads l) uri []
    fun l (_ : l ∈ t.lines) opened h mem => by
      obtain ⟨start, content⟩ := l
      obtain ⟨indent, blank, eq⟩ := Text.exists_blank_append_trimStart content
      have solid : ∀ u ∈ (Text.trimStart content).head?, Text.isBlank u = false := fun u =>
        Text.not_isBlank_of_mem_head?_trimStart
      rw [eq, readLine_append blank solid] at mem
      exact ⟨indent, _, eq, blank, heading_start mem⟩
  have mem : .heading h ∈ rows.flatten := eq ▸ mem
  obtain ⟨row, inside, own⟩ := List.mem_flatten.1 mem
  obtain ⟨l, line, of_line⟩ := exists_of_mem_rows found inside
  exact ⟨l, line, of_line h own⟩

theorem line_lt_of_solid (mem : .heading h ∈ (read uri t).items) (solid : t.SolidBefore e)
    (le : e ≤ h.span.start) :
    t.lineAt e < t.lineAt h.span.start := by
  refine Int.lt_iff_le_and_ne.2 ⟨Text.line_mono le t, fun same => ?_⟩
  obtain ⟨l, inText, indent, c, content, blank, start⟩ := exists_line_of_heading mem
  obtain ⟨l', inText', before, stop⟩ := solid.exists_line
  have inLine : (l.start : Int) ≤ h.span.start ∧ h.span.start ≤ l.stop := by
    simp only [start, Line.stop, content, List.length_append]
    omega
  obtain rfl := (Text.sameLine_iff inText' inText ⟨Int.le_of_lt before, stop⟩ inLine).1 same
  -- the unit would be one of those in front of the heading
  obtain ⟨front, u, behind, eq, seen, rfl⟩ := solid
  obtain ⟨ahead, rest, whole, length⟩ := Text.standsAt_of_mem_lines inText'
  have there : t[front.length]? = some u := by simp [eq]
  rw [whole, content, List.getElem?_append_right (by omega), List.append_assoc,
    List.getElem?_append_left (by omega)] at there
  exact Bool.noConfusion ((blank u (List.mem_of_getElem? there)).symm.trans seen)

/-! ## Headings -/

def headings (items : List Item) : List Heading := items.filterMap Item.heading?

theorem mem_headings_iff : h ∈ headings items ↔ .heading h ∈ items := by
  simp only [headings, List.mem_filterMap]
  constructor
  · rintro ⟨i, mem, eq⟩
    cases i <;> simp_all [Item.heading?]
  · exact fun mem => ⟨_, mem, rfl⟩

theorem heading_placed (mem : .heading h ∈ (read uri t).items) : h.Placed t 0 t.length := by
  obtain ⟨row, of_text, own⟩ := exists_row_of_mem mem
  exact of_text.heading_placed own

theorem start_lt_body {body : Span} (mem : i ∈ (read uri t).items) (eq : i.body? = some body) :
    i.span.start < body.start := by
  obtain ⟨row, of_text, own⟩ := exists_row_of_mem mem
  cases i with
  | heading h =>
    obtain rfl : h.titleSpan = body := Option.some.inj eq
    exact Int.lt_of_add_one_le (of_text.heading_placed own).title.start
  | binding b =>
    obtain rfl : b.valueSpan = body := Option.some.inj eq
    have ⟨start, ordered, stop⟩ := (of_text.binding_placed own).name
    simp only [Item.span]
    omega
  | label m | reference m | use m | inclusion i => simp [Item.body?] at eq

theorem getLast?_headings_eq (split : (read uri t).items = front ++ i :: behind)
    (other : i.heading? = none)
    (mem : .heading h ∈ (read uri t).items) (same : t.SameLine i.span.start h.span.start) :
    (headings front).getLast? = some h := by
  obtain ⟨ordered, after, -⟩ := List.pairwise_append.1 (split ▸ pairwise_line_lt uri t)
  have ahead : h ∈ headings front := by
    rw [split, List.mem_append, List.mem_cons] at mem
    rcases mem with ahead | rfl | later
    · exact mem_headings_iff.2 ahead
    · simp [Item.heading?] at other
    · exact absurd same (Int.ne_of_lt ((List.pairwise_cons.1 after).1 _ later rfl))
  obtain ⟨earlier, g, eq⟩ :=
    (List.eq_nil_or_concat' (headings front)).resolve_left (List.ne_nil_of_mem ahead)
  rw [eq, List.mem_append, List.mem_singleton] at ahead
  rw [eq, List.getLast?_concat]
  rcases ahead with ahead | rfl
  · -- a later heading would be on a later line
    have sorted : (headings front).Pairwise fun a b =>
      t.lineAt a.span.start < t.lineAt b.span.start := by
      refine List.pairwise_filterMap.2 (ordered.imp fun {a b} later x eq y eq' => ?_)
      cases a <;> cases b <;> simp_all [Item.heading?, Item.mark?, Item.span]
    have later := (List.pairwise_append.1 (eq ▸ sorted)).2.2 h ahead g (by simp)
    have across := (List.pairwise_append.1 (split ▸ pairwise_before uri t)).2.2
    have upTo := Text.line_mono
        (across (.heading g) (mem_headings_iff.1 (eq ▸ by simp)) i (by simp)).start_le t
    simp only [Text.SameLine, Text.lineAt, Item.span] at *
    omega
  · rfl

/-- A label is in the span of the latest heading in front of it exactly if it is on the line of a
heading. -/
theorem within_latest_iff (split : (read uri t).items = front ++ .label m :: behind) :
    ((headings front).getLast?.any fun h => m.span.within h.span) = true ↔
      (Item.label m).OnHeadingLine t (read uri t).items := by
  have member : .label m ∈ (read uri t).items := split ▸ by simp
  have own : m.span.start < m.span.stop :=
    Item.start_lt_stop_of_mark? (i := .label m) rfl (written_of_mem_items member)
  constructor
  · intro within_
    cases last : (headings front).getLast? with
    | none => simp [last] at within_
    | some h =>
      have mem : .heading h ∈ (read uri t).items :=
        split ▸ List.mem_append_left _ (mem_headings_iff.1 (List.mem_of_getLast? last))
      rw [last, Option.any_some, Span.within_iff] at within_
      obtain ⟨first, last⟩ := within_
      have line : t.SameLine h.span.start h.span.stop := (onLine_of_mem_items mem).sameLine
      have reached := Text.line_mono first t
      have before := Text.line_mono (Int.le_trans (Int.le_of_lt own) last) t
      refine ⟨.heading h, mem, rfl, ?_⟩
      simp only [Text.SameLine, Text.lineAt, Item.span] at *
      omega
  · rintro ⟨j, mem, heading, same⟩
    obtain ⟨h, rfl⟩ := Item.exists_heading (Option.isSome_iff_ne_none.1 heading)
    rw [getLast?_headings_eq split rfl mem same]
    have placed := heading_placed mem
    have within_ : m.span.within h.titleSpan := within_body_of_sameLine mem rfl member rfl same
    have title := placed.title.start
    rw [Span.within_iff] at within_
    have ends := placed.title_le (by omega)
    rw [Option.any_some, Span.within_iff]
    omega

/-- An item that is no inclusion begins in front of all items behind it. -/
theorem pairwise_start_lt (uri : Uri) (t : Text) :
    (read uri t).items.Pairwise fun a b => a.inclusion? = none → a.span.start < b.span.start := by
  refine (pairwise_before uri t).imp_of_mem fun {a b} mem mem' before other => ?_
  cases some_ : a.body? with
  | none =>
    have mark := Item.isSome_mark?_iff.2 ⟨some_, other⟩
    have own := Item.start_lt_stop_of_mark? mark (written_of_mem_items mem)
    exact Int.lt_of_lt_of_le own (before.stop_le some_)
  | some body =>
    by_cases same : t.SameLine a.span.start b.span.start
    · have within_ := Span.within_iff.1 ((before.sameLine same).2 body some_)
      exact Int.lt_of_lt_of_le (start_lt_body mem some_) within_.1
    · exact Int.lt_iff_le_and_ne.2 ⟨before.start_le, fun eq => same (congrArg _ (congrArg _ eq))⟩

end Module

end Quill
