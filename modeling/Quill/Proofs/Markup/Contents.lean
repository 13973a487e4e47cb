import Quill.Markup.Reader
import Quill.Proofs.Markup.Reading
import Quill.Proofs.Text.Lines

/-!
# What the lines of a document say

The reading of a line depends on its content and on the emphasis signs open before it, and of a
directive or a heading only the parts matter, not the blanks between them.

## Main definitions

* `LineRead.shown` — what is read of the text behind a sign.
* `LineRead.headed`, `LineRead.bound`, `LineRead.included` — the readings of headings and
  directives.
* `Module.readContents` — the reading of lines, one after another.

## Main statements

* `LineRead.exists_of_binding`, `LineRead.exists_of_inclusion` — the directive lines without a
  problem.
* `Module.bare_readLine` — a line is read as its content is.
* `Module.bare_read` — a document is read as the contents of its lines are.
-/

namespace Quill

open Directive (keyword)
open Identifier (isPart isValid leading? leading?_append)
open Includes (mark unit_mark)
open Text (Blank Apart isSpaceOrTab)

namespace LineRead

variable {t x gap gap' name tail path rest : Text} {u : UInt16} {offset : Nat}
  {d : Directive} {uri : Uri} {es : List Emphasis} {opened : List OpenSign}

/-! ## Headings and directives -/

def bareParts (read : List Item × List SyntaxError) : List Item × List SyntaxProblem :=
  (read.1.map Item.bare, read.2.map SyntaxError.problem)

/-- What is read of the text behind a sign: no spaces and tabs in front, no comment, and no blanks
at the end. -/
def shown (t : Text) : Text := Text.trimEnd (Inline.beforeComment 0 (t.dropWhile isSpaceOrTab))

theorem shown_eq (t : Text) :
    Text.trimEnd (Inline.beforeComment 0 (t.dropWhile isSpaceOrTab)) = shown t := rfl

def headed (level : Nat) (content : Text) : List Item × List SyntaxProblem :=
  let found := Inline.reading [] content
  let title := Text.trim (Text.collapseBlanks false (Inline.withoutLabels 0 content))
  (.heading ⟨level, title, .nowhere, .nowhere, (found.items.findSome? Item.label?).map Mark.name⟩ ::
      found.items,
    found.problems ++ Reading.unclosed found.opened ++ if title.isEmpty then [.emptyHeading]
      else [])

def bound (name value : Text) : List Item × List SyntaxProblem :=
  let found := Inline.reading [] value
  (.binding ⟨name, value, .nowhere, .nowhere, .nowhere⟩ :: found.items,
    found.problems ++ Reading.unclosed found.opened)

def included (uri : Uri) (path : Text) : List Item × List SyntaxProblem :=
  if (Text.trim path).isEmpty then ([], [.emptyPath])
  else ([.inclusion ⟨path, uri.include path, .nowhere, .nowhere⟩], [])

theorem label?_bare (i : Item) : i.bare.label? = i.label?.map Mark.bare := by cases i <;> rfl

/-- The name of the first label is there without its place, too. -/
theorem map_name_label?_bare (items : List Item) :
    ((items.map Item.bare).findSome? Item.label?).map Mark.name =
      (items.findSome? Item.label?).map Mark.name := by
  have first : Item.label? ∘ Item.bare = Option.map Mark.bare ∘ Item.label? := funext label?_bare
  rw [List.findSome?_map, first, ← List.map_findSome?, Option.map_map]
  rfl

theorem bare_scan_start (start : Nat) (content : Text) :
    (Inline.scan 0 start none [] content).bare = Inline.reading [] content :=
  Inline.bare_scan_eq rfl

theorem map_problem_unclosed (opened : List OpenSign) :
    (Inline.unclosed opened).map SyntaxError.problem =
    Reading.unclosed (opened.map OpenSign.emphasis) := by
  simp [Inline.unclosed, Reading.unclosed]

theorem bareParts_heading (offset : Nat) (t : Text) : bareParts (heading offset t) =
    headed (t.takeWhile (· == Text.unit '=')).length
      (shown (t.dropWhile (· == Text.unit '='))) := by
  simp only [heading, headed, Text.drop_length_takeWhile, shown_eq]
  generalize shown (t.dropWhile (· == Text.unit '=')) = content
  generalize offset + _ + _ = start
  rw [← bare_scan_start start content]
  generalize Inline.scan 0 start none [] content = found
  simp only [bareParts, Inline.bare, List.map_cons, List.map_append, map_problem_unclosed,
    Item.bare, map_name_label?_bare]
  split <;> rfl

theorem isBlank_of_isSpaceOrTab (space : isSpaceOrTab u = true) : Text.isBlank u = true := by
  have : u = Text.unit ' ' ∨ u = Text.unit '\t' := by simpa [isSpaceOrTab] using space
  rcases this with rfl | rfl <;> decide

theorem dropWhile_gap_append (spaces : ∀ u ∈ gap, isSpaceOrTab u) (valid : isValid name)
    (rest : Text) :
    (gap ++ (name ++ rest)).dropWhile isSpaceOrTab = name ++ rest := by
  cases name with
  | nil => simp [isValid] at valid
  | cons n name =>
    refine Text.dropWhile_append_cons spaces (Bool.eq_false_iff.2 fun space => ?_) _
    have := Identifier.not_isBlank_of_isPart (Identifier.isPart_of_isValid valid n (by simp))
    simp [isBlank_of_isSpaceOrTab space] at this

theorem not_isPart_of_gap (spaces : ∀ u ∈ gap, isSpaceOrTab u) (other : isPart u = false)
    (rest : Text) :
    ∀ v ∈ (gap ++ u :: rest).head?, isPart v = false := by
  cases gap with
  | nil => simpa using other
  | cons v gap =>
    have blank := isBlank_of_isSpaceOrTab (spaces v (by simp))
    refine fun w first => Bool.eq_false_iff.2 fun part => ?_
    obtain rfl : v = w := by simpa using first
    simp [Identifier.not_isBlank_of_isPart part] at blank

theorem bareParts_bound (name value : Text) (start : Nat) (span nameSpan valueSpan : Span) :
    bareParts (.binding ⟨name, value, span, nameSpan, valueSpan⟩ ::
        (Inline.scan 0 start none [] value).items,
      (Inline.scan 0 start none [] value).errors ++
        Inline.unclosed (Inline.scan 0 start none [] value).opened) = bound name value := by
  rw [bound, ← bare_scan_start start value]
  simp only [bareParts, Inline.bare, List.map_cons, List.map_append, map_problem_unclosed,
    Item.bare]

theorem bareParts_binding (spaces : ∀ u ∈ gap, isSpaceOrTab u)
    (spaces' : ∀ u ∈ gap', isSpaceOrTab u) (valid : isValid name) (offset : Nat) (tail : Text) :
    bareParts (binding offset
      (keyword .binding ++ (gap ++ (name ++ (gap' ++ Text.unit '=' :: tail))))) =
      bound name (shown tail) := by
  have leads : leading? (name ++ (gap' ++ Text.unit '=' :: tail)) = some name :=
    leading?_append valid (not_isPart_of_gap spaces' (by decide) tail)
  have sign : (gap' ++ Text.unit '=' :: tail).dropWhile isSpaceOrTab = Text.unit '=' :: tail :=
    Text.dropWhile_append_cons spaces' (by decide) tail
  simp only [binding, List.drop_left, Text.drop_length_takeWhile, dropWhile_gap_append spaces valid,
    leads, sign, beq_self_eq_true, if_true, shown_eq, bareParts_bound]

/-- A directive without a problem has a name and an equals sign behind it. -/
theorem exists_of_binding (clear : (bareParts (binding offset (keyword .binding ++ x))).2 = []) :
    ∃ gap name gap' tail, x = gap ++ (name ++ (gap' ++ Text.unit '=' :: tail)) ∧
      (∀ u ∈ gap, isSpaceOrTab u) ∧ isValid name ∧ ∀ u ∈ gap', isSpaceOrTab u := by
  simp only [binding, List.drop_left, Text.drop_length_takeWhile, bareParts] at clear
  split at clear
  next => simp at clear
  next name leads =>
    obtain ⟨behind, eq⟩ := Identifier.isPrefixOf_of_leading? leads
    rw [← eq, List.drop_left] at clear
    split at clear
    next => simp at clear
    next u tail behind_eq =>
      split at clear
      next sign =>
        obtain rfl : u = Text.unit '=' := by simpa using sign
        refine ⟨x.takeWhile isSpaceOrTab, name, behind.takeWhile isSpaceOrTab, tail, ?_,
          fun u => Text.of_mem_takeWhile, Identifier.isValid_of_leading? leads,
          fun u => Text.of_mem_takeWhile⟩
        rw [← behind_eq, List.takeWhile_append_dropWhile, eq, List.takeWhile_append_dropWhile]
      next => simp at clear

theorem bareParts_inclusion (spaces : ∀ u ∈ gap, isSpaceOrTab u)
    (inner : ∀ u ∈ path, (u != mark) = true) (uri : Uri) (offset : Nat) (rest : Text) :
    bareParts (inclusion uri offset
      (keyword .inclusion ++ (gap ++ mark :: (path ++ mark :: rest)))) =
      included uri path := by
  have quote : (gap ++ mark :: (path ++ mark :: rest)).dropWhile isSpaceOrTab =
      mark :: (path ++ mark :: rest) := Text.dropWhile_append_cons spaces (by decide) _
  have shorter : path.length ≠ (path ++ mark :: rest).length := by
    simp only [List.length_append, List.length_cons]
    omega
  simp only [inclusion, List.drop_left, Text.drop_length_takeWhile, quote, unit_mark,
    beq_self_eq_true, if_true, Text.takeWhile_append_cons inner (by simp : (mark != mark) = false),
    if_neg shorter, included]
  split <;> rfl

theorem exists_of_inclusion
    (clear : (bareParts (inclusion uri offset (keyword .inclusion ++ x))).2 = []) :
    ∃ gap path rest, x = gap ++ mark :: (path ++ mark :: rest) ∧ (∀ u ∈ gap, isSpaceOrTab u) ∧
      ∀ u ∈ path, (u != mark) = true := by
  simp only [inclusion, List.drop_left, Text.drop_length_takeWhile, bareParts, unit_mark] at clear
  split at clear
  next => simp at clear
  next u tail behind_eq =>
    split at clear
    next quote =>
      obtain rfl : u = mark := by simpa using quote
      split at clear
      next => simp at clear
      next shorter =>
        obtain ⟨rest, eq⟩ : ∃ rest, tail.dropWhile (· != mark) = mark :: rest := by
          have first := List.head?_dropWhile_not (· != mark) tail
          have parts := List.takeWhile_append_dropWhile (p := (· != mark)) (l := tail)
          cases eq : tail.dropWhile (· != mark) with
          | nil =>
            rw [eq, List.append_nil] at parts
            exact absurd (congrArg List.length parts) shorter
          | cons v rest => exact ⟨rest, by simpa [eq] using first⟩
        refine ⟨x.takeWhile isSpaceOrTab, tail.takeWhile (· != mark), rest, ?_,
          fun u => Text.of_mem_takeWhile, fun u => Text.of_mem_takeWhile⟩
        rw [← eq, List.takeWhile_append_dropWhile, ← behind_eq, List.takeWhile_append_dropWhile]
    next => simp at clear

/-! ### Blanks at the end -/

/-- What is cut off is a comment. -/
theorem exists_beforeComment_append (skip : Nat) (t : Text) : ∃ comment,
    Inline.beforeComment skip t ++ comment = t ∧ ∀ u ∈ comment.head?, u = Posix.slash := by
  induction t generalizing skip with
  | nil => exact ⟨[], rfl, by simp⟩
  | cons u t ih =>
    have next (skip : Nat) : ∃ comment, u :: Inline.beforeComment skip t ++ comment = u :: t ∧
        ∀ u ∈ comment.head?, u = Posix.slash := by
      obtain ⟨comment, eq, first⟩ := ih skip
      exact ⟨comment, congrArg (u :: ·) eq, first⟩
    cases skip with
    | succ skip => exact next skip
    | zero =>
      rw [Inline.beforeComment]
      split
      · exact next 1
      split
      next starts =>
        have slash : u = Posix.slash := by
          simp only [Inline.startsComment, Bool.and_eq_true, beq_iff_eq] at starts
          exact starts.1
        exact ⟨u :: t, rfl, by simpa using slash⟩
      · exact next 0

theorem prefix_beforeComment (skip : Nat) (t : Text) : Inline.beforeComment skip t <+: t :=
  have ⟨comment, eq, _⟩ := exists_beforeComment_append skip t
  ⟨comment, eq⟩

theorem beforeComment_append (blank : Blank gap) (skip : Nat) (t : Text) : ∃ gap', Blank gap' ∧
    Inline.beforeComment skip (t ++ gap) = Inline.beforeComment skip t ++ gap' := by
  induction t generalizing skip with
  | nil =>
    exact ⟨Inline.beforeComment skip gap,
      fun u mem => blank u ((prefix_beforeComment skip gap).subset mem), by cases skip <;> rfl⟩
  | cons u t ih =>
    have next (skip : Nat) : ∃ gap', Blank gap' ∧
        u :: Inline.beforeComment skip (t ++ gap) = u :: Inline.beforeComment skip t ++ gap' := by
      obtain ⟨gap', blank', eq⟩ := ih skip
      exact ⟨gap', blank', by rw [eq, List.cons_append]⟩
    cases skip with
    | succ skip => exact next skip
    | zero =>
      rw [List.cons_append, Inline.beforeComment, Inline.beforeComment,
        Inline.startsComment_append blank.apart]
      split
      · exact next 1
      split
      · exact ⟨[], by simp, rfl⟩
      · exact next 0

/-- Blanks at the end stay at the end. -/
theorem dropWhile_append_blank (blank : Blank gap) (t : Text) : ∃ gap', Blank gap' ∧
    (t ++ gap).dropWhile isSpaceOrTab = t.dropWhile isSpaceOrTab ++ gap' := by
  rw [List.dropWhile_append]
  split
  next none =>
    exact ⟨gap.dropWhile isSpaceOrTab, fun u mem => blank u ((List.dropWhile_suffix _).subset mem),
      by rw [List.isEmpty_iff.1 none, List.nil_append]⟩
  next => exact ⟨gap, blank, rfl⟩

theorem shown_append (blank : Blank gap) (t : Text) : shown (t ++ gap) = shown t := by
  obtain ⟨g, blank, eq⟩ := dropWhile_append_blank blank t
  obtain ⟨g', blank', eq'⟩ := beforeComment_append blank 0 (t.dropWhile isSpaceOrTab)
  rw [shown, eq, eq', Text.trimEnd_append_of_blank blank', shown]

theorem bareParts_heading_append (blank : Blank gap) (offset : Nat) (t : Text) :
    bareParts (heading offset (t ++ gap)) = bareParts (heading offset t) := by
  have other (u : UInt16) (blank : Text.isBlank u = true) : (u == Text.unit '=') = false := by
    refine beq_eq_false_iff_ne.2 ?_
    rintro rfl
    exact absurd blank (by decide)
  rw [bareParts_heading, bareParts_heading, Text.takeWhile_append_apart blank.apart other,
    Text.dropWhile_append_apart blank.apart other, shown_append blank]

theorem bareParts_binding_append (blank : Blank gap) (offset : Nat) (x : Text) :
    bareParts (binding offset (keyword .binding ++ (x ++ gap))) =
      bareParts (binding offset (keyword .binding ++ x)) := by
  obtain ⟨g, blank, eq⟩ := dropWhile_append_blank blank x
  simp only [binding, List.drop_left, Text.drop_length_takeWhile, eq,
    Identifier.leading?_append_apart blank.apart]
  cases leads : leading? (x.dropWhile isSpaceOrTab) with
  | none => rfl
  | some name =>
    obtain ⟨behind, behind_eq⟩ := Identifier.isPrefixOf_of_leading? leads
    obtain ⟨g', blank', eq'⟩ := dropWhile_append_blank blank behind
    simp only [← behind_eq, List.append_assoc, List.drop_left, eq']
    cases behind.dropWhile isSpaceOrTab with
    | nil =>
      cases g' with
      | nil => rfl
      | cons u g' =>
        have other : u ≠ Text.unit '=' := by
          rintro rfl
          exact absurd (Text.blank_cons.1 blank').1 (by decide)
        simp [other, bareParts]
    | cons u tail =>
      dsimp only [List.cons_append]
      split
      · simp only [shown_eq, shown_append blank', bareParts_bound]
      · rfl

theorem bareParts_inclusion_append (blank : Blank gap) (uri : Uri) (offset : Nat) (x : Text) :
    bareParts (inclusion uri offset (keyword .inclusion ++ (x ++ gap))) =
      bareParts (inclusion uri offset (keyword .inclusion ++ x)) := by
  obtain ⟨g, blank, eq⟩ := dropWhile_append_blank blank x
  have other (u : UInt16) (mem : u ∈ g) : (u != mark) = true := by
    refine bne_iff_ne.2 ?_
    rintro rfl
    exact absurd (blank _ mem) (by decide)
  simp only [inclusion, List.drop_left, Text.drop_length_takeWhile, eq, unit_mark]
  cases x.dropWhile isSpaceOrTab with
  | nil =>
    cases g with
    | nil => rfl
    | cons u g =>
      have other : u ≠ mark := by simpa using other u (by simp)
      simp [other, bareParts]
  | cons u tail =>
    dsimp only [List.cons_append]
    split
    next =>
      -- the closing quotation mark is not among the blanks
      by_cases closed : mark ∈ tail
      · obtain ⟨path, rest, rfl, inner⟩ := List.eq_append_cons_of_mem closed
        have inner' : ∀ u ∈ path, (u != mark) = true := fun u mem =>
          bne_iff_ne.2 fun eq => inner (eq ▸ mem)
        have path_eq (rest : Text) : (path ++ mark :: rest).takeWhile (· != mark) = path :=
          Text.takeWhile_append_cons inner' (by simp) rest
        have longer (rest : Text) : path.length ≠ (path ++ mark :: rest).length := by
          simp only [List.length_append, List.length_cons]
          omega
        simp only [List.append_assoc, List.cons_append, path_eq, if_neg (longer _)]
        split <;> rfl
      · have whole {t : Text} (all : ∀ u ∈ t, u ≠ mark) : t.takeWhile (· != mark) = t :=
          Text.takeWhile_eq_self fun u mem => bne_iff_ne.2 (all u mem)
        have inner : ∀ u ∈ tail, u ≠ mark := fun u mem eq => closed (eq ▸ mem)
        have inner' : ∀ u ∈ tail ++ g, u ≠ mark := fun u mem =>
          (List.mem_append.1 mem).elim (inner u) fun mem => bne_iff_ne.1 (other u mem)
        simp [whole inner, whole inner', bareParts]
    next => rfl

/-! ### Blanks in front -/

theorem beforeComment_blank_append (blank : Blank gap) (t : Text) :
    Inline.beforeComment 0 (gap ++ t) = gap ++ Inline.beforeComment 0 t := by
  induction gap with
  | nil => rfl
  | cons u gap ih =>
    rw [Text.blank_cons] at blank
    have other : (u == Inline.backslash) = false ∧ (u == Posix.slash) = false := by
      refine ⟨beq_eq_false_iff_ne.2 ?_, beq_eq_false_iff_ne.2 ?_⟩ <;> rintro rfl <;>
        exact absurd blank.1 (by decide)
    simp [Inline.beforeComment, Inline.startsComment, other, ih blank.2]

/-- Up to the blanks in front of it, what is shown does not depend on the blanks in front of the
text. -/
theorem trimStart_shown (t : Text) : Text.trimStart (shown t) =
    Text.trimEnd (Text.trimStart (Inline.beforeComment 0 (Text.trimStart t))) := by
  have spaces : Blank (t.takeWhile isSpaceOrTab) := fun u mem =>
    isBlank_of_isSpaceOrTab (Text.of_mem_takeWhile mem)
  have same : Text.trimStart (t.dropWhile isSpaceOrTab) = Text.trimStart t := by
    rw [← Text.trimStart_append spaces, List.takeWhile_append_dropWhile]
  obtain ⟨gap, blank, eq⟩ := Text.exists_blank_append_trimStart (t.dropWhile isSpaceOrTab)
  rw [shown, Text.trimStart_trimEnd, eq, beforeComment_blank_append blank,
    Text.trimStart_append blank, same]

/-- Text without blanks in front is shown without blanks in front. -/
theorem trimStart_shown_of_trimStart (start : Text.trimStart t = t) :
    Text.trimStart (shown t) = shown t := by
  have first : ∀ u ∈ t.head?, Text.isBlank u = false := fun u mem =>
    Text.not_isBlank_of_mem_head?_trimStart (t := t) (by rwa [start])
  have whole : t.dropWhile isSpaceOrTab = t := by
    cases t with
    | nil => rfl
    | cons u t =>
      have solid := first u (by simp)
      rw [List.dropWhile_cons, if_neg fun space => by simp [isBlank_of_isSpaceOrTab space] at solid]
  have start' : Text.trimStart (Inline.beforeComment 0 t) = Inline.beforeComment 0 t := by
    obtain ⟨behind, eq⟩ := prefix_beforeComment 0 t
    cases h : Inline.beforeComment 0 t with
    | nil => rfl
    | cons u shown =>
      rw [h, List.cons_append] at eq
      exact Text.trimStart_of_solid (first u (by simp [← eq])) shown
  rw [trimStart_shown, start, start', shown, whole]

theorem withoutLabels_blank_append (blank : Blank gap) (t : Text) :
    Inline.withoutLabels 0 (gap ++ t) = gap ++ Inline.withoutLabels 0 t := by
  induction gap with
  | nil => rfl
  | cons u gap ih =>
    rw [Text.blank_cons] at blank
    have other : (u == Text.unit '<') = false := by
      refine beq_eq_false_iff_ne.2 ?_
      rintro rfl
      exact absurd blank.1 (by decide)
    simp [Inline.withoutLabels, other, ih blank.2]

/-- Blanks in front of a title are nothing to a heading. -/
theorem headed_trimStart (level : Nat) (content : Text) :
    headed level (Text.trimStart content) = headed level content := by
  obtain ⟨gap, blank, eq⟩ := Text.exists_blank_append_trimStart content
  have title : Text.trim (Text.collapseBlanks false (Inline.withoutLabels 0 content)) =
      Text.trim (Text.collapseBlanks false (Inline.withoutLabels 0 (Text.trimStart content))) := by
    conv => lhs; rw [eq, withoutLabels_blank_append blank]
    rw [Text.trim, Text.trimStart_collapseBlanks_append blank, ← Text.trim]
  rw [headed, headed, Inline.reading_trimStart, title]

/-! ## Places -/

theorem bareParts_binding_start (offset : Nat) (t : Text) :
    bareParts (binding offset t) = bareParts (binding 0 t) := by
  simp only [binding]
  split
  · rfl
  · split
    · rfl
    · split
      · rw [bareParts_bound, bareParts_bound]
      · rfl

theorem bareParts_inclusion_start (uri : Uri) (offset : Nat) (t : Text) :
    bareParts (inclusion uri offset t) = bareParts (inclusion uri 0 t) := by
  simp only [inclusion]
  split
  · rfl
  · split
    · split
      · rfl
      · split <;> rfl
    · rfl

theorem opens_iff :
    opens d t = true ↔ ∃ x, t = keyword d ++ x ∧ ∀ u ∈ x.head?, isPart u = false := by
  rw [opens, Bool.and_eq_true, Text.startsWith, List.isPrefixOf_iff_prefix, Bool.not_eq_true',
    Option.any_eq_false]
  constructor
  · rintro ⟨⟨x, rfl⟩, other⟩
    exact ⟨x, rfl, by simpa using other⟩
  · rintro ⟨x, rfl, other⟩
    exact ⟨⟨x, rfl⟩, by simpa using other⟩

theorem opens_append (apart : Apart rest) (d : Directive) (t : Text) :
    opens d (t ++ rest) = opens d t := by
  rw [opens, opens, Text.startsWith_append d.solid_keyword apart]
  cases starts : t.startsWith d.keyword with
  | false => rfl
  | true =>
    obtain ⟨x, rfl⟩ := List.isPrefixOf_iff_prefix.1 starts
    rw [List.append_assoc, List.drop_left, List.drop_left, Bool.true_and, Bool.true_and,
      Text.head?_append_apart apart fun _ => Identifier.not_isPart_of_isBlank]

end LineRead

namespace Module

open LineRead (bareParts opens headed bound included shown)

variable {c t line marks tail gap gap' name path rest : Text} {uri : Uri} {es : List Emphasis}
  {opened : List OpenSign} {lines cs ds : List Text}

/-! ## Lines -/

def readContent (uri : Uri) (es : List Emphasis) (content : Text) : Reading :=
  (readLine uri (Emphasis.signs es) ⟨0, content⟩).bare

theorem bare_apart {read read' : List Item × List SyntaxError}
    (same : bareParts read = bareParts read')
    (opened : List OpenSign) : LineRead.bare ⟨read.1, Inline.unclosed opened ++ read.2, []⟩ =
      Reading.apart (opened.map OpenSign.emphasis) (bareParts read').1 (bareParts read').2 := by
  rw [← same]
  simp [LineRead.bare, Reading.apart, bareParts, LineRead.map_problem_unclosed]

theorem bare_readLine_eq (uri : Uri) (opened : List OpenSign) (start : Nat) (content : Text) :
    (readLine uri opened ⟨start, content⟩).bare =
      let es := opened.map OpenSign.emphasis
      let t := Text.trimStart content
      if t.isEmpty then ⟨[], Reading.unclosed es, []⟩
      else if t.startsWith "//" then .nothing es
      else if t.head? == some (Text.unit '=') then
        .apart es (bareParts (LineRead.heading 0 t)).1 (bareParts (LineRead.heading 0 t)).2
      else if opens .binding t then
        .apart es (bareParts (LineRead.binding 0 t)).1 (bareParts (LineRead.binding 0 t)).2
      else if opens .inclusion t then
        .apart es (bareParts (LineRead.inclusion uri 0 t)).1
          (bareParts (LineRead.inclusion uri 0 t)).2
      else Inline.reading es t := by
  rw [readLine]
  dsimp only
  split
  · simp [LineRead.bare, LineRead.map_problem_unclosed]
  split
  · simp [LineRead.bare, Reading.nothing]
  split
  · exact bare_apart (by rw [LineRead.bareParts_heading, LineRead.bareParts_heading]) opened
  split
  · exact bare_apart (LineRead.bareParts_binding_start _ _) opened
  split
  · exact bare_apart (LineRead.bareParts_inclusion_start _ _ _) opened
  · exact Inline.bare_scan_eq rfl

theorem bare_readLine (uri : Uri) (opened : List OpenSign) (l : Line) :
    (readLine uri opened l).bare = readContent uri (opened.map OpenSign.emphasis) l.content := by
  obtain ⟨start, content⟩ := l
  rw [readContent, bare_readLine_eq, bare_readLine_eq, Emphasis.map_signs]

theorem readContent_eq (uri : Uri) (es : List Emphasis) (content : Text) :
    readContent uri es content =
    let t := Text.trimStart content
    if t.isEmpty then ⟨[], Reading.unclosed es, []⟩
    else if t.startsWith "//" then .nothing es
    else if t.head? == some (Text.unit '=') then
      .apart es (bareParts (LineRead.heading 0 t)).1 (bareParts (LineRead.heading 0 t)).2
    else if opens .binding t then
      .apart es (bareParts (LineRead.binding 0 t)).1 (bareParts (LineRead.binding 0 t)).2
    else if opens .inclusion t then
      .apart es (bareParts (LineRead.inclusion uri 0 t)).1
        (bareParts (LineRead.inclusion uri 0 t)).2
    else Inline.reading es t := by
  rw [readContent, bare_readLine_eq, Emphasis.map_signs]

theorem readContent_blank (blank : Blank c) (uri : Uri) (es : List Emphasis) :
    readContent uri es c = ⟨[], Reading.unclosed es, []⟩ := by
  simp [readContent_eq, blank.trimStart]

theorem readContent_heading (first : (Text.trimStart c).head? = some (Text.unit '=')) (uri : Uri)
    (es : List Emphasis) : readContent uri es c = .apart es
      (headed ((Text.trimStart c).takeWhile (· == Text.unit '=')).length
        (shown ((Text.trimStart c).dropWhile (· == Text.unit '=')))).1
      (headed ((Text.trimStart c).takeWhile (· == Text.unit '=')).length
        (shown ((Text.trimStart c).dropWhile (· == Text.unit '=')))).2 := by
  obtain ⟨t, eq⟩ : ∃ t, Text.trimStart c = Text.unit '=' :: t := by
    cases eq : Text.trimStart c with
    | nil => simp [eq] at first
    | cons u t => exact ⟨t, by simpa [eq] using first⟩
  have slashes : Text.startsWith (Text.unit '=' :: t) "//" = false := rfl
  rw [readContent_eq, ← LineRead.bareParts_heading 0, eq]
  simp [slashes]

theorem readContent_binding (opens_ : opens .binding (Text.trimStart c)) (uri : Uri)
    (es : List Emphasis) : readContent uri es c = .apart es
      (bareParts (LineRead.binding 0 (Text.trimStart c))).1
      (bareParts (LineRead.binding 0 (Text.trimStart c))).2 := by
  obtain ⟨x, eq, -⟩ := LineRead.opens_iff.1 opens_
  have slashes : (keyword .binding ++ x).startsWith "//" = false := rfl
  have sign : ((keyword .binding ++ x).head? == some (Text.unit '=')) = false := rfl
  have some_ : (keyword .binding ++ x).isEmpty = false := rfl
  rw [readContent_eq]
  rw [eq] at opens_ ⊢
  simp only [some_, slashes, sign, opens_, Bool.false_eq_true, if_false, if_true]

theorem readContent_inclusion (opens_ : opens .inclusion (Text.trimStart c)) (uri : Uri)
    (es : List Emphasis) : readContent uri es c = .apart es
      (bareParts (LineRead.inclusion uri 0 (Text.trimStart c))).1
      (bareParts (LineRead.inclusion uri 0 (Text.trimStart c))).2 := by
  obtain ⟨x, eq, -⟩ := LineRead.opens_iff.1 opens_
  have slashes : (keyword .inclusion ++ x).startsWith "//" = false := rfl
  have sign : ((keyword .inclusion ++ x).head? == some (Text.unit '=')) = false := rfl
  have some_ : (keyword .inclusion ++ x).isEmpty = false := rfl
  have other : opens .binding (keyword .inclusion ++ x) = false := rfl
  rw [readContent_eq]
  rw [eq] at opens_ ⊢
  simp only [some_, slashes, sign, other, opens_, Bool.false_eq_true, if_false, if_true]

theorem readContent_text (visible : ¬ Blank c) (quiet : (Text.trimStart c).startsWith "//" = false)
    (plain : (Text.trimStart c).head? ≠ some (Text.unit '='))
    (other : ∀ d, opens d (Text.trimStart c) = false) (uri : Uri) (es : List Emphasis) :
    readContent uri es c = Inline.reading es c := by
  have some_ : (Text.trimStart c).isEmpty = false := by
    simpa [← Text.trimStart_eq_nil_iff] using visible
  rw [readContent_eq, ← Inline.reading_trimStart]
  simp [quiet, plain, other, some_]

theorem readContent_trimEnd (uri : Uri) (es : List Emphasis) (c : Text) :
    readContent uri es (Text.trimEnd c) = readContent uri es c := by
  obtain ⟨gap, eq, blank⟩ := Text.exists_trimEnd_append c
  have blank : Blank gap := List.all_eq_true.1 blank
  by_cases visible : Blank (Text.trimEnd c)
  · have all : Blank c := by rw [eq]; exact Text.blank_append.2 ⟨visible, blank⟩
    rw [readContent_blank visible, readContent_blank all]
  · obtain ⟨indent, indented, start⟩ := Text.exists_blank_append_trimStart (Text.trimEnd c)
    generalize t_eq : Text.trimStart (Text.trimEnd c) = t at start
    have some_ : t ≠ [] := by rwa [← t_eq, Ne, Text.trimStart_eq_nil_iff]
    obtain ⟨u, t, rfl⟩ := List.exists_cons_of_ne_nil some_
    have solid : Text.isBlank u = false :=
      Text.not_isBlank_of_mem_head?_trimStart (t := Text.trimEnd c) (by simp [t_eq])
    have start' : Text.trimStart c = u :: t ++ gap := by
      rw [eq, start, List.append_assoc, Text.trimStart_append indented, List.cons_append,
        Text.trimStart_of_solid solid]
    have opens_eq (d : Directive) : opens d (u :: t ++ gap) = opens d (u :: t) :=
      LineRead.opens_append blank.apart d (u :: t)
    have binding_eq (opens_ : opens .binding (u :: t) = true) :
        bareParts (LineRead.binding 0 (u :: t ++ gap)) =
          bareParts (LineRead.binding 0 (u :: t)) := by
      obtain ⟨x, eq, -⟩ := LineRead.opens_iff.1 opens_
      rw [eq, List.append_assoc, LineRead.bareParts_binding_append blank]
    have inclusion_eq (opens_ : opens .inclusion (u :: t) = true) :
        bareParts (LineRead.inclusion uri 0 (u :: t ++ gap)) =
          bareParts (LineRead.inclusion uri 0 (u :: t)) := by
      obtain ⟨x, eq, -⟩ := LineRead.opens_iff.1 opens_
      rw [eq, List.append_assoc, LineRead.bareParts_inclusion_append blank]
    have slashes : Text.startsWith (u :: t ++ gap) "//" = Text.startsWith (u :: t) "//" :=
      Text.startsWith_append (Text.solid_of_any (by decide)) blank.apart (u :: t)
    have first : (u :: t ++ gap).head? = (u :: t).head? := rfl
    have some_ : (u :: t ++ gap).isEmpty = (u :: t).isEmpty := rfl
    rw [readContent_eq, readContent_eq, t_eq, start']
    dsimp only
    rw [slashes, opens_eq, opens_eq, LineRead.bareParts_heading_append blank,
      Inline.reading_append_blank blank, first, some_]
    split
    · rfl
    split
    · rfl
    split
    · rfl
    split
    next opens_ => rw [binding_eq opens_]
    split
    next opens_ => rw [inclusion_eq opens_]
    · rfl

/-! ## Documents -/

def readContents (uri : Uri) (es : List Emphasis) : List Text → Reading
  | [] => .nothing es
  | c :: cs => (readContent uri es c).andThen fun es => readContents uri es cs

theorem readContents_append (uri : Uri) (es : List Emphasis) (cs ds : List Text) :
    readContents uri es (cs ++ ds) =
      (readContents uri es cs).andThen fun es => readContents uri es ds := by
  induction cs generalizing es with
  | nil => simp [readContents]
  | cons c cs ih => simp only [List.cons_append, readContents, Reading.andThen_assoc, ih]

theorem bareParts_readLines (uri : Uri) (opened : List OpenSign) (ls : List Line) :
    let found := readContents uri (opened.map OpenSign.emphasis) (ls.map Line.content)
    bareParts (readLines uri opened ls) =
      (found.items, found.problems ++ Reading.unclosed found.opened) := by
  induction ls generalizing opened with
  | nil => simp [readLines, readContents, Reading.nothing, bareParts, LineRead.map_problem_unclosed]
  | cons l ls ih =>
    have first := bare_readLine uri opened l
    have others := ih (readLine uri opened l).opened
    simp only [bareParts, Prod.mk.injEq] at others
    simp only [List.map_cons, readContents, ← first, Reading.andThen, bareParts, readLines,
      List.map_append, others, LineRead.bare, List.append_assoc]

theorem bare_read (uri : Uri) (t : Text) :
    (read uri t).items.map Item.bare = (readContents uri [] t.contents).items ∧
      ((read uri t).errors = [] ↔ (readContents uri [] t.contents).problems = [] ∧
        (readContents uri [] t.contents).opened = []) := by
  have parts := bareParts_readLines uri [] t.lines
  simp only [bareParts, Prod.mk.injEq, List.map_nil] at parts
  refine ⟨parts.1, ?_⟩
  have sorted : (read uri t).errors = [] ↔ (readLines uri [] t.lines).2 = [] := by
    have same : (read uri t).errors.Perm (readLines uri [] t.lines).2 := sortBy_perm _ _
    constructor
    · exact fun none => List.perm_nil.1 (none ▸ same).symm
    · exact fun none => List.perm_nil.1 (none ▸ same)
  rw [sorted, ← List.map_eq_nil_iff (f := SyntaxError.problem), parts.2, List.append_eq_nil_iff,
    Reading.unclosed_eq_nil_iff]
  rfl

end Module

end Quill
