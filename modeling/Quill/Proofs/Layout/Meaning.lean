import Quill.Proofs.Layout.Document
import Quill.Proofs.Markup.Contents

/-!
# What a formatted document says

The formatter has rules of its own for what a line is. Where it takes every line for what the reader
takes it for, a formatted document says what the document said: nothing but places changes.

## Main definitions

* `Layout.behindSign` — what stands behind the first equals sign of a line.
* `Layout.IsUnderstood` — a line that the formatter takes for what the reader takes it for.

## Main statements

* `Layout.readContents_format` — a line says what the lines say that it becomes.
* `Layout.read_formatText` — a formatted document has the items of the document, and no errors.
-/

namespace Quill.Layout

open Directive (keyword)
open Includes (mark)
open Identifier (not_isBlank_of_isPart isPart_of_isValid)
open Inline (readWords reading)
open LineRead (bareParts opens headed bound included shown)
open Quill.Module (readContent readContents)
open Text (Blank IsWord Apart)

variable {line c name value path rest tail : Text} {width : Int} {uri : Uri} {es : List Emphasis}
  {d : Directive} {lines : List Text} {pending started : Bool}

def behindSign (line : Text) : Text := (line.dropWhile (· != equals)).tail

/-- The value of a binding has no blank in front that the reader keeps, and no line that is cut is a
directive to the reader. -/
structure IsUnderstood (width : Int) (line : Text) : Prop where
  value :
  (binding? line).isSome → Text.trimStart (shown (behindSign line)) = shown (behindSign line)
  text : IsBroken width line → ∀ d, opens d (Text.trimStart line) = false

instance (width : Int) (line : Text) : Decidable (IsUnderstood width line) :=
  decidable_of_iff (((binding? line).isSome → Text.trimStart (shown (behindSign line)) =
    shown (behindSign line)) ∧
      (IsBroken width line → ∀ d ∈ Directive.all, opens d (Text.trimStart line) = false))
    ⟨fun ⟨value, text⟩ =>
      ⟨value, fun broken d => text broken d (by cases d <;> simp [Directive.all])⟩,
      fun ⟨value, text⟩ => ⟨value, fun broken d _ => text broken d⟩⟩

/-! ## Headings -/

theorem readContent_of_isHeading {marks : Text} (h : IsHeading (Text.trimStart c) marks tail)
    (uri : Uri) (es : List Emphasis) : readContent uri es c =
      .apart es (headed marks.length (shown tail)).1 (headed marks.length (shown tail)).2 := by
  have first : (Text.trimStart c).head? = some (Text.unit '=') := by
    obtain ⟨u, marks, rfl⟩ := List.exists_cons_of_ne_nil h.ne_nil
    simp [h.eq, h.inside u (by simp), unit_equals]
  rw [Module.readContent_heading first, unit_equals, h.takeWhile_eq, h.dropWhile_eq]

theorem trimStart_behind (start : Text.trimStart value = value) :
    Text.trimStart (behind value) = value := by
  unfold behind
  split
  next none => rw [List.isEmpty_iff.1 none]; rfl
  next => exact (Text.trimStart_append Text.blank_space _).trans start

/-- Blanks in front of a title say nothing. -/
theorem readContent_heading (kind : kindOf line = .heading) (uri : Uri) (es : List Emphasis) :
    readContent uri es (heading line) = readContent uri es line := by
  obtain ⟨marks, tail, h⟩ := exists_isHeading kind
  rw [h.heading_eq]
  cases found : restOfLine? tail with
  | none => rfl
  | some title =>
    have start := trimStart_of_restOfLine? found
    have same : headed marks.length (shown (behind title)) = headed marks.length (shown tail) := by
      rw [← LineRead.headed_trimStart, LineRead.trimStart_shown, trimStart_behind start,
        ← (restOfLine?_eq_some_iff.1 found).1, ← LineRead.trimStart_shown,
        LineRead.headed_trimStart]
    rw [Option.map_some, Option.getD_some, readContent_of_isHeading (h.spaced_title title),
      readContent_of_isHeading h, same]

/-! ## Directives -/

theorem apart_problems_eq_nil_iff {items : List Item} {problems : List SyntaxProblem} :
    (Reading.apart es items problems).problems = [] ↔ es = [] ∧ problems = [] := by
  simp [Reading.apart]

theorem blank_of_spaces {gap : Text} (spaces : ∀ u ∈ gap, Text.isSpaceOrTab u) :
    Blank gap := fun u mem =>
  LineRead.isBlank_of_isSpaceOrTab (spaces u mem)

theorem spaces_space : ∀ u ∈ [Text.unit ' '], Text.isSpaceOrTab u := by simp [Text.isSpaceOrTab]

/-- A directive with a blank behind its word is one to the reader, too. -/
theorem opens_of_gap {t gap : Text} (eq : t = keyword d ++ (gap ++ rest)) (ne : gap ≠ [])
    (blank : Blank gap) :
    opens d t = true := by
  refine LineRead.opens_iff.2 ⟨_, eq, fun u first => ?_⟩
  obtain ⟨v, gap, rfl⟩ := List.exists_cons_of_ne_nil ne
  obtain rfl : v = u := by simpa using first
  exact Identifier.not_isPart_of_isBlank (blank v (by simp))

/-- The reading of a binding line with nothing but spaces and tabs in its gaps. -/
theorem readContent_of_isBinding {gap gap' : Text}
    (eq : Text.trimStart c = keyword .binding ++ (gap ++ (name ++ (gap' ++ equals :: rest))))
    (ne : gap ≠ []) (spaces : ∀ u ∈ gap, Text.isSpaceOrTab u)
    (spaces' : ∀ u ∈ gap', Text.isSpaceOrTab u)
    (valid : Identifier.isValid name) (uri : Uri) (es : List Emphasis) :
    readContent uri es c = .apart es (bound name (shown rest)).1 (bound name (shown rest)).2 := by
  have opens_ := opens_of_gap eq ne (blank_of_spaces spaces)
  rw [Module.readContent_binding opens_, eq, ← unit_equals,
    LineRead.bareParts_binding spaces spaces' valid]

/-- The value of a binding line stands behind its first equals sign. -/
theorem IsBinding.behindSign_eq (binding : IsBinding (Text.trimStart line) name rest) :
    behindSign line = rest := by
  obtain ⟨gap, gap', eq, -, blank, blank', valid⟩ := binding
  obtain ⟨indent, indented, line_eq⟩ := Text.exists_blank_append_trimStart line
  have not_blank {t : Text} (blank : Blank t) : ∀ u ∈ t, (u != equals) = true := fun u mem => by
    refine bne_iff_ne.2 ?_
    rintro rfl
    exact absurd (blank _ mem) (by decide)
  have not_name : ∀ u ∈ name, (u != equals) = true := fun u mem => by
    refine bne_iff_ne.2 ?_
    rintro rfl
    exact absurd (Identifier.isPart_of_isValid valid _ mem) (by decide)
  have inside : ∀ u ∈ indent ++ (keyword .binding ++ (gap ++ (name ++ gap'))),
      (u != equals) = true := by
    have word : ∀ u ∈ keyword .binding, (u != equals) = true := List.all_eq_true.1 (by decide)
    simp only [List.mem_append]
    rintro u (mem | mem | mem | mem | mem)
    · exact not_blank indented u mem
    · exact word u mem
    · exact not_blank blank u mem
    · exact not_name u mem
    · exact not_blank blank' u mem
  have shape : line = indent ++ (keyword .binding ++ (gap ++ (name ++ gap'))) ++
      equals :: rest := by
    rw [line_eq, eq]
    simp
  rw [behindSign, shape, Text.dropWhile_append_cons inside (by simp)]
  rfl

theorem shown_behind (value : Text) : shown (behind value) = shown value := by
  unfold behind
  split
  next none => rw [List.isEmpty_iff.1 none]
  next => rfl

/-- The layout of a binding line without a problem says what the line says. -/
theorem readContent_binding (found : binding? line = some (name, value))
    (start : Text.trimStart (shown (behindSign line)) = shown (behindSign line))
    (clear : (readContent uri es line).problems = []) :
    readContent uri es (bindingLine name value) = readContent uri es line := by
  obtain ⟨rest, binding, rest_eq⟩ := binding?_eq_some_iff.1 found
  obtain ⟨gap, gap', eq, ne, blank, blank', valid⟩ := id binding
  have opens_ := opens_of_gap eq ne blank
  rw [Module.readContent_binding opens_, apart_problems_eq_nil_iff, eq] at clear
  obtain ⟨g, n, g', tail, parts, spaces, valid', spaces'⟩ := LineRead.exists_of_binding clear.2
  rw [unit_equals] at parts
  -- the reader finds the name and the value that the formatter finds
  have some_gap : g ≠ [] := by
    rintro rfl
    obtain ⟨v, gap, rfl⟩ := List.exists_cons_of_ne_nil ne
    obtain ⟨u, n, rfl⟩ :=
      List.exists_cons_of_ne_nil (l := n) (by rintro rfl; simp [Identifier.isValid] at valid')
    obtain rfl : v = u := by simpa using (List.cons.inj parts).1
    have := not_isBlank_of_isPart (isPart_of_isValid valid' v (by simp))
    simp [blank v (by simp)] at this
  have binding' : IsBinding (Text.trimStart line) n tail :=
    ⟨g, g', by rw [eq, parts], some_gap, blank_of_spaces spaces, blank_of_spaces spaces', valid'⟩
  obtain rfl : tail = rest := by rw [← binding'.behindSign_eq, binding.behindSign_eq]
  obtain rfl : n = name := by
    have := binding?_eq_some_iff.2 ⟨_, binding', rest_eq⟩
    simpa [found] using this.symm
  have value_start := trimStart_of_restOfLine? rest_eq
  have layout : Text.trimStart (bindingLine n value) = keyword .binding ++
      ([Text.unit ' '] ++ (n ++ ([Text.unit ' '] ++ equals :: behind value))) := by
    rw [bindingLine_eq]; rfl
  have same : shown (behind value) = shown tail := by
    rw [binding.behindSign_eq] at start
    calc shown (behind value)
        = shown value := shown_behind value
      _ = Text.trimStart (shown value) := (LineRead.trimStart_shown_of_trimStart value_start).symm
      _ = Text.trimStart (shown tail) := by
        rw [LineRead.trimStart_shown, LineRead.trimStart_shown, value_start,
          (restOfLine?_eq_some_iff.1 rest_eq).1]
      _ = shown tail := start
  rw [readContent_of_isBinding layout (by simp) spaces_space spaces_space valid, same,
    readContent_of_isBinding (by rw [eq, parts]) some_gap spaces spaces' valid]

/-- The reading of an include line with nothing but spaces and tabs in its gap. -/
theorem readContent_of_isInclusion {gap : Text}
    (eq : Text.trimStart c = keyword .inclusion ++ (gap ++ mark :: (path ++ mark :: rest)))
    (ne : gap ≠ []) (spaces : ∀ u ∈ gap, Text.isSpaceOrTab u)
    (inner : ∀ u ∈ path, (u != mark) = true) (uri : Uri) (es : List Emphasis) :
    readContent uri es c = .apart es (included uri path).1 (included uri path).2 := by
  have opens_ := opens_of_gap eq ne (blank_of_spaces spaces)
  rw [Module.readContent_inclusion opens_, eq, LineRead.bareParts_inclusion spaces inner]

/-- The layout of an include line without a problem says what the line says. -/
theorem readContent_inclusion (found : inclusion? line = some (path, value))
    (clear : (readContent uri es line).problems = []) :
    readContent uri es (inclusionLine path value) = readContent uri es line := by
  obtain ⟨rest, ⟨gap, eq, ne, blank, inner⟩, -⟩ := inclusion?_eq_some_iff.1 found
  have opens_ := opens_of_gap eq ne blank
  rw [Module.readContent_inclusion opens_, apart_problems_eq_nil_iff, eq] at clear
  obtain ⟨g, p, rest', parts, spaces, inner'⟩ := LineRead.exists_of_inclusion clear.2
  -- nothing before the first quotation mark is one, and nothing in the path
  have solid : Text.trimStart (mark :: (path ++ mark :: rest)) = mark :: (path ++ mark :: rest) :=
    Text.trimStart_of_solid isBlank_mark _
  have solid' : Text.trimStart (mark :: (p ++ mark :: rest')) = mark :: (p ++ mark :: rest') :=
    Text.trimStart_of_solid isBlank_mark _
  have quoted : path ++ mark :: rest = p ++ mark :: rest' := by
    have trimmed := congrArg Text.trimStart parts
    rw [Text.trimStart_append blank, Text.trimStart_append (blank_of_spaces spaces), solid,
      solid'] at trimmed
    exact (List.cons.inj trimmed).2
  have outside : (mark != mark) = false := by simp
  obtain rfl : p = path := by
    rw [← Text.takeWhile_append_cons inner' outside rest', ← quoted,
      Text.takeWhile_append_cons inner outside rest]
  have some_gap : g ≠ [] := by
    rintro rfl
    obtain ⟨v, gap, rfl⟩ := List.exists_cons_of_ne_nil ne
    obtain rfl : v = mark := (List.cons.inj parts).1
    exact absurd (Text.blank_cons.1 blank).1 (by decide)
  have layout : Text.trimStart (inclusionLine p value) = keyword .inclusion ++
      ([Text.unit ' '] ++ mark :: (p ++ mark :: behind value)) := by
    rw [inclusionLine_eq]; rfl
  rw [readContent_of_isInclusion layout (by simp) spaces_space inner,
    readContent_of_isInclusion (by rw [eq, parts]) some_gap spaces inner]

/-! ## Pieces of text -/

variable {pieces : List Piece} {p : Piece}

theorem head?_eq_iff {t : Text} : t.head? = some (Text.unit '=') ↔ t.startsWith "=" = true := by
  rw [Text.startsWith, ofString_equals, unit_equals]
  cases t with
  | nil => simp
  | cons u t => simpa [List.isPrefixOf] using eq_comm

theorem readContent_piece (cut : Cut width line pieces) (broken : IsBroken width line)
    (other : ∀ d, opens d (Text.trimStart line) = false) (mem : p ∈ pieces) (uri : Uri)
    (es : List Emphasis) : readContent uri es (indentOf line ++ p.text) = readWords es p.words := by
  obtain ⟨comment, plain⟩ := cut.startsWith_text broken mem
  have start_eq := cut.trimStart_eq mem
  have quiet : ∀ w ∈ Text.words (indentOf line ++ p.text), Text.occursIn "//" w = false := by
    rw [cut.words_piece mem]
    exact fun w hw => broken.quiet (cut.mem_words mem hw)
  rw [Module.readContent_text, Inline.reading_eq_readWords quiet, cut.words_piece mem]
  · rw [← Text.trimStart_eq_nil_iff, start_eq]
    exact cut.text_ne_nil mem
  · rwa [start_eq]
  · rwa [start_eq, Ne, head?_eq_iff, Bool.not_eq_true]
  · intro d
    rw [start_eq]
    cases start : canStartLine p.1 with
    | true =>
      simp only [canStartLine, Bool.not_eq_true', Bool.or_eq_false_iff] at start
      have word : Text.startsWith p.text (keyword d) = false := by
        rw [Piece.startsWith_text d.solid_keyword]
        cases d
        · exact start.1.2
        · exact start.2
      simp [opens, word]
    | false =>
      -- the first word of the line decides
      obtain ⟨rest, line_eq, apart⟩ := cut.exists_of_not_canStartLine broken.kind mem start
      obtain ⟨rest', text_eq, apart'⟩ := p.text_eq
      have := other d
      rwa [line_eq, LineRead.opens_append apart, ← LineRead.opens_append apart', ← text_eq] at this

/-- The pieces say what the line says. -/
theorem readContents_broken (broken : IsBroken width line)
    (other : ∀ d, opens d (Text.trimStart line) = false) (uri : Uri) (es : List Emphasis) :
    readContents uri es (format width line) = readContent uri es line := by
  obtain ⟨pieces, cut⟩ := broken.exists_cut
  obtain ⟨visible, comment, plain, -⟩ := kindOf_eq_text_iff.1 broken.kind
  have each : ∀ ps : List Piece, (∀ p ∈ ps, p ∈ pieces) → ∀ es,
      readContents uri es (ps.map (indentOf line ++ Piece.text ·)) =
        readWords es (ps.flatMap Piece.words) := by
    intro ps
    induction ps with
    | nil => exact fun _ _ => rfl
    | cons p ps ih =>
      intro sub es
      rw [List.map_cons, readContents, List.flatMap_cons, Inline.readWords_append,
        readContent_piece cut broken other (sub p (by simp))]
      exact congrArg _ (funext (ih fun q mem => sub q (by simp [mem])))
  rw [cut.format_eq, each pieces (fun _ mem => mem), cut.words_eq,
    Module.readContent_text visible comment (by rwa [Ne, head?_eq_iff, Bool.not_eq_true]) other,
    Inline.reading_eq_readWords fun w mem => broken.quiet mem]

/-! ## Documents -/

/-- A line without a problem says what the lines say that it becomes. -/
theorem readContents_format (understood : IsUnderstood width line) (visible : ¬ Blank line)
    (clear : (readContent uri es line).problems = []) :
    readContents uri es (format width line) = readContent uri es line := by
  have alone (c : Text) : readContents uri es [c] = readContent uri es c := by
    simp only [readContents]
    exact Reading.andThen_nothing _
  cases kind : kindOf line with
  | blank => exact absurd (kindOf_eq_blank_iff.1 kind) visible
  | comment => simp [format, kind, alone]
  | heading => rw [format, kind, alone, readContent_heading kind]
  | directive =>
    obtain ⟨t, found⟩ := kindOf_eq_directive kind
    rw [format, kind, found, Option.getD_some, alone]
    rcases directive?_eq_some_iff.1 found with ⟨name, value, eq, rfl⟩ | ⟨-, path, value, eq, rfl⟩
    · exact readContent_binding eq (understood.value (by simp [eq])) clear
    · exact readContent_inclusion eq clear
  | text =>
    by_cases broken : IsBroken width line
    · exact readContents_broken broken (understood.text broken) uri es
    · rw [format_eq_of_text kind broken, alone]

/-- Formatted lines say what the lines say, if these have no problem. A blank line is held back only
where it is no problem. -/
theorem readContents_formatLines (understood : ∀ l ∈ lines, IsUnderstood width (Text.trimEnd l))
    (clear : (readContents uri es lines).problems = []) (closed : pending = true → es = []) :
    readContents uri es (formatLines width pending started lines) = readContents uri es lines := by
  induction lines generalizing es pending started with
  | nil => rfl
  | cons raw lines ih =>
    have later {es pending started} :=
      @ih es pending started fun l mem => understood l (by simp [mem])
    obtain ⟨first, others⟩ : (readContent uri es raw).problems = [] ∧
        (readContents uri (readContent uri es raw).opened lines).problems = [] := by
      simpa [readContents, Reading.andThen] using clear
    rw [formatLines, readContents]
    split
    next none =>
      -- nothing is open at a blank line
      have blank : Blank raw := Text.trimEnd_eq_nil_iff.1 (List.isEmpty_iff.1 none)
      rw [Module.readContent_blank blank] at first others ⊢
      obtain rfl : es = [] := Reading.unclosed_eq_nil_iff.1 first
      exact later others fun _ => rfl
    next some_ =>
      have visible : ¬ Blank (Text.trimEnd raw) := fun blank => some_ (by
        rw [← Text.trimEnd_trimEnd, Text.trimEnd_eq_nil_iff.2 blank]; rfl)
      have held : readContents uri es (if pending then [[]] else []) = .nothing es := by
        cases pending with
        | false => rfl
        | true =>
          obtain rfl := closed rfl
          rfl
      have same := readContents_format (understood raw (by simp)) visible
        (by rwa [Module.readContent_trimEnd])
      rw [Module.readContents_append, Module.readContents_append, held, Reading.nothing_andThen,
        same, Module.readContent_trimEnd]
      have rest :
          readContents uri (readContent uri es raw).opened (formatLines width false true lines) =
          readContents uri (readContent uri es raw).opened lines :=
        later others fun held => absurd held Bool.false_ne_true
      simp only [Reading.andThen, rest]

/-- A formatted document has the items of the document and no errors, if that has none and the
formatter takes its lines for what the reader takes them for. -/
theorem read_formatText (uri : Uri) (width : Int) (t : Text)
    (understood : ∀ l ∈ t.lines, IsUnderstood width (Text.trimEnd l.content))
    (clear : (Module.read uri t).errors = []) :
    (Module.read uri (formatText width t)).errors = [] ∧
      (Module.read uri (formatText width t)).items.map Item.bare =
        (Module.read uri t).items.map Item.bare := by
  have understood' : ∀ l ∈ t.contents, IsUnderstood width (Text.trimEnd l) := by
    intro l mem
    obtain ⟨l', inside, rfl⟩ := List.mem_map.1 mem
    exact understood l' inside
  obtain ⟨problems, opened⟩ := (Module.bare_read uri t).2.1 clear
  have same : readContents uri [] (formatText width t).contents = readContents uri
      [] t.contents := by
    rw [contents_formatText, Module.readContents_append,
      readContents_formatLines understood' problems (by simp), Reading.andThen, opened]
    have last : readContents uri [] [[]] = .nothing [] := rfl
    rw [last]
    ext1 <;> simp [Reading.nothing, opened]
  rw [(Module.bare_read uri _).2, (Module.bare_read uri _).1, (Module.bare_read uri t).1, same]
  exact ⟨⟨problems, opened⟩, rfl⟩

/-- A heading, an include line and a binding with other blanks in them, and text that is cut in the
middle of an emphasis. -/
theorem read_formatText_mixed :
    let t :
        Text := "==\u00a0Title <a>  \n\n\n#include\t\"b.quill\"  //\n#let x=1\n  see *@a  and* #x"
    (∀ l ∈ t.lines, IsUnderstood 12 (Text.trimEnd l.content)) ∧
      (Module.read "file:///ws/m.quill" t).errors = [] ∧
      (Module.read "file:///ws/m.quill" (formatText 12 t)).items.map Item.bare =
        (Module.read "file:///ws/m.quill" t).items.map Item.bare :=
  ⟨by decide +kernel, by decide +kernel, (read_formatText _ 12 _ (by decide +kernel)
    (by decide +kernel)).2⟩

/-- The reader takes a directive for one without a blank behind its word, the formatter takes it for
text and cuts its path. -/
theorem not_read_formatText : ¬ ∀ (uri : Uri) (width : Int) (t : Text), 1 ≤ width →
    (Module.read uri t).errors = [] →
    (Module.read uri (formatText width t)).errors = [] ∧
      (Module.read uri (formatText width t)).items.map Item.bare =
        (Module.read uri t).items.map Item.bare := by
  intro kept
  have clear : (Module.read "/ws/main.quill" "#include\"a b.quill\"").errors = [] := by
    decide +kernel
  have problem : (Module.read "/ws/main.quill" (formatText 10 "#include\"a b.quill\"")).errors ≠
      [] := by
    decide +kernel
  exact problem (kept _ 10 _ (by decide) clear).1

end Quill.Layout
