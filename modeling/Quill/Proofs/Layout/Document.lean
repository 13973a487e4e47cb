import Mathlib.Data.List.Basic
import Quill.Layout.Document
import Quill.Proofs.Layout.Pieces
import Quill.Proofs.Text.Lines

/-!
# Formatted documents

The formatted text is made of lines that have their layout, so that formatting it again changes
nothing. The formatter takes lines apart and puts them together again, and in all this it moves
blanks only: what can be seen of a document is there again, in the same order.

## Main definitions

* `Text.visible` — the units of a text that are not blank.

## Main statements

* `Layout.contents_formatText` — the lines of a formatted text.
* `Layout.formatText_formatText` — formatting is stable, unless a line with a line separator of
  Unicode is broken that starts with the word of a directive.
* `Text.visible_eq_flatMap` — what can be seen of a text is what can be seen of its lines.
* `Layout.visible_format` — a line becomes lines with the same visible units.
* `Layout.visible_formatText` — a document becomes a document with the same visible units.
-/

namespace Quill.Layout

open Text (contents Unbroken isBreak)

variable {t line p : Text} {lines : List Text} {width : Int} {u : UInt16} {pending started : Bool}

/-! ## The lines of a formatted text -/

theorem lineBreak_cases (t : Text) : lineBreak t = [Text.carriageReturn, Text.lineFeed] ∨
    lineBreak t = [Text.lineFeed] := by
  unfold lineBreak
  split <;> simp

/-- Lines with line breaks behind them are read again as these lines, and an empty one at the
end. -/
theorem contents_flatMap (t : Text) (unbroken : ∀ l ∈ lines, Unbroken l) :
    contents (lines.flatMap (· ++ lineBreak t)) = lines ++ [[]] := by
  induction lines with
  | nil => rfl
  | cons l lines ih =>
    have first := unbroken l (by simp)
    have later := ih fun l' mem => unbroken l' (by simp [mem])
    rcases lineBreak_cases t with eq | eq
    · have shape : (l :: lines).flatMap (· ++ lineBreak t) =
          l ++ Text.carriageReturn :: Text.lineFeed :: lines.flatMap (· ++ lineBreak t) := by
            simp [eq]
      rw [shape, Text.contents_append_break first (by decide)]
      simpa [Text.behindBreak] using later
    · have shape : (l :: lines).flatMap (· ++ lineBreak t) =
          l ++ Text.lineFeed :: lines.flatMap (· ++ lineBreak t) := by simp [eq]
      have whole (rest : Text) : Text.behindBreak Text.lineFeed rest = rest := rfl
      rw [shape, Text.contents_append_break first (by decide), whole, later, List.cons_append]

instance (t : Text) : Decidable (Unbroken t) :=
  decidable_of_iff (t.any isBreak = false) (by simp [Unbroken])

theorem unbroken_append {a b : Text} (ha : Unbroken a) (hb : Unbroken b) : Unbroken (a ++ b) := by
  intro u mem
  rcases List.mem_append.1 mem with mem | mem
  · exact ha u mem
  · exact hb u mem

theorem unbroken_spaced {a b : Text} (ha : Unbroken a) (hb : Unbroken b) :
    Unbroken (spaced a b) := by
  rw [spaced_eq]
  refine unbroken_append ha ?_
  unfold behind
  split
  · simp [Unbroken]
  · exact unbroken_append (a := [Text.unit ' ']) (by decide) hb

theorem unbroken_unwords {ws : List Text} (all : ∀ w ∈ ws, Unbroken w) :
    Unbroken (Text.unwords ws) := by
  induction ws with
  | nil => simp [Unbroken]
  | cons w ws ih =>
    cases ws with
    | nil => exact all w (by simp)
    | cons v ws =>
      rw [Text.unwords_cons_cons, ← List.singleton_append]
      exact unbroken_append (all w (by simp)) (unbroken_append (by decide)
        (ih fun w' mem => all w' (by simp [mem])))

/-- The formatter puts no line break into a line. -/
theorem unbroken_of_mem_format (unbroken : Unbroken line) (mem : p ∈ format width line) :
    Unbroken p := by
  have part {a b c : Text} (eq : line = a ++ (b ++ c)) : Unbroken b := fun u mem =>
    unbroken u (by simp [eq, mem])
  have inner {x : Text} (within : x <:+: Text.trimStart line) : Unbroken x := by
    obtain ⟨gap, -, line_eq⟩ := Text.exists_blank_append_trimStart line
    obtain ⟨front, behind, eq⟩ := within
    exact part (a := gap ++ front) (c := behind) (by rw [line_eq, ← eq]; simp)
  have rest {x value : Text} (within : x <:+ Text.trimStart line) (found : restOfLine? x =
      some value) :
      Unbroken value := by
    obtain ⟨gap, -, x_eq⟩ := Text.exists_blank_append_trimStart x
    rw [(restOfLine?_eq_some_iff.1 found).1] at x_eq
    exact inner (List.IsSuffix.isInfix (.trans ⟨gap, x_eq.symm⟩ within))
  cases kind : kindOf line with
  | blank => simp_all [format, Unbroken]
  | comment => simp_all [format]
  | heading =>
    obtain ⟨marks, tail, h⟩ := exists_isHeading kind
    obtain rfl : p = heading line := by simpa [format, kind] using mem
    rw [h.heading_eq]
    cases found : restOfLine? tail with
    | none => exact unbroken
    | some title => exact unbroken_spaced (inner ⟨[], tail, h.eq.symm⟩) (rest
      ⟨marks, h.eq.symm⟩ found)
  | directive =>
    obtain ⟨d, found⟩ := kindOf_eq_directive kind
    obtain rfl : p = d := by simpa [format, kind, found] using mem
    rcases directive?_eq_some_iff.1 found with ⟨name, value, eq, rfl⟩ | ⟨-, path, value, eq, rfl⟩
    · obtain ⟨r, binding, found'⟩ := binding?_eq_some_iff.1 eq
      obtain ⟨g, g', parts, -⟩ := id binding
      refine unbroken_spaced (unbroken_append (unbroken_append (unbroken_append ?_ ?_) ?_) ?_)
        (rest binding.suffix found')
      · decide
      · decide
      · exact inner ⟨Directive.keyword .binding ++ g, g' ++ equals :: r, by simp [parts]⟩
      · decide
    · obtain ⟨r, inclusion, found'⟩ := inclusion?_eq_some_iff.1 eq
      obtain ⟨g, parts, -⟩ := id inclusion
      refine unbroken_spaced (unbroken_append (unbroken_append (unbroken_append ?_ ?_) ?_) ?_)
        (rest inclusion.suffix found')
      · decide
      · decide
      · exact inner ⟨Directive.keyword .inclusion ++ g ++ [Includes.mark], Includes.mark :: r, by
          simp [parts]⟩
      · decide
  | text =>
    by_cases broken : IsBroken width line
    · obtain ⟨pieces, cut⟩ := broken.exists_cut
      rw [cut.format_eq, List.mem_map] at mem
      obtain ⟨q, mem, rfl⟩ := mem
      refine unbroken_append (part (a := []) (indentOf_append_trimStart line).symm)
        (unbroken_unwords fun w hw => ?_)
      have inside := Text.isInfix_of_mem_words (cut.mem_words mem hw)
      exact fun u mem => unbroken u (inside.subset mem)
    · simp_all [format_eq_of_text kind broken]

theorem unbroken_trimEnd (unbroken : Unbroken line) : Unbroken (Text.trimEnd line) := by
  obtain ⟨tail, eq, -⟩ := Text.exists_trimEnd_append line
  exact fun u mem => unbroken u (by rw [eq]; simp [mem])

theorem unbroken_of_mem_formatLines (unbroken : ∀ l ∈ lines, Unbroken l)
    (mem : p ∈ formatLines width pending started lines) : Unbroken p := by
  induction lines generalizing pending started with
  | nil => simp [formatLines] at mem
  | cons raw rest ih =>
    have later := fun {pending started} => @ih pending started fun l mem =>
      unbroken l (by simp [mem])
    simp only [formatLines] at mem
    split at mem
    · exact later mem
    · simp only [List.mem_append] at mem
      rcases mem with (mem | mem) | mem
      · obtain rfl : p = [] := by revert mem; split <;> simp
        simp [Unbroken]
      · exact unbroken_of_mem_format (unbroken_trimEnd (unbroken raw (by simp))) mem
      · exact later mem

/-- The lines of a formatted text, and the empty one behind its last line break. -/
theorem contents_formatText (width : Int) (t : Text) :
    contents (formatText width t) = formatLines width false false t.contents ++ [[]] :=
  contents_flatMap t fun _ mem =>
    unbroken_of_mem_formatLines (fun _ => Text.unbroken_of_mem_contents) mem

/-! ## Formatting again -/

/-- Lines that have their layout stay, also behind others. -/
theorem formatLines_append {settled : List Text} (layout : ∀ l ∈ settled, HasLayout width l)
    (rest : List Text) : formatLines width false true (settled ++ rest) =
      settled ++ formatLines width false true rest := by
  induction settled with
  | nil => rfl
  | cons l settled ih =>
    have first := layout l (by simp)
    have later := ih fun l' mem => layout l' (by simp [mem])
    rw [List.cons_append, formatLines, first.trimmed]
    simp [first.ne_nil, first.format_eq, later]

theorem formatLines_formatLines (settled : ∀ l ∈ lines, IsSettled width (Text.trimEnd l))
    (begun : pending = true → started = true) :
    formatLines width false started (formatLines width pending started lines ++ [[]]) =
      formatLines width pending started lines := by
  induction lines generalizing pending started with
  | nil => simp [formatLines]
  | cons raw rest ih =>
    have later := fun {pending started} =>
      @ih pending started fun l mem => settled l (by simp [mem])
    rw [formatLines]
    split
    next => exact later fun started => started
    next some_ =>
      -- a blank line that is held back, what becomes of the line, and what becomes of the others
      have some_ : Text.trimEnd raw ≠ [] := by simpa using some_
      have layout : ∀ l ∈ format width (Text.trimEnd raw), HasLayout width l := fun l mem =>
        hasLayout_of_mem_format (Text.trimEnd_trimEnd raw) some_ (settled raw (by simp)) mem
      obtain ⟨first, others, eq⟩ :=
        List.exists_cons_of_ne_nil (format_ne_nil width (Text.trimEnd raw))
      rw [eq] at layout ⊢
      have head := layout first (by simp)
      have rest_eq :
          formatLines width false true (others ++ formatLines width false true rest ++ [[]]) =
          others ++ formatLines width false true rest := by
        rw [List.append_assoc, formatLines_append fun l mem => layout l (by simp [mem]),
          later (by simp)]
      cases pending with
      | false =>
        simpa [formatLines, head.trimmed, head.ne_nil, head.format_eq] using rest_eq
      | true =>
        obtain rfl := begun rfl
        simpa [formatLines, head.trimmed, head.ne_nil, head.format_eq] using rest_eq

/-- The line break that stands behind lines is found again, if there are any lines. -/
theorem lineBreak_flatMap (t : Text) (unbroken : ∀ l ∈ lines, Unbroken l) (some_ : lines ≠ []) :
    lineBreak (lines.flatMap (· ++ lineBreak t)) = lineBreak t := by
  obtain ⟨first, others, rfl⟩ := List.exists_cons_of_ne_nil some_
  rcases lineBreak_cases t with eq | eq <;> rw [eq]
  · have occurs : [Text.carriageReturn, Text.lineFeed] <:+:
        (first :: others).flatMap (· ++ [Text.carriageReturn, Text.lineFeed]) :=
      ⟨first, others.flatMap (· ++ [Text.carriageReturn, Text.lineFeed]), by simp⟩
    rw [lineBreak, if_pos (Text.occursIn_iff.2 occurs)]
  · have absent : Text.carriageReturn ∉ (first :: others).flatMap (· ++ [Text.lineFeed]) := by
      intro mem
      obtain ⟨l, inside, mem⟩ := List.mem_flatMap.1 mem
      rcases List.mem_append.1 mem with mem | mem
      · simpa [isBreak] using unbroken l inside _ mem
      · exact absurd (List.mem_singleton.1 mem) (by decide)
    rw [lineBreak, if_neg fun occurs => absent ((Text.occursIn_iff.1 occurs).subset (by simp))]

/-- Formatting a formatted text changes nothing. -/
theorem formatText_formatText (width : Int) (t : Text)
    (settled : ∀ l ∈ t.lines, IsSettled width (Text.trimEnd l.content)) :
    formatText width (formatText width t) = formatText width t := by
  have settled' : ∀ l ∈ t.contents, IsSettled width (Text.trimEnd l) := by
    intro l mem
    obtain ⟨l', inside, rfl⟩ := List.mem_map.1 mem
    exact settled l' inside
  have unbroken : ∀ l ∈ formatLines width false false t.contents, Unbroken l := fun _ =>
    unbroken_of_mem_formatLines fun _ => Text.unbroken_of_mem_contents
  have again : formatText width (formatText width t) =
      (formatLines width false false (formatText width t).contents).flatMap
        (· ++ lineBreak (formatText width t)) := rfl
  rw [again, contents_formatText, formatLines_formatLines settled' (by simp)]
  by_cases empty : formatLines width false false t.contents = []
  · have : formatText width t =
        (formatLines width false false t.contents).flatMap (· ++ lineBreak t) := rfl
    rw [this, empty]
    rfl
  · exact congrArg (fun eol => (formatLines width false false t.contents).flatMap (· ++ eol))
      (lineBreak_flatMap t unbroken empty)

/-- A heading, blank lines, a binding and a line of text that is broken. -/
theorem formatText_formatText_mixed :
    let t : Text := "\r\n==Title\u2028  \n\n\n  #let  x=1 \u2028\r\n  alpha  beta #let gamma"
    (∀ l ∈ t.lines, IsSettled 12 (Text.trimEnd l.content)) ∧
      formatText 12 (formatText 12 t) = formatText 12 t :=
  ⟨by decide +kernel, formatText_formatText 12 _ (by decide +kernel)⟩

/-- A binding with a line separator in its value is taken for text, and its first piece for a
binding. -/
theorem not_formatText_formatText : ¬ ∀ (width : Int) (t : Text), 1 ≤ width →
    formatText width (formatText width t) = formatText width t := by
  intro stable
  have differ : formatText 8 (formatText 8 "#let x=1\u2028y") ≠ formatText 8 "#let x=1\u2028y" := by
    decide +kernel
  exact differ (stable 8 _ (by decide))

end Quill.Layout

/-! ## What can be seen of a formatted document -/

namespace Quill

namespace Text

variable {a b gap : Text} {ws : List Text}

def visible (t : Text) : Text := t.filter (!isBlank ·)

@[simp] theorem visible_nil : visible [] = [] := rfl

@[simp] theorem visible_append (a b : Text) : visible (a ++ b) = visible a ++ visible b :=
  List.filter_append a b

theorem visible_cons_blank {u : UInt16} (blank : isBlank u = true) (t : Text) :
    visible (u :: t) = visible t := by simp [visible, blank]

theorem Blank.visible (blank : Blank gap) : visible gap = [] := by
  simpa [Text.visible, Blank] using blank

theorem IsWord.visible {w : Text} (word : IsWord w) : visible w = w := by
  simpa [Text.visible] using word.solid

@[simp] theorem visible_trimStart (t : Text) : visible (trimStart t) = visible t := by
  obtain ⟨gap, blank, eq⟩ := exists_blank_append_trimStart t
  conv => rhs; rw [eq, visible_append, blank.visible, List.nil_append]

@[simp] theorem visible_trimEnd (t : Text) : visible (trimEnd t) = visible t := by
  obtain ⟨gap, eq, blank⟩ := exists_trimEnd_append t
  have blank : Blank gap := List.all_eq_true.1 blank
  conv => rhs; rw [eq, visible_append, blank.visible, List.append_nil]

theorem flatten_words (t : Text) : (words t).flatten = visible t := by
  induction t using word_induction with
  | blank t blank => rw [blank.words, blank.visible, List.flatten_nil]
  | word indent w rest indented word apart ih =>
    rw [words_blank_append indented, words_word_append word apart, List.flatten_cons, ih,
      visible_append, visible_append, indented.visible, word.visible, List.nil_append]

theorem visible_unwords (all : ∀ w ∈ ws, IsWord w) : visible (unwords ws) = ws.flatten := by
  rw [← flatten_words, words_unwords all]

theorem LineBreak.blank {rest br : Text} (br_ : LineBreak rest br) : Blank br := by
  cases br_ <;> simp <;> decide

/-- What can be seen of a text is what can be seen of its lines. -/
theorem visible_eq_flatMap (t : Text) : visible t = t.contents.flatMap visible := by
  induction t using line_induction with
  | last line unbroken => simp [contents, lines, linesFrom_unbroken unbroken]
  | more line b rest unbroken break_ ih =>
    obtain ⟨br, eq, br_⟩ := exists_lineBreak break_ rest
    rw [contents_append_break unbroken break_, List.flatMap_cons, ← ih, eq, visible_append,
      visible_append, br_.blank.visible, List.nil_append]

end Text

namespace Layout

open Text (visible Blank)

variable {line name value path rest : Text} {width : Int} {pieces : List Piece}

/-! ## Lines -/

theorem visible_spaced (a b : Text) : visible (spaced a b) = visible a ++ visible b := by
  unfold spaced
  split
  next none => rw [List.isEmpty_iff.1 none, Text.visible_nil, List.append_nil]
  next => rw [Text.visible_append, Text.visible_cons_blank Text.isBlank_space]

theorem visible_restOfLine? (found : restOfLine? rest = some value) :
    visible value = visible rest := by
  rw [← (restOfLine?_eq_some_iff.1 found).1, Text.visible_trimStart]

theorem visible_behind (found : restOfLine? rest = some value) :
    visible (behind value) = visible rest := by
  rw [← visible_restOfLine? found]
  simpa [spaced_eq] using visible_spaced [] value

theorem visible_heading (kind : kindOf line = .heading) :
    visible (heading line) = visible line := by
  obtain ⟨marks, tail, h⟩ := exists_isHeading kind
  rw [h.heading_eq]
  cases found : restOfLine? tail with
  | none => rfl
  | some title =>
    calc visible (spaced marks title)
        = visible marks ++ visible tail := by rw [visible_spaced, visible_restOfLine? found]
      _ = visible (Text.trimStart line) := by rw [h.eq, Text.visible_append]
      _ = visible line := Text.visible_trimStart line

/-- The gaps of a binding line are blank, and nothing else changes. -/
theorem visible_binding (found : binding? line = some (name, value)) :
    visible (bindingLine name value) = visible line := by
  obtain ⟨rest, ⟨gap, gap', eq, -, blank, blank', -⟩, rest_eq⟩ := binding?_eq_some_iff.1 found
  have shape (g g' r : Text) (blank : Blank g) (blank' : Blank g') :
      visible (Directive.keyword .binding ++ (g ++ (name ++ (g' ++ equals :: r)))) =
        visible (Directive.keyword .binding) ++
          (visible name ++ (visible [equals] ++ visible r)) := by
    rw [← List.singleton_append (l := r)]
    simp only [Text.visible_append, blank.visible, blank'.visible, List.nil_append]
  rw [bindingLine_eq, shape _ _ _ Text.blank_space Text.blank_space, visible_behind rest_eq,
    ← shape gap gap' rest blank blank', ← eq, Text.visible_trimStart]

/-- The gap of an include line is blank, and nothing else changes. -/
theorem visible_inclusion (found : inclusion? line = some (path, value)) :
    visible (inclusionLine path value) = visible line := by
  obtain ⟨rest, ⟨gap, eq, -, blank, -⟩, rest_eq⟩ := inclusion?_eq_some_iff.1 found
  have shape (g r : Text) (blank : Blank g) :
      visible (Directive.keyword .inclusion ++
        (g ++ Includes.mark :: (path ++ Includes.mark :: r))) =
        visible (Directive.keyword .inclusion) ++
          (visible [Includes.mark] ++
            (visible path ++ (visible [Includes.mark] ++ visible r))) := by
    rw [← List.singleton_append (l := r), ← List.singleton_append (l := path ++ _)]
    simp only [Text.visible_append, blank.visible, List.nil_append]
  rw [inclusionLine_eq, shape _ _ Text.blank_space, visible_behind rest_eq, ← shape gap rest blank,
    ← eq, Text.visible_trimStart]

theorem Cut.visible_pieces (cut : Cut width line pieces) :
    (pieces.map (indentOf line ++ Piece.text ·)).flatMap visible = visible line := by
  have piece (p : Piece) (mem : p ∈ pieces) : visible (indentOf line ++ p.text) =
      p.words.flatten := by
    rw [Text.visible_append, (blank_indentOf line).visible, List.nil_append]
    exact Text.visible_unwords (cut.isWord mem)
  calc (pieces.map (indentOf line ++ Piece.text ·)).flatMap visible
      = pieces.flatMap (·.words.flatten) := by
        rw [List.flatMap_map]
        exact List.flatMap_congr piece
    _ = (pieces.flatMap Piece.words).flatten := by
        simp only [List.flatMap_def, List.flatten_flatten, List.map_map]
        rfl
    _ = visible line := by rw [cut.words_eq, Text.flatten_words]

/-- A line becomes lines with the same visible units. -/
theorem visible_format (width : Int) (line : Text) :
    (format width line).flatMap visible = visible line := by
  have alone (l : Text) : [l].flatMap visible = visible l := by simp
  cases kind : kindOf line with
  | blank => simp [format, kind, (kindOf_eq_blank_iff.1 kind).visible]
  | comment => simp [format, kind]
  | heading => rw [format, kind, alone, visible_heading kind]
  | directive =>
    obtain ⟨t, found⟩ := kindOf_eq_directive kind
    rw [format, kind, found, Option.getD_some, alone]
    rcases directive?_eq_some_iff.1 found with ⟨name, value, eq, rfl⟩ | ⟨-, path, value, eq, rfl⟩
    · exact visible_binding eq
    · exact visible_inclusion eq
  | text =>
    by_cases broken : IsBroken width line
    · obtain ⟨pieces, cut⟩ := broken.exists_cut
      rw [cut.format_eq, cut.visible_pieces]
    · rw [format_eq_of_text kind broken, alone]

/-! ## Documents -/

theorem visible_formatLines (width : Int) (pending started : Bool) (lines : List Text) :
    (formatLines width pending started lines).flatMap visible = lines.flatMap visible := by
  induction lines generalizing pending started with
  | nil => rfl
  | cons raw lines ih =>
    rw [formatLines, List.flatMap_cons]
    split
    next none =>
      have blank : Blank raw := Text.trimEnd_eq_nil_iff.1 (List.isEmpty_iff.1 none)
      rw [ih, blank.visible, List.nil_append]
    next =>
      -- the blank line that is held back shows nothing
      have held : (if pending then [[]] else []).flatMap visible = [] := by cases pending <;> rfl
      rw [List.flatMap_append, List.flatMap_append, held, visible_format, Text.visible_trimEnd, ih,
        List.nil_append]

theorem blank_lineBreak (t : Text) : Blank (lineBreak t) := by
  rcases lineBreak_cases t with eq | eq <;> rw [eq] <;> simp <;> decide

/-- The formatter moves blanks only: what can be seen of a text is there again, in the same
order. -/
theorem visible_formatText (width : Int) (t : Text) : visible (formatText width t) = visible t := by
  have joined (lines : List Text) : visible (lines.flatMap (· ++ lineBreak t)) =
      lines.flatMap visible := by
    induction lines with
    | nil => rfl
    | cons l lines ih =>
      rw [List.flatMap_cons, List.flatMap_cons, Text.visible_append, Text.visible_append, ih,
        (blank_lineBreak t).visible, List.append_nil]
  calc visible (formatText width t)
      = (formatLines width false false t.contents).flatMap visible := joined _
    _ = t.contents.flatMap visible := visible_formatLines width false false t.contents
    _ = visible t := (Text.visible_eq_flatMap t).symm

example : visible (formatText 8 "#let x=1\u2028 y\r\n  //z") = "#letx=1y//z" := by decide +kernel

end Layout

end Quill
