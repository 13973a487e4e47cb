import Mathlib.Data.List.Chain
import Quill.Proofs.Layout.Document

/-!
# The layout of a formatted document

A formatted document has no blank line at either end and no two of them in a row, no blanks at the
end of a line, and the same line break behind every line. That is CR LF if the document had one
anywhere, so that the line breaks are those of its first line unless a CR LF comes later than
another line break.

## Main definitions

* `Text.firstBreak?` — the first line break of a text.
* `Layout.IsTidy` — the lines of a document that has its layout.
* `Layout.IsLaidOut` — a document of such lines, with the same line break behind each of them.
* `Layout.styleOf` — the line break that the first line of a text asks for.

## Main statements

* `Layout.formatLines_eq_nil_iff` — nothing is left of blank lines only.
* `Layout.isTidy_formatLines` — formatted lines are those of a document that has its layout.
* `Layout.formatText_isLaidOut` — a formatted document has its layout.
-/

namespace Quill

namespace Text

variable {t br : Text}

def firstBreak? : Text → Option Text
  | [] => none
  | u :: rest =>
    if u == lineFeed then some [lineFeed]
    else if u == carriageReturn then
      some (if rest.head? == some lineFeed then [carriageReturn, lineFeed] else [carriageReturn])
    else firstBreak? rest

theorem isInfix_of_firstBreak? (found : firstBreak? t = some br) : br <:+: t := by
  induction t with
  | nil => simp [firstBreak?] at found
  | cons u rest ih =>
    unfold firstBreak? at found
    split at found
    next feed =>
      obtain ⟨rfl, rfl⟩ : u = lineFeed ∧ [lineFeed] = br :=
        ⟨by simpa using feed, by simpa using found⟩
      exact ⟨[], rest, rfl⟩
    split at found
    next return_ =>
      obtain rfl : u = carriageReturn := by simpa using return_
      split at found
      next feed =>
        obtain ⟨behind, rfl⟩ := List.head?_eq_some_iff.1 (beq_iff_eq.1 feed)
        obtain rfl := Option.some.inj found
        exact ⟨[], behind, rfl⟩
      next =>
        obtain rfl := Option.some.inj found
        exact ⟨[], rest, rfl⟩
    next => exact (ih found).trans ⟨[u], [], by simp⟩

end Text

namespace Layout

open Text (Blank Unbroken firstBreak? carriageReturn lineFeed)

variable {t line p eol : Text} {lines : List Text} {width : Int} {pending started : Bool}

/-- The line break that the first line of a text asks for: its own, if that is CR LF or LF. -/
def styleOf (t : Text) : Text :=
  if firstBreak? t = some [carriageReturn, lineFeed] then [carriageReturn, lineFeed] else [lineFeed]

/-- Lines that may stand behind others: without blanks at their ends, no two blank ones in a row,
and no blank one last. -/
structure FitsBehind (lines : List Text) : Prop where
  trimmed : ∀ l ∈ lines, Text.trimEnd l = l
  last : ∀ l ∈ lines.getLast?, ¬ Blank l
  apart : lines.IsChain fun a b => ¬ Blank a ∨ ¬ Blank b

structure IsTidy (lines : List Text) : Prop extends FitsBehind lines where
  unbroken : ∀ l ∈ lines, Unbroken l
  first : ∀ l ∈ lines.head?, ¬ Blank l

/-- A document of such lines, at least one, with the line break `eol` behind each of them. -/
def IsLaidOut (eol t : Text) : Prop :=
  ∃ lines, lines ≠ [] ∧ IsTidy lines ∧ t = lines.flatMap (· ++ eol)

/-! ## Lines -/

/-- What a line becomes has no blanks at its end, and something else in it. -/
theorem visible_of_mem_format (trimmed : Text.trimEnd line = line) (some_ : line ≠ [])
    (mem : p ∈ format width line) : Text.trimEnd p = p ∧ ¬ Blank p := by
  have shows (trimmed : Text.trimEnd p = p) (some_ : p ≠ []) : ¬ Blank p := fun blank =>
    some_ (trimmed.symm.trans (Text.trimEnd_eq_nil_iff.2 blank))
  by_cases broken : IsBroken width line
  · obtain ⟨pieces, cut⟩ := broken.exists_cut
    rw [cut.format_eq, List.mem_map] at mem
    obtain ⟨q, mem, rfl⟩ := mem
    have trimmed := Text.trimEnd_append_eq_self (indentOf line) (cut.text_ne_nil mem)
      (Text.trimEnd_unwords (cut.isWord mem))
    exact ⟨trimmed, shows trimmed (by simp [cut.text_ne_nil mem])⟩
  · have layout := hasLayout_of_mem_format trimmed some_ (fun h => absurd h broken) mem
    exact ⟨layout.trimmed, shows layout.trimmed layout.ne_nil⟩

namespace FitsBehind

theorem nil : FitsBehind [] := ⟨by simp, by simp, by simp⟩

theorem cons (trimmed : Text.trimEnd line = line) (shown : ¬ Blank line) (fits : FitsBehind lines) :
    FitsBehind (line :: lines) where
  trimmed := by simpa [trimmed] using fits.trimmed
  last l mem := by
    rw [List.getLast?_cons] at mem
    cases eq : lines.getLast? with
    | none => simpa [eq, ← Option.some.inj mem] using shown
    | some q => exact fits.last l (by simpa [eq] using mem)
  apart := List.isChain_cons.2 ⟨fun _ _ => .inl shown, fits.apart⟩

theorem append {shown : List Text} (each : ∀ l ∈ shown, Text.trimEnd l = l ∧ ¬ Blank l)
    (fits : FitsBehind lines) : FitsBehind (shown ++ lines) := by
  induction shown with
  | nil => exact fits
  | cons l shown ih =>
    have first := each l (by simp)
    exact .cons first.1 first.2 (ih fun l mem => each l (by simp [mem]))

/-- A blank line may stand in front of one that is not. -/
theorem blank_cons (shown : ¬ Blank line) (fits : FitsBehind (line :: lines)) :
    FitsBehind ([] :: line :: lines) where
  trimmed := by simpa using fits.trimmed
  last := by simpa [List.getLast?_cons] using fits.last
  apart := by
    refine List.isChain_cons.2 ⟨fun q first => .inr ?_, fits.apart⟩
    obtain rfl := Option.some.inj first
    exact shown

end FitsBehind

/-- What is written for a line with something in it: the blank line that is held back, and what
becomes of the line. -/
theorem exists_formatLines_cons {raw : Text} (some_ : ¬ Blank raw) (width : Int)
    (pending started : Bool) (rest : List Text) : ∃ first others,
      formatLines width pending started (raw :: rest) =
        (if pending then [[]] else []) ++ first :: (others ++ formatLines width false true rest) ∧
      ∀ l ∈ first :: others, Text.trimEnd l = l ∧ ¬ Blank l := by
  have some_ : Text.trimEnd raw ≠ [] := mt Text.trimEnd_eq_nil_iff.1 some_
  obtain ⟨first, others, eq⟩ := List.exists_cons_of_ne_nil (format_ne_nil width (Text.trimEnd raw))
  refine ⟨first, others, ?_,
    fun l mem => visible_of_mem_format (Text.trimEnd_trimEnd raw) some_ (eq ▸ mem)⟩
  rw [formatLines, if_neg (by simpa using some_), eq, List.append_assoc, List.cons_append]

theorem formatLines_cons_blank {raw : Text} (blank : Blank raw) (rest : List Text) :
    formatLines width pending started (raw :: rest) = formatLines width started started rest := by
  rw [formatLines, if_pos (by simpa using Text.trimEnd_eq_nil_iff.2 blank)]

theorem fitsBehind_formatLines (width : Int) (pending started : Bool) (lines : List Text) :
    FitsBehind (formatLines width pending started lines) := by
  induction lines generalizing pending started with
  | nil => exact .nil
  | cons raw rest ih =>
    by_cases blank : Blank raw
    · rw [formatLines_cons_blank blank]
      exact ih started started
    · obtain ⟨first, others, eq, each⟩ := exists_formatLines_cons blank width pending started rest
      have fits : FitsBehind (first :: (others ++ formatLines width false true rest)) :=
        .append each (ih false true)
      rw [eq]
      cases pending with
      | false => exact fits
      | true => exact fits.blank_cons (each first (by simp)).2

/-- Nothing is held back in front of the first line that is written. -/
theorem visible_of_mem_head?_formatLines (mem : p ∈ (formatLines width false false lines).head?) :
    ¬ Blank p := by
  induction lines with
  | nil => simp [formatLines] at mem
  | cons raw rest ih =>
    by_cases blank : Blank raw
    · rw [formatLines_cons_blank blank] at mem
      exact ih mem
    · obtain ⟨first, others, eq, each⟩ := exists_formatLines_cons blank width false false rest
      obtain rfl : first = p := by simpa [eq] using mem
      exact (each first (by simp)).2

/-- Nothing is left of blank lines only. -/
theorem formatLines_eq_nil_iff : formatLines width pending started lines =
    [] ↔ ∀ l ∈ lines, Blank l := by
  induction lines generalizing pending started with
  | nil => simp [formatLines]
  | cons raw rest ih =>
    by_cases blank : Blank raw
    · simp [formatLines_cons_blank blank, ih, blank]
    · obtain ⟨first, others, eq, -⟩ := exists_formatLines_cons blank width pending started rest
      simp [eq, blank]

/-- Formatted lines are those of a document that has its layout. -/
theorem isTidy_formatLines (width : Int) (unbroken : ∀ l ∈ lines, Unbroken l) :
    IsTidy (formatLines width false false lines) where
  toFitsBehind := fitsBehind_formatLines width false false lines
  unbroken _ := unbroken_of_mem_formatLines unbroken
  first _ := visible_of_mem_head?_formatLines

/-! ## Line breaks -/

theorem flatMap_append_eq_nil_iff (some_ : eol ≠ []) :
    lines.flatMap (· ++ eol) = [] ↔ lines = [] := by
  cases lines <;> simp [some_]

theorem IsLaidOut.ne_nil (laid : IsLaidOut eol t) (some_ : eol ≠ []) : t ≠ [] := by
  obtain ⟨lines, ne, -, rfl⟩ := laid
  exact mt (flatMap_append_eq_nil_iff some_).1 ne

/-- Only the line breaks of a document hold carriage returns. -/
theorem IsLaidOut.mem_iff (laid : IsLaidOut eol t) : carriageReturn ∈ t ↔ carriageReturn ∈ eol := by
  obtain ⟨lines, some_, tidy, rfl⟩ := laid
  obtain ⟨first, others, rfl⟩ := List.exists_cons_of_ne_nil some_
  have none (l : Text) (mem : l ∈ first :: others) : carriageReturn ∉ l := fun inside => by
    have := tidy.unbroken l mem _ inside
    simp [Text.isBreak] at this
  simp only [List.mem_flatMap, List.mem_append]
  constructor
  · rintro ⟨l, mem, inside | inside⟩
    · exact absurd inside (none l mem)
    · exact inside
  · exact fun inside => ⟨first, by simp, .inr inside⟩

theorem styleOf_cases (t : Text) : styleOf t = [carriageReturn, lineFeed] ∨ styleOf t =
    [lineFeed] := by
  unfold styleOf
  split <;> simp

/-- The line break of the formatted text is that of the first line, unless a CR LF comes later than
another line break. -/
theorem lineBreak_eq_styleOf_iff : lineBreak t = styleOf t ↔
    ([carriageReturn, lineFeed] <:+: t → firstBreak? t = some [carriageReturn, lineFeed]) := by
  have differ : ([lineFeed] : Text) ≠ [carriageReturn, lineFeed] := by decide
  rw [lineBreak, styleOf]
  simp only [Text.occursIn_iff]
  by_cases first : firstBreak? t = some [carriageReturn, lineFeed]
  · simp [first, Text.isInfix_of_firstBreak? first]
  · by_cases pair : [carriageReturn, lineFeed] <:+: t
    · simp [first, pair]
    · simp [first, pair]

/-! ## Documents -/

/-- A formatted document is empty exactly when the document has blank lines only, and otherwise it
has its layout, with CR LF behind every line if the document has one anywhere. It has the layout
with the line break of the first line exactly when no CR LF comes later than another line break. -/
theorem formatText_isLaidOut (width : Int) (t : Text) :
    (formatText width t = [] ↔ ∀ l ∈ t.lines, Blank l.content) ∧
      (formatText width t = [] ∨ IsLaidOut (lineBreak t) (formatText width t)) ∧
      (IsLaidOut (styleOf t) (formatText width t) ↔ formatText width t ≠ [] ∧
        ([carriageReturn, lineFeed] <:+: t → firstBreak? t = some [carriageReturn, lineFeed])) := by
  have eol_ne : lineBreak t ≠ [] := by rcases lineBreak_cases t with eq | eq <;> simp [eq]
  have style_ne : styleOf t ≠ [] := by rcases styleOf_cases t with eq | eq <;> simp [eq]
  have lines_eq : formatText width t =
      (formatLines width false false t.contents).flatMap (· ++ lineBreak t) := rfl
  have empty_iff : formatText width t = [] ↔ formatLines width false false t.contents = [] := by
    rw [lines_eq, flatMap_append_eq_nil_iff eol_ne]
  have laid (some_ : formatText width t ≠ []) : IsLaidOut (lineBreak t) (formatText width t) :=
    ⟨_, mt empty_iff.2 some_, isTidy_formatLines width fun _ => Text.unbroken_of_mem_contents,
      lines_eq⟩
  refine ⟨?_, or_iff_not_imp_left.2 laid, ?_⟩
  · rw [empty_iff, formatLines_eq_nil_iff, Text.contents, List.forall_mem_map]
  · rw [← lineBreak_eq_styleOf_iff]
    constructor
    · intro styled
      refine ⟨styled.ne_nil style_ne, ?_⟩
      -- the line break is told from the text: it holds a carriage return, or it does not
      have same := (laid (styled.ne_nil style_ne)).mem_iff.symm.trans styled.mem_iff
      have differ : carriageReturn ∉ ([lineFeed] : Text) := by decide
      rcases lineBreak_cases t with eq | eq <;> rcases styleOf_cases t with eq' | eq' <;> simp_all
    · rintro ⟨some_, same⟩
      exact same ▸ laid some_

/-- A line feed comes first, and a CR LF later. -/
theorem not_formatText_isLaidOut : ¬ ∀ (width : Int) (t : Text), 1 ≤ width →
    formatText width t = [] ∨ IsLaidOut (styleOf t) (formatText width t) := by
  intro styled
  have mixed : formatText 80 "a\nb\r\n" = "a\r\nb\r\n" := by decide +kernel
  rcases styled 80 "a\nb\r\n" (by decide) with empty | laid
  · rw [mixed] at empty
    exact absurd empty (by decide)
  · have inside := laid.mem_iff.1 (by rw [mixed]; decide)
    exact absurd inside (by decide)

end Layout

end Quill
