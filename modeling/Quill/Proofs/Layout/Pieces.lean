import Mathlib.Data.List.Chain
import Mathlib.Data.List.Induction
import Quill.Proofs.Layout.Line

/-!
# Lines of text in pieces

A line of text that is too long is cut between its words, and a piece is cut nowhere the next time.
Only a line that starts with the word of a directive and holds a line separator of Unicode can be an
exception: the formatter does not take it for a directive, but it may take the first of its pieces
for one.

## Main definitions

* `Layout.Greedy` — pieces that hold as many words as they may.
* `Layout.IsBroken` — a line of text that becomes several.
* `Layout.Cut` — the pieces that a line becomes, word by word.
* `Layout.IsSettled` — a line that becomes lines that have their layout.

## Main statements

* `Layout.exists_pieces`, `Layout.Greedy.reflow_eq` — words can be cut into lines that hold as many
  as they may, and the formatter cuts them in this way alone.
* `Layout.IsBroken.exists_cut` — the formatter cuts a broken line into pieces.
* `Layout.hasLayout_of_mem_format` — the lines that a line becomes have their layout.
-/

namespace Quill.Layout

open Directive (keyword solid_keyword)
open Text (Blank IsWord Apart Respaced unwords)

variable {line t head a b : Text} {width : Int} {d : Directive}

/-! ## Pieces -/

/-- The words of one line: the first one and the others. -/
abbrev Piece := Text × List Text

namespace Piece

def words (p : Piece) : List Text := p.1 :: p.2

/-- The words of a line with a space between neighbours. -/
def text (p : Piece) : Text := unwords p.words

/-- Every word behind the first one ends within the width, or may not start a line. -/
def Fits (indent : Nat) (width : Int) (p : Piece) : Prop :=
  ∀ us w vs, p.2 = us ++ w :: vs →
    width < ((indent + (unwords (p.1 :: us)).length + 1 + w.length : Nat) : Int) →
      canStartLine w = false

/-- The first word of `q` may start a line, and behind `p` it would not end within the width. -/
def Breaks (indent : Nat) (width : Int) (p q : Piece) : Prop :=
  width < ((indent + p.text.length + 1 + q.1.length : Nat) : Int) ∧ canStartLine q.1 = true

theorem text_append_singleton (c : Text) (cs : List Text) (w : Text) :
    text (c, cs ++ [w]) = text (c, cs) ++ Text.unit ' ' :: w := by
  rw [text, text, words, words, ← List.cons_append, Text.unwords_append_singleton]

end Piece

/-- Every line holds as many words as it may, and the next one begins where it has to. -/
structure Greedy (indent : Nat) (width : Int) (pieces : List Piece) : Prop where
  fits : ∀ p ∈ pieces, p.Fits indent width
  breaks : pieces.IsChain (Piece.Breaks indent width)

variable {indent : Nat} {c : Text} {cs ws : List Text} {p : Piece}

/-- A word more fits on the line if it ends within the width or may not start the next one. -/
theorem Piece.Fits.append_singleton {w : Text} (fits : Piece.Fits indent width (c, cs))
    (last : width < ((indent + (Piece.text (c, cs)).length + 1 + w.length : Nat) : Int) →
      canStartLine w = false) : Piece.Fits indent width (c, cs ++ [w]) := by
  intro us v vs split long
  rcases List.eq_nil_or_concat vs with rfl | ⟨vs, x, rfl⟩
  · obtain ⟨rfl, rfl⟩ : cs = us ∧ w = v := by simpa using split
    exact last long
  · have front : cs ++ [w] = us ++ v :: vs ++ [x] := by simpa using split
    exact fits us v vs (List.append_inj' front rfl).1 long

/-- Words that fit on a line stay on it. -/
theorem fill_of_fits (fits : p.Fits indent width) (more : List Text) :
    fill indent width p.1 (p.2 ++ more) = fill indent width p.text more := by
  obtain ⟨c, cs⟩ := p
  induction cs using List.reverseRecOn generalizing more with
  | nil => rfl
  | append_singleton cs w ih =>
    have inner : Piece.Fits indent width (c, cs) := fun us v vs split =>
      fits us v (vs ++ [w]) (by simp [show cs = us ++ v :: vs from split])
    have stays :
        ¬ (decide (width < ((indent + (Piece.text (c, cs)).length + 1 + w.length : Nat) : Int)) &&
        canStartLine w) = true := by
      simp only [Bool.and_eq_true, decide_eq_true_eq, not_and, Bool.not_eq_true]
      exact fits cs w [] rfl
    calc fill indent width c (cs ++ [w] ++ more)
        = fill indent width c (cs ++ w :: more) := by rw [List.append_assoc, List.singleton_append]
      _ = fill indent width (Piece.text (c, cs)) (w :: more) := ih _ inner
      _ = fill indent width (Piece.text (c, cs ++ [w])) more := by
        rw [fill, if_neg stays, Piece.text_append_singleton]

theorem Greedy.tail {pieces : List Piece} (greedy : Greedy indent width (p :: pieces)) :
    Greedy indent width pieces :=
  ⟨fun q mem => greedy.fits q (List.mem_cons_of_mem _ mem), greedy.breaks.tail⟩

/-- Every line but the first starts with a word that may start one. -/
theorem Greedy.starts {pieces : List Piece} (greedy : Greedy indent width (p :: pieces)) :
    ∀ q ∈ pieces, canStartLine q.1 = true := by
  induction pieces generalizing p with
  | nil => simp
  | cons q pieces ih =>
    intro r mem
    rcases List.mem_cons.1 mem with rfl | mem
    · exact (List.isChain_cons_cons.1 greedy.breaks).1.2
    · exact ih greedy.tail r mem

/-- Words fill lines in the one way in which every line holds as many as it may. -/
theorem Greedy.fill_eq {pieces : List Piece} (greedy : Greedy indent width (p :: pieces)) :
    fill indent width p.1 (p.2 ++ pieces.flatMap Piece.words) = (p :: pieces).map Piece.text := by
  induction pieces generalizing p with
  | nil => simpa [fill] using fill_of_fits (greedy.fits p (by simp)) []
  | cons q pieces ih =>
    have breaks : (decide (width < ((indent + p.text.length + 1 + q.1.length : Nat) : Int)) &&
        canStartLine q.1) = true := by
      simpa [Piece.Breaks] using (List.isChain_cons_cons.1 greedy.breaks).1
    rw [fill_of_fits (greedy.fits p (by simp)), List.flatMap_cons, Piece.words, List.cons_append,
      fill, if_pos breaks, ih greedy.tail, List.map_cons, List.map_cons, List.map_cons]

/-- Words can be cut into lines so that every line holds as many as it may. The first line holds the
words `c :: cs` already. -/
theorem exists_greedy (width : Int) (indent : Nat) (ws : List Text) (c : Text) (cs : List Text)
    (begun : Piece.Fits indent width (c, cs)) : ∃ first others,
      Greedy indent width ((c, cs ++ first) :: others) ∧
        ((c, cs ++ first) :: others).flatMap Piece.words = c :: cs ++ ws := by
  induction ws generalizing c cs with
  | nil => exact ⟨[], [], ⟨by simpa using begun, .singleton _⟩, by simp [Piece.words]⟩
  | cons word ws ih =>
    by_cases breaks : Piece.Breaks indent width (c, cs) (word, [])
    · obtain ⟨first, others, greedy, flat⟩ := ih word [] (fun us w vs split => by simp at split)
      refine ⟨[], (word, [] ++ first) :: others, ⟨?_, ?_⟩, ?_⟩
      · intro p mem
        rcases List.mem_cons.1 mem with rfl | mem
        · simpa using begun
        · exact greedy.fits p mem
      · exact List.isChain_cons_cons.2 ⟨by simpa [Piece.Breaks] using breaks, greedy.breaks⟩
      · rw [List.flatMap_cons, flat]
        simp [Piece.words]
    · have more : Piece.Fits indent width (c, cs ++ [word]) :=
        begun.append_singleton fun long => Bool.eq_false_iff.2 fun start => breaks ⟨long, start⟩
      obtain ⟨first, others, greedy, flat⟩ := ih c (cs ++ [word]) more
      exact ⟨word :: first, others, by simpa using greedy, by simpa using flat⟩

/-- Any words can be cut into lines so that every line holds as many as it may. -/
theorem exists_pieces (width : Int) (indent : Nat) (ws : List Text) : ∃ pieces,
    Greedy indent width pieces ∧ pieces.flatMap Piece.words = ws := by
  cases ws with
  | nil => exact ⟨[], ⟨by simp, .nil⟩, rfl⟩
  | cons c ws =>
    obtain ⟨first, others, greedy, flat⟩ :=
      exists_greedy width indent ws c [] fun us w vs split => by simp at split
    exact ⟨_, greedy, flat⟩

/-! ## Broken lines -/

/-- A line of text that becomes several, or one with other blanks in it. -/
structure IsBroken (width : Int) (line : Text) : Prop where
  kind : kindOf line = .text
  long : width < line.length
  comment : hasComment line = false

def indentOf (line : Text) : Text := line.takeWhile Text.isBlank

theorem blank_indentOf (line : Text) : Blank (indentOf line) := fun _ => Text.of_mem_takeWhile

theorem indentOf_append_trimStart (line : Text) : indentOf line ++ Text.trimStart line = line :=
  List.takeWhile_append_dropWhile

theorem take_eq_indentOf (line : Text) :
    line.take (line.length - (Text.trimStart line).length) = indentOf line := by
  have parts := indentOf_append_trimStart line
  have length : line.length = (indentOf line).length + (Text.trimStart line).length := by
    rw [← List.length_append, parts]
  calc line.take (line.length - (Text.trimStart line).length)
      = (indentOf line ++ Text.trimStart line).take (indentOf line).length := by
        rw [parts, length, Nat.add_sub_cancel]
    _ = indentOf line := List.take_left

theorem indentOf_append (blank : Blank a) (start : Text.trimStart b = b) :
    indentOf (a ++ b) = a := by
  have parts := indentOf_append_trimStart (a ++ b)
  rw [Text.trimStart_append blank, start] at parts
  exact List.append_cancel_right parts

/-- The formatter takes the pieces that hold as many words as they may. -/
theorem Greedy.reflow_eq {pieces : List Piece}
    (greedy : Greedy (indentOf line).length width pieces)
    (flat : pieces.flatMap Piece.words = Text.words line) (long : width < (line.length : Int))
    (quiet : hasComment line = false) :
    reflow width line = pieces.map (indentOf line ++ Piece.text ·) := by
  have broken : ¬ ((line.length : Int) ≤ width || hasComment line) = true := by
    simpa [quiet] using long
  rw [reflow, if_neg broken, take_eq_indentOf, ← flat]
  cases pieces with
  | nil => rfl
  | cons p pieces =>
    rw [List.flatMap_cons, Piece.words, List.cons_append]
    simp only [greedy.fill_eq, List.map_map, Function.comp_def]

/-- A line of text that is not broken is left alone. -/
theorem format_eq_of_text (kind : kindOf line = .text) (whole : ¬ IsBroken width line) :
    format width line = [line] := by
  have fits : ((line.length : Int) ≤ width || hasComment line) = true := by
    cases comment : hasComment line with
    | true => simp
    | false =>
      have short := mt (fun long => ⟨kind, long, comment⟩) whole
      simpa using short
  rw [format, kind, reflow, if_pos fits]

theorem exists_first_word (kind : kindOf line = .text) : ∃ c ws rest,
    Text.words line = c :: ws ∧ Text.trimStart line = c ++ rest ∧ IsWord c ∧ Apart rest := by
  rcases Text.blank_or_word line with blank | ⟨gap, c, rest, rfl, blank, word, apart⟩
  · exact absurd blank (kindOf_eq_text_iff.1 kind).1
  · obtain ⟨u, c', rfl, solid⟩ := word.exists_cons
    refine ⟨u :: c', Text.words rest, rest, ?_, ?_, word, apart⟩
    · rw [Text.words_blank_append blank, Text.words_word_append word apart]
    · rw [Text.trimStart_append blank, List.cons_append, Text.trimStart_of_solid solid]

namespace Piece

variable {p : Piece}

/-- The first word of a piece, and something apart from it. -/
theorem text_eq (p : Piece) : ∃ rest, p.text = p.1 ++ rest ∧ Apart rest :=
  Text.exists_unwords_cons p.1 p.2

theorem trimStart_text (all : ∀ w ∈ p.words, IsWord w) : Text.trimStart p.text = p.text := by
  obtain ⟨rest, eq, -⟩ := p.text_eq
  obtain ⟨u, c, first, solid⟩ := (all p.1 (by simp [words])).exists_cons
  rw [eq, first, List.cons_append, Text.trimStart_of_solid solid]

theorem words_append_text (blank : Blank a) (all : ∀ w ∈ p.words, IsWord w) :
    Text.words (a ++ p.text) = p.words := by
  rw [Text.words_blank_append blank]
  exact Text.words_unwords all

theorem indentOf_append_text (blank : Blank a) (all : ∀ w ∈ p.words, IsWord w) :
    indentOf (a ++ p.text) = a :=
  indentOf_append blank (trimStart_text all)

theorem startsWith_text (solid : ∀ u ∈ head, Text.isBlank u = false) :
    Text.startsWith p.text head = Text.startsWith p.1 head := by
  obtain ⟨rest, eq, apart⟩ := p.text_eq
  rw [eq, Text.startsWith_append solid apart]

end Piece

instance (width : Int) (line : Text) : Decidable (IsBroken width line) :=
  decidable_of_iff (kindOf line = .text ∧ width < line.length ∧ hasComment line = false)
    ⟨fun ⟨kind, long, comment⟩ => ⟨kind, long, comment⟩,
      fun ⟨kind, long, comment⟩ => ⟨kind, long, comment⟩⟩

/-- The pieces that a line becomes: all its words, in order, as many on every line as it may
hold. -/
structure Cut (width : Int) (line : Text) (pieces : List Piece) : Prop where
  format_eq : format width line = pieces.map (indentOf line ++ Piece.text ·)
  words_eq : pieces.flatMap Piece.words = Text.words line
  ne_nil : pieces ≠ []
  greedy : Greedy (indentOf line).length width pieces

namespace IsBroken

/-- A line of text that is cut holds no comment. -/
theorem quiet {w : Text} (broken : IsBroken width line) (mem : w ∈ Text.words line) :
    Text.occursIn "//" w = false := by
  refine Bool.eq_false_iff.2 fun comment => Bool.eq_false_iff.1 broken.comment ?_
  exact Text.occursIn_iff.2 ((Text.occursIn_iff.1 comment).trans (Text.isInfix_of_mem_words mem))

theorem exists_cut (broken : IsBroken width line) : ∃ pieces, Cut width line pieces := by
  obtain ⟨pieces, greedy, flat⟩ := exists_pieces width (indentOf line).length (Text.words line)
  refine ⟨pieces, ?_, flat, ?_, greedy⟩
  · rw [format, broken.kind]
    exact greedy.reflow_eq flat broken.long broken.comment
  · rintro rfl
    obtain ⟨c, ws, _, words_eq, -⟩ := exists_first_word broken.kind
    simp [words_eq] at flat

end IsBroken

namespace Cut

variable {pieces : List Piece} {p : Piece} {w : Text}

theorem mem_words (cut : Cut width line pieces) (mem : p ∈ pieces) (hw : w ∈ p.words) :
    w ∈ Text.words line := by
  rw [← cut.words_eq]
  exact List.mem_flatMap.2 ⟨p, mem, hw⟩

theorem starts (cut : Cut width line pieces) (mem : p ∈ pieces) :
    canStartLine p.1 = true ∨ p.words <+: Text.words line := by
  obtain ⟨first, others, rfl⟩ := List.exists_cons_of_ne_nil cut.ne_nil
  rcases List.mem_cons.1 mem with rfl | later
  · exact .inr ⟨others.flatMap Piece.words, by rw [← cut.words_eq, List.flatMap_cons]⟩
  · exact .inl (cut.greedy.starts p later)

theorem isWord (cut : Cut width line pieces) (mem : p ∈ pieces) :
    ∀ w ∈ p.words, IsWord w := fun _ hw =>
  Text.isWord_of_mem_words (cut.mem_words mem hw)

/-- The blanks in front of a piece are those of the line. -/
theorem trimStart_eq (cut : Cut width line pieces) (mem : p ∈ pieces) :
    Text.trimStart (indentOf line ++ p.text) = p.text := by
  rw [Text.trimStart_append (blank_indentOf line), Piece.trimStart_text (cut.isWord mem)]

theorem words_piece (cut : Cut width line pieces) (mem : p ∈ pieces) :
    Text.words (indentOf line ++ p.text) = p.words :=
  Piece.words_append_text (blank_indentOf line) (cut.isWord mem)

theorem text_ne_nil (cut : Cut width line pieces) (mem : p ∈ pieces) : p.text ≠ [] := by
  obtain ⟨rest, eq, -⟩ := p.text_eq
  simp [eq, (cut.isWord mem p.1 (by simp [Piece.words])).ne_nil]

theorem exists_of_not_canStartLine (cut : Cut width line pieces) (kind : kindOf line = .text)
    (mem : p ∈ pieces) (start : canStartLine p.1 = false) :
    ∃ rest, Text.trimStart line = p.1 ++ rest ∧ Apart rest := by
  obtain ⟨c, ws, rest, words_eq, line_eq, -, apart⟩ := exists_first_word kind
  rcases cut.starts mem with can | ⟨later, eq⟩
  · simp [start] at can
  · rw [words_eq, Piece.words, List.cons_append] at eq
    exact ⟨rest, by rw [line_eq, (List.cons.inj eq).1], apart⟩

/-- No piece of a line of text starts like a comment or a heading. -/
theorem startsWith_text (cut : Cut width line pieces) (broken : IsBroken width line)
    (mem : p ∈ pieces) :
    Text.startsWith p.text "//" = false ∧ Text.startsWith p.text "=" = false := by
  rw [Piece.startsWith_text (Text.solid_of_any (by decide)),
    Piece.startsWith_text (Text.solid_of_any (by decide))]
  constructor
  · refine Bool.eq_false_iff.2 fun comment => Bool.eq_false_iff.1 (broken.quiet (w := p.1) ?_) ?_
    · exact cut.mem_words mem (by simp [Piece.words])
    · exact Text.occursIn_iff.2 (List.isPrefixOf_iff_prefix.1 comment).isInfix
  · cases start : canStartLine p.1 with
    | true =>
      simp only [canStartLine, Bool.not_eq_true', Bool.or_eq_false_iff] at start
      exact start.1.1
    | false =>
      obtain ⟨rest, eq, apart⟩ := cut.exists_of_not_canStartLine broken.kind mem start
      have plain := (kindOf_eq_text_iff.1 broken.kind).2.2.1
      rwa [eq, Text.startsWith_append (Text.solid_of_any (by decide)) apart] at plain

end Cut

/-! ## Settled lines -/

/-- A line of text that starts with the word of a directive and holds a line separator is not
broken. -/
def IsSettled (width : Int) (line : Text) : Prop :=
  IsBroken width line → ∀ d, (Text.trimStart line).startsWith (keyword d) = true →
    line.any isSeparator = false

instance (width : Int) (line : Text) : Decidable (IsSettled width line) :=
  decidable_of_iff (IsBroken width line → ∀ d ∈ Directive.all,
      (Text.trimStart line).startsWith (keyword d) = true → line.any isSeparator = false)
    ⟨fun h broken d => h broken d (by cases d <;> simp [Directive.all]),
      fun h broken d _ => h broken d⟩

theorem IsBroken.hasLayout (broken : IsBroken width line) (settled : IsSettled width line)
    (mem : t ∈ format width line) : HasLayout width t := by
  obtain ⟨pieces, cut⟩ := broken.exists_cut
  rw [cut.format_eq, List.mem_map] at mem
  obtain ⟨p, mem, rfl⟩ := mem
  have start_eq := cut.trimStart_eq mem
  have some_ := cut.text_ne_nil mem
  have other : directive? (indentOf line ++ p.text) = none := by
    cases start : canStartLine p.1 with
    | true =>
      simp only [canStartLine, Bool.not_eq_true', Bool.or_eq_false_iff] at start
      refine directive?_eq_none fun d => ?_
      rw [start_eq, Piece.startsWith_text (solid_keyword d)]
      cases d
      · exact start.1.2
      · exact start.2
    | false =>
      -- the line itself is no directive, and its first piece has its first words
      by_cases opens : ∃ d, (Text.trimStart line).startsWith (keyword d) = true
      · obtain ⟨d, opens⟩ := opens
        obtain ⟨later, words_eq⟩ := (cut.starts mem).resolve_left (by simp [start])
        have same : Respaced (Text.trimStart line) p.text :=
          Text.respaced_unwords words_eq.symm (by simp [Piece.words])
        have mono := directive?_isSome_of_respaced (settled broken d opens) (start_eq.symm ▸ same)
        rw [(kindOf_eq_text_iff.1 broken.kind).2.2.2] at mono
        simpa using mono
      · obtain ⟨rest, line_eq, apart⟩ := cut.exists_of_not_canStartLine broken.kind mem start
        refine directive?_eq_none fun d => ?_
        rw [start_eq, Piece.startsWith_text (solid_keyword d),
          ← Text.startsWith_append (solid_keyword d) apart, ← line_eq]
        exact Bool.eq_false_iff.2 fun starts => opens ⟨d, starts⟩
  have kind : kindOf (indentOf line ++ p.text) = .text := by
    obtain ⟨comment, plain⟩ := cut.startsWith_text broken mem
    rw [kindOf_eq_text_iff, ← Text.trimStart_eq_nil_iff, start_eq]
    exact ⟨some_, comment, plain, other⟩
  refine ⟨Text.trimEnd_append_eq_self _ some_
    (Text.trimEnd_unwords (cut.isWord mem)), by simp [some_], ?_⟩
  by_cases again : IsBroken width (indentOf line ++ p.text)
  · have indent_eq : indentOf (indentOf line ++ p.text) = indentOf line :=
      Piece.indentOf_append_text (blank_indentOf line) (cut.isWord mem)
    have alone : Greedy (indentOf (indentOf line ++ p.text)).length width [p] := by
      rw [indent_eq]
      exact ⟨by simpa using cut.greedy.fits p mem, .singleton p⟩
    have flat : [p].flatMap Piece.words = Text.words (indentOf line ++ p.text) := by
      simp [cut.words_piece mem]
    rw [format, kind]
    simpa [indent_eq] using alone.reflow_eq flat again.long again.comment
  · exact format_eq_of_text kind again

/-- What the formatter makes of a line has its layout, unless the line is broken where it should not
be. -/
theorem hasLayout_of_mem_format (trimmed : Text.trimEnd line = line) (some_ : line ≠ [])
    (settled : IsSettled width line) (mem : t ∈ format width line) : HasLayout width t := by
  have alone : format width line = [line] → HasLayout width t := fun whole => by
    obtain rfl : t = line := by simpa [whole] using mem
    exact ⟨trimmed, some_, whole⟩
  cases kind : kindOf line with
  | blank =>
    have := Text.trimEnd_eq_nil_iff.2 (kindOf_eq_blank_iff.1 kind)
    exact absurd (trimmed.symm.trans this) some_
  | heading =>
    obtain rfl : t = heading line := by simpa [format, kind] using mem
    exact hasLayout_heading trimmed kind
  | directive =>
    obtain ⟨p, found⟩ := kindOf_eq_directive kind
    obtain rfl : t = p := by simpa [format, kind, found] using mem
    exact hasLayout_directive trimmed found
  | comment => exact alone (by simp [format, kind])
  | text =>
    by_cases broken : IsBroken width line
    · exact broken.hasLayout settled mem
    · exact alone (format_eq_of_text kind broken)

/-- A line becomes at least one line. -/
theorem format_ne_nil (width : Int) (line : Text) : format width line ≠ [] := by
  cases kind : kindOf line with
  | text =>
    by_cases broken : IsBroken width line
    · obtain ⟨pieces, cut⟩ := broken.exists_cut
      simp [cut.format_eq, cut.ne_nil]
    · simp [format_eq_of_text kind broken]
  | _ => simp [format, kind]

end Quill.Layout
