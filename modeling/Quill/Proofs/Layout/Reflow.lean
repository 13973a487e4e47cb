import Quill.Proofs.Layout.Pieces

/-!
# Reflowed text

A line of text that is too long becomes lines that hold as many words as they may. The rule is
stated here on the lines themselves, where a word ends and what stands before it, and it leaves one
way to break the line: the one that the formatter takes.

## Main definitions

* `Text.WordBehind` — a word of a text, with all that stands before it.
* `Layout.OpensMarkup` — words that a line of text may not begin with.
* `Layout.IsReflow` — the lines hold the words of a line, as many each as they may.

## Main statements

* `Text.WordBehind.front_eq` — a word is found by the words before it.
* `Layout.Greedy.isReflow`, `Layout.IsReflow.exists_greedy` — the rule in terms of pieces.
* `Layout.reflow_eq_iff` — what a line of text becomes.
-/

namespace Quill

namespace Text

variable {t a b w v : Text} {us vs : List Text}

structure WordBehind (t front w : Text) : Prop where
  exists_eq : ∃ rest, t = front ++ (w ++ rest) ∧ Apart rest
  word : IsWord w
  ends : ∀ u ∈ front.getLast?, isBlank u = true

theorem words_eq_nil_iff : words t = [] ↔ Blank t := by
  refine ⟨fun none => ?_, Blank.words⟩
  rcases blank_or_word t with blank | ⟨gap, w, rest, rfl, blank, word, apart⟩
  · exact blank
  · rw [words_blank_append blank, words_word_append word apart] at none
    simp at none

/-- Blanks at the end of a text part its words from those behind it. -/
theorem words_append_of_ends (ends : ∀ u ∈ a.getLast?, isBlank u = true) (b : Text) :
    words (a ++ b) = words a ++ words b := by
  rcases List.eq_nil_or_concat a with rfl | ⟨a, u, rfl⟩
  · rfl
  · have blank : isBlank u = true := ends u (by simp)
    rw [List.concat_eq_append, List.append_assoc, List.singleton_append, words_append_cons blank,
      words_append_cons blank, words_nil, List.append_nil]

namespace WordBehind

theorem words_eq (h : WordBehind t a w) : ∃ vs, words t = words a ++ w :: vs := by
  obtain ⟨rest, rfl, apart⟩ := h.exists_eq
  exact ⟨words rest, by rw [words_append_of_ends h.ends, words_word_append h.word apart]⟩

/-- Nothing but blanks is between two places that have the same words before them. -/
theorem eq_of_prefix (h : WordBehind t a w) (h' : WordBehind t b v) (before : a <+: b)
    (same : words a = words b) : a = b := by
  obtain ⟨rest, eq, -⟩ := h.exists_eq
  obtain ⟨rest', eq', -⟩ := h'.exists_eq
  obtain ⟨between, rfl⟩ := before
  obtain ⟨u, w', rfl, solid⟩ := h.word.exists_cons
  cases between with
  | nil => exact (List.append_nil a).symm
  | cons x between =>
    have first : u = x := by
      have rests := eq.symm.trans eq'
      rw [List.append_assoc, List.append_cancel_left_eq] at rests
      simpa using congrArg List.head? rests
    have none : words (x :: between) = [] := by
      rw [words_append_of_ends h.ends] at same
      simpa using same
    have blank := words_eq_nil_iff.1 none x (by simp)
    simp [← first, solid] at blank

theorem front_eq (h : WordBehind t a w) (h' : WordBehind t b v) (same : words a = words b) :
    a = b := by
  obtain ⟨rest, eq, -⟩ := h.exists_eq
  obtain ⟨rest', eq', -⟩ := h'.exists_eq
  have inside : a <+: t := ⟨_, eq.symm⟩
  have inside' : b <+: t := ⟨_, eq'.symm⟩
  rcases List.prefix_or_prefix_of_prefix inside inside' with before | before
  · exact h.eq_of_prefix h' before same
  · exact (h'.eq_of_prefix h before same.symm).symm

end WordBehind

theorem unwords_append_cons (w : Text) (us : List Text) (v : Text) (vs : List Text) :
    unwords (w :: us ++ v :: vs) = unwords (w :: us) ++ unit ' ' :: unwords (v :: vs) := by
  induction us generalizing w with
  | nil => exact unwords_cons_cons w v vs
  | cons u us ih =>
    rw [unwords_cons_cons, List.cons_append, List.cons_append, unwords_cons_cons,
      ← List.cons_append, ih, List.append_assoc, List.cons_append]

end Text

namespace Layout

open Text (Blank IsWord Apart unwords WordBehind)

variable {line : Text} {width : Int} {lines : List Text} {pieces : List Piece} {p : Piece}
  {indent w : Text} {us vs : List Text}

/-! ## The rule -/

/-- Words that would be a heading or a directive at the beginning of a line. -/
def OpensMarkup (w : Text) : Prop :=
  ∃ head ∈ (["=", "#let", "#include"] : List Text), head <+: w

theorem canStartLine_eq_false_iff : canStartLine w = false ↔ OpensMarkup w := by
  have binding : Directive.keyword .binding = Text.ofString "#let" := by decide
  have inclusion : Directive.keyword .inclusion = Text.ofString "#include" := by decide
  simp only [canStartLine, Bool.not_eq_false', Bool.or_eq_true, Text.startsWith,
    List.isPrefixOf_iff_prefix, binding, inclusion, or_assoc]
  simp [OpensMarkup]

theorem canStartLine_eq_true_iff : canStartLine w = true ↔ ¬ OpensMarkup w := by
  rw [← canStartLine_eq_false_iff, Bool.not_eq_false]

/-- The lines hold the words of a line behind its indentation, as many each as they may: a word
behind the first one that ends beyond the width is there because no line may begin with it, and a
line begins where its first word would have ended beyond the width of the line before it. -/
structure IsReflow (width : Int) (line : Text) (lines : List Text) : Prop where
  words_eq : lines.flatMap Text.words = Text.words line
  indent : ∀ l ∈ lines, indentOf l = indentOf line
  spaced : ∀ l ∈ lines, Text.words l ≠ [] ∧ l = indentOf l ++ unwords (Text.words l)
  fits : ∀ l ∈ lines, ∀ front w, WordBehind l front w → ¬ Blank front →
    width < ((front.length + w.length : Nat) : Int) → OpensMarkup w
  breaks : lines.IsChain fun l next => ∀ w ∈ (Text.words next).head?,
    ¬ OpensMarkup w ∧ width < ((l.length + 1 + w.length : Nat) : Int)

/-! ## The rule in terms of pieces -/

theorem wordBehind_piece (blank : Blank indent) (all : ∀ w ∈ p.words, IsWord w)
    (split : p.2 = us ++ w :: vs) :
    WordBehind (indent ++ p.text) (indent ++ (unwords (p.1 :: us) ++ [Text.unit ' '])) w ∧
      Text.words (indent ++ (unwords (p.1 :: us) ++ [Text.unit ' '])) = p.1 :: us := by
  obtain ⟨rest, behind, apart⟩ := Text.exists_unwords_cons w vs
  have words_eq : p.words = p.1 :: us ++ w :: vs := by rw [Piece.words, split, List.cons_append]
  refine ⟨⟨⟨rest, ?_, apart⟩, all w (by simp [words_eq]), fun u last => ?_⟩, ?_⟩
  · rw [Piece.text, words_eq, Text.unwords_append_cons, behind]
    simp
  · obtain rfl : Text.unit ' ' = u := by simpa using last
    exact Text.isBlank_space
  · rw [Text.words_blank_append blank, Text.words_append_cons Text.isBlank_space, Text.words_nil,
      List.append_nil]
    exact Text.words_unwords fun v mem => all v (words_eq ▸ List.mem_append_left _ mem)

/-- A word behind the first one of a piece is found at its place. -/
theorem exists_split_of_wordBehind {front : Text} (blank : Blank indent)
    (all : ∀ w ∈ p.words, IsWord w)
    (behind : WordBehind (indent ++ p.text) front w) (some_ : ¬ Blank front) :
    ∃ us vs, p.2 = us ++ w :: vs ∧ front = indent ++ (unwords (p.1 :: us) ++ [Text.unit ' ']) := by
  obtain ⟨vs, words_eq⟩ := behind.words_eq
  rw [Piece.words_append_text blank all] at words_eq
  obtain ⟨c, us, front_eq⟩ := List.exists_cons_of_ne_nil (mt Text.words_eq_nil_iff.1 some_)
  rw [front_eq, List.cons_append] at words_eq
  obtain ⟨first, split⟩ := List.cons.inj words_eq
  obtain ⟨behind', same⟩ := wordBehind_piece blank all split
  exact ⟨us, vs, split, behind.front_eq behind' (by rw [front_eq, same, first])⟩

/-- Pieces that hold as many words as they may are such lines. -/
theorem Greedy.isReflow (greedy : Greedy (indentOf line).length width pieces)
    (flat : pieces.flatMap Piece.words = Text.words line) :
    IsReflow width line (pieces.map (indentOf line ++ Piece.text ·)) := by
  have blank := blank_indentOf line
  have all {p} (mem : p ∈ pieces) : ∀ w ∈ p.words, IsWord w := fun w hw =>
    Text.isWord_of_mem_words (flat ▸ List.mem_flatMap.2 ⟨p, mem, hw⟩)
  have indent_eq {p} (mem : p ∈ pieces) : indentOf (indentOf line ++ p.text) = indentOf line :=
    Piece.indentOf_append_text blank (all mem)
  refine ⟨?_, ?_, ?_, ?_, ?_⟩
  · rw [List.flatMap_map, ← flat]
    exact List.flatMap_congr fun p mem => Piece.words_append_text blank (all mem)
  · rintro _ mem
    obtain ⟨p, inside, rfl⟩ := List.mem_map.1 mem
    exact indent_eq inside
  · rintro _ mem
    obtain ⟨p, inside, rfl⟩ := List.mem_map.1 mem
    rw [indent_eq inside, Piece.words_append_text blank (all inside)]
    exact ⟨by simp [Piece.words], rfl⟩
  · rintro _ mem front w behind some_ long
    obtain ⟨p, inside, rfl⟩ := List.mem_map.1 mem
    obtain ⟨us, vs, split, rfl⟩ := exists_split_of_wordBehind blank (all inside) behind some_
    refine canStartLine_eq_false_iff.1 (greedy.fits p inside us w vs split ?_)
    simp only [List.length_append, List.length_singleton] at long
    omega
  · rw [List.isChain_map]
    refine greedy.breaks.imp_of_mem_imp fun p q _ mem breaks w first => ?_
    rw [Piece.words_append_text blank (all mem)] at first
    obtain rfl : q.1 = w := by simpa [Piece.words] using first
    refine ⟨canStartLine_eq_true_iff.1 breaks.2, ?_⟩
    rw [List.length_append]
    exact breaks.1

/-- Such lines are pieces that hold as many words as they may. -/
theorem IsReflow.exists_greedy (h : IsReflow width line lines) : ∃ pieces : List Piece,
    Greedy (indentOf line).length width pieces ∧ pieces.flatMap Piece.words = Text.words line ∧
      lines = pieces.map (indentOf line ++ Piece.text ·) := by
  let pieceOf (l : Text) : Piece := ((Text.words l).headD [], (Text.words l).tail)
  have blank := blank_indentOf line
  have words_eq {l} (mem : l ∈ lines) : (pieceOf l).words = Text.words l := by
    obtain ⟨w, ws, eq⟩ := List.exists_cons_of_ne_nil (h.spaced l mem).1
    simp [pieceOf, Piece.words, eq]
  have all {l} (mem : l ∈ lines) : ∀ w ∈ (pieceOf l).words, IsWord w := fun w hw =>
    Text.isWord_of_mem_words (words_eq mem ▸ hw)
  have text_eq {l} (mem : l ∈ lines) : l = indentOf line ++ (pieceOf l).text := by
    have spaced := (h.spaced l mem).2
    rw [h.indent l mem] at spaced
    rw [Piece.text, words_eq mem]
    exact spaced
  refine ⟨lines.map pieceOf, ⟨?_, ?_⟩, ?_, ?_⟩
  · rintro _ mem us w vs split long
    obtain ⟨l, inside, rfl⟩ := List.mem_map.1 mem
    obtain ⟨behind, same⟩ := wordBehind_piece blank (all inside) split
    rw [← text_eq inside] at behind
    have some_ : ¬ Blank (indentOf line ++ (unwords ((pieceOf l).1 :: us) ++ [Text.unit ' '])) := by
      rw [← Text.words_eq_nil_iff, same]
      simp
    refine canStartLine_eq_false_iff.2 (h.fits l inside _ w behind some_ ?_)
    simp only [List.length_append, List.length_singleton]
    omega
  · rw [List.isChain_map]
    refine h.breaks.imp_of_mem_imp fun l next mem mem' breaks => ?_
    have first : (pieceOf next).1 ∈ (Text.words next).head? := by
      rw [← words_eq mem']
      rfl
    obtain ⟨start, long⟩ := breaks _ first
    refine ⟨?_, canStartLine_eq_true_iff.2 start⟩
    rw [text_eq mem, List.length_append] at long
    exact long
  · rw [List.flatMap_map, ← h.words_eq]
    exact List.flatMap_congr fun l mem => words_eq mem
  · rw [List.map_map]
    exact (List.map_id lines).symm.trans (List.map_congr_left fun l mem => text_eq mem)

/-! ## The formatter -/

/-- A line longer than the width becomes the lines that hold as many of its words as they may,
behind its indentation, unless a comment is in it. -/
theorem reflow_eq_iff (long : width < (line.length : Int)) (quiet : hasComment line = false) :
    reflow width line = lines ↔ IsReflow width line lines := by
  obtain ⟨pieces, greedy, flat⟩ := exists_pieces width (indentOf line).length (Text.words line)
  constructor
  · rintro rfl
    rw [greedy.reflow_eq flat long quiet]
    exact greedy.isReflow flat
  · intro h
    obtain ⟨pieces, greedy, flat, rfl⟩ := h.exists_greedy
    exact greedy.reflow_eq flat long quiet

/-- The equals sign stays on the first line, where it ends beyond the width. -/
theorem reflow_eq_iff_marked : (10 : Int) < (Text.ofString "\taaaa bbbb = cc  dd").length ∧
    hasComment "\taaaa bbbb = cc  dd" = false ∧
    IsReflow 10 "\taaaa bbbb = cc  dd" ["\taaaa bbbb =", "\tcc dd"] :=
  ⟨by decide, by decide, (reflow_eq_iff (by decide) (by decide)).1 (by decide)⟩

end Layout

end Quill
