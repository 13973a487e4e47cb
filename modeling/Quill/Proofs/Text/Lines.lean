import Quill.Text.Lines

/-!
# A text line by line

A text is one line, or a line, a line break and the text behind it. What holds of all texts can be
proved along its lines.

## Main definitions

* `Text.isBreak`, `Text.Unbroken` — the units of line breaks, and texts without them.
* `Text.behindBreak` — what stands behind a line break.
* `Text.LineBreak` — a line break, given what stands behind it.
* `Text.linesFrom_append_lineBreak` — the first line of a text with a line break, and the others.
* `Text.line_induction` — induction along the lines.
* `Text.contents` — the contents of the lines.
-/

namespace Quill.Text

def isBreak (u : UInt16) : Bool := u == lineFeed || u == carriageReturn

def Unbroken (t : Text) : Prop := ∀ u ∈ t, isBreak u = false

/-- The text behind a line break that starts with `u`: a line feed belongs to the carriage return
before it. -/
def behindBreak (u : UInt16) (rest : Text) : Text :=
  if u == carriageReturn && rest.head? == some lineFeed then rest.tail else rest

variable {t line rest br : Text} {u b : UInt16} {offset : Nat}

theorem length_behindBreak_le (u : UInt16) (rest : Text) :
    (behindBreak u rest).length ≤ rest.length := by
  unfold behindBreak
  split <;> simp

/-- Units that break no line stand in front of the first line of what is behind them. -/
theorem linesFrom_append (unbroken : Unbroken line) (offset : Nat) (rest : Text) :
    ∃ first others, linesFrom (offset + line.length) rest = first :: others ∧
      linesFrom offset (line ++ rest) = ⟨offset, line ++ first.content⟩ :: others := by
  induction line generalizing offset with
  | nil =>
    have start := head?_linesFrom_start offset rest
    cases eq : linesFrom offset rest with
    | nil => exact absurd eq (linesFrom_ne_nil _ _)
    | cons first others =>
      obtain ⟨start', content⟩ := first
      obtain rfl : start' = offset := by simpa [eq] using start
      exact ⟨⟨start', content⟩, others, by simp, by simp [eq]⟩
  | cons u line ih =>
    obtain ⟨first, others, behind, eq⟩ := ih (fun v hv => unbroken v (by simp [hv])) (offset + 1)
    have inner : isBreak u = false := unbroken u (by simp)
    have plain : u ≠ lineFeed ∧ u ≠ carriageReturn := by simpa [isBreak] using inner
    refine ⟨first, others, by rw [← behind, List.length_cons, Nat.add_assoc, Nat.add_comm 1], ?_⟩
    rw [List.cons_append, linesFrom, eq]
    simp [endsLine, plain]

theorem linesFrom_unbroken (unbroken : Unbroken t) (offset : Nat) :
    linesFrom offset t = [⟨offset, t⟩] := by
  obtain ⟨first, others, behind, eq⟩ := linesFrom_append unbroken offset []
  obtain ⟨rfl, rfl⟩ : _ ∧ _ := by simpa [linesFrom] using behind
  simpa using eq

/-- A line break, given what stands behind it: a line feed there belongs to the carriage return. -/
inductive LineBreak (rest : Text) : Text → Prop
  | feed : LineBreak rest [lineFeed]
  | return_ (alone : rest.head? ≠ some lineFeed) : LineBreak rest [carriageReturn]
  | pair : LineBreak rest [carriageReturn, lineFeed]

/-- What stands behind a line break may go on, unless it is a carriage return that nothing stands
behind. -/
theorem LineBreak.append (br_ : LineBreak rest br) (inside : br ≠ [carriageReturn] ∨ rest ≠ [])
    (more : Text) :
    LineBreak (rest ++ more) br := by
  cases br_ with
  | feed => exact .feed
  | pair => exact .pair
  | return_ alone =>
    obtain ⟨u, rest, rfl⟩ := List.exists_cons_of_ne_nil (inside.resolve_left (by simp))
    exact .return_ alone

theorem exists_lineBreak (break_ : isBreak b) (rest : Text) :
    ∃ br, b :: rest = br ++ behindBreak b rest ∧ LineBreak (behindBreak b rest) br := by
  rcases (by simpa [isBreak] using break_ : b = lineFeed ∨ b = carriageReturn) with rfl | rfl
  · exact ⟨[lineFeed], rfl, .feed⟩
  · by_cases feed : rest.head? = some lineFeed
    · obtain ⟨rest, rfl⟩ := List.head?_eq_some_iff.1 feed
      exact ⟨[carriageReturn, lineFeed], rfl, .pair⟩
    · have whole : behindBreak carriageReturn rest = rest := by simp [behindBreak, feed]
      exact ⟨[carriageReturn], by rw [whole]; rfl, .return_ (whole.symm ▸ feed)⟩

/-- At a line break the line is empty, and the next one starts behind the break. -/
theorem linesFrom_lineBreak (br_ : LineBreak rest br) (offset : Nat) :
    linesFrom offset (br ++ rest) = ⟨offset, []⟩ :: linesFrom (offset + br.length) rest := by
  cases br_ with
  | feed => simp [linesFrom, endsLine]
  | return_ alone => simp [linesFrom, endsLine, alone]
  | pair => simp [linesFrom, endsLine, show carriageReturn ≠ lineFeed by decide]

/-- A line ends in front of a line break, and the next one starts behind it. -/
theorem linesFrom_append_lineBreak (unbroken : Unbroken line) (br_ : LineBreak rest br)
    (offset : Nat) :
    linesFrom offset (line ++ (br ++ rest)) =
      ⟨offset, line⟩ :: linesFrom (offset + line.length + br.length) rest := by
  obtain ⟨first, others, behind, eq⟩ := linesFrom_append unbroken offset (br ++ rest)
  rw [linesFrom_lineBreak br_] at behind
  obtain ⟨rfl, rfl⟩ := List.cons.inj behind
  simpa using eq

/-- Up to its first line break a text is its first line; the others are those of what stands behind
the break. -/
theorem linesFrom_append_break (unbroken : Unbroken line) (break_ : isBreak b) (offset : Nat)
    (rest : Text) : ∃ offset',
      linesFrom offset (line ++ b :: rest) = ⟨offset, line⟩ ::
        linesFrom offset' (behindBreak b rest) := by
  obtain ⟨br, eq, br_⟩ := exists_lineBreak break_ rest
  rw [eq]
  exact ⟨_, linesFrom_append_lineBreak unbroken br_ offset⟩

theorem unbroken_or_break (t : Text) : Unbroken t ∨
    ∃ line b rest, t = line ++ b :: rest ∧ Unbroken line ∧ isBreak b := by
  induction t with
  | nil => exact .inl (by simp [Unbroken])
  | cons u t ih =>
    by_cases h : isBreak u
    · exact .inr ⟨[], u, t, rfl, by simp [Unbroken], h⟩
    · rcases ih with whole | ⟨line, b, rest, rfl, unbroken, break_⟩
      · exact .inl (by simpa [Unbroken, h] using whole)
      · exact .inr ⟨u :: line, b, rest, rfl, by simpa [Unbroken, h] using unbroken, break_⟩

/-- What holds of every text on one line, and of a text with a line break if it holds of what stands
behind the break, holds of every text. -/
@[elab_as_elim]
theorem line_induction {motive : Text → Prop} (last : ∀ line, Unbroken line → motive line)
    (more : ∀ line b rest, Unbroken line → isBreak b → motive (behindBreak b rest) →
      motive (line ++ b :: rest)) (t : Text) : motive t := by
  induction h : t.length using Nat.strongRecOn generalizing t with
  | ind n ih =>
    rcases unbroken_or_break t with whole | ⟨line, b, rest, rfl, unbroken, break_⟩
    · exact last t whole
    · refine more line b rest unbroken break_ (ih _ ?_ _ rfl)
      have := length_behindBreak_le b rest
      simp only [List.length_append, List.length_cons] at h
      omega

theorem unbroken_of_mem_linesFrom {l : Line} (mem : l ∈ linesFrom offset t) :
    Unbroken l.content := by
  induction t using line_induction generalizing offset with
  | last line unbroken =>
    obtain rfl : l = ⟨offset, line⟩ := by simpa [linesFrom_unbroken unbroken] using mem
    exact unbroken
  | more line b rest unbroken break_ ih =>
    obtain ⟨offset', eq⟩ := linesFrom_append_break unbroken break_ offset rest
    rw [eq] at mem
    rcases List.mem_cons.1 mem with rfl | later
    · exact unbroken
    · exact ih later

/-! ## Contents -/

def contents (t : Text) : List Text := t.lines.map Line.content

theorem map_content_linesFrom (offset : Nat) (t : Text) :
    (linesFrom offset t).map Line.content = t.contents := by
  unfold contents lines
  generalize 0 = offset'
  induction t using line_induction generalizing offset offset' with
  | last line unbroken => simp [linesFrom_unbroken unbroken]
  | more line b rest unbroken break_ ih =>
    obtain ⟨_, eq⟩ := linesFrom_append_break unbroken break_ offset rest
    obtain ⟨_, eq'⟩ := linesFrom_append_break unbroken break_ offset' rest
    rw [eq, eq', List.map_cons, List.map_cons, ih]

theorem contents_append_break (unbroken : Unbroken line) (break_ : isBreak b) (rest : Text) :
    contents (line ++ b :: rest) = line :: contents (behindBreak b rest) := by
  obtain ⟨_, eq⟩ := linesFrom_append_break unbroken break_ 0 rest
  rw [contents, lines, eq, List.map_cons, map_content_linesFrom]

theorem unbroken_of_mem_contents (mem : line ∈ t.contents) : Unbroken line := by
  obtain ⟨l, inside, rfl⟩ := List.mem_map.1 mem
  exact unbroken_of_mem_linesFrom inside

end Quill.Text
