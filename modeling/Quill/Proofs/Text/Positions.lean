import Quill.Proofs.Text.Lines

/-!
# From an offset to its position and back

The position of an offset leads back to the offset, unless that lies inside a line break of two
units: the line that it belongs to ends in front of the break.

## Main definitions

* `Text.SplitsBreak` — the offsets between a carriage return and the line feed that belongs to it.
* `Line.reached` — the last line that starts at or before an offset.

## Main statements

* `LineTable.offsetAt_positionAt` — there and back.
* `LineTable.offsetAt_positionAt_of_splitsBreak` — there and back inside a line break.
* `LineTable.positionAt_le` — positions are in the order of the offsets.
-/

namespace Quill

namespace Position

variable {p q : Position}

theorem lt_iff : p.lt q ↔ p.line < q.line ∨ p.line = q.line ∧ p.character < q.character := by
  simp only [lt, difference]
  grind

theorem le_iff : p.le q ↔ p.line < q.line ∨ p.line = q.line ∧ p.character ≤ q.character := by
  simp only [le, difference]
  grind

theorem le_iff_not_lt : p.le q ↔ ¬ q.lt p := by
  rw [le_iff, lt_iff]
  omega

theorem lt_eq_false_of_le (h : p.le q) : q.lt p = false := by
  simpa using le_iff_not_lt.1 h

end Position

namespace Text

/-- The offset lies between a carriage return and the line feed that belongs to it. -/
def SplitsBreak (t : Text) (offset : Nat) : Prop :=
  ∃ front behind, t = front ++ carriageReturn :: lineFeed :: behind ∧ offset = front.length + 1

variable {t line rest br : Text} {u : UInt16} {k : Nat}

theorem not_splitsBreak_zero : ¬ SplitsBreak t 0 := by
  rintro ⟨front, behind, -, eq⟩
  omega

/-- The units on both sides of an offset inside a line break. -/
theorem SplitsBreak.getElem? (splits : SplitsBreak t k) :
    t[k - 1]? = some carriageReturn ∧ t[k]? = some lineFeed := by
  obtain ⟨front, behind, rfl, rfl⟩ := splits
  simp

theorem splitsBreak_cons_succ : SplitsBreak (u :: rest) (k + 1) ↔
    (k = 0 ∧ u = carriageReturn ∧ rest.head? = some lineFeed) ∨ SplitsBreak rest k := by
  constructor
  · rintro ⟨front, behind, eq, at_⟩
    cases front with
    | nil =>
      obtain ⟨rfl, rfl⟩ : u = carriageReturn ∧ rest = lineFeed :: behind := by simpa using eq
      exact .inl ⟨by simpa using at_, rfl, rfl⟩
    | cons v front =>
      obtain ⟨rfl, rfl⟩ : u = v ∧ rest = _ := by simpa using eq
      exact .inr ⟨front, behind, rfl, by simpa using at_⟩
  · rintro (⟨rfl, rfl, feed⟩ | ⟨front, behind, rfl, rfl⟩)
    · cases rest with
      | nil => simp at feed
      | cons v behind =>
        obtain rfl : v = lineFeed := by simpa using feed
        exact ⟨[], behind, rfl, rfl⟩
    · exact ⟨u :: front, behind, rfl, rfl⟩

theorem not_splitsBreak_of_le (unbroken : Unbroken line) (le : k ≤ line.length) :
    ¬ SplitsBreak (line ++ rest) k := by
  rintro ⟨front, behind, eq, rfl⟩
  have found : (line ++ rest)[front.length]? = some carriageReturn := by simp [eq]
  rw [List.getElem?_append_left le] at found
  have plain := unbroken _ (List.mem_of_getElem? found)
  simp [isBreak] at plain

theorem splitsBreak_append (unbroken : Unbroken line) (rest : Text) (k : Nat) :
    SplitsBreak (line ++ rest) (line.length + k) ↔ SplitsBreak rest k := by
  induction line with
  | nil => simp
  | cons u line ih =>
    have plain : u ≠ carriageReturn := by
      have := unbroken u (by simp)
      simp_all [isBreak]
    rw [List.cons_append, List.length_cons, Nat.add_right_comm, splitsBreak_cons_succ,
      ih fun v mem => unbroken v (by simp [mem])]
    simp [plain]

/-- A line break goes on for two units if it has an inside. -/
theorem splitsBreak_lineBreak (br_ : LineBreak rest br) (inside : k < br.length) :
    SplitsBreak (br ++ rest) k ↔ k = 1 := by
  cases k with
  | zero => simp [not_splitsBreak_zero]
  | succ k =>
    cases br_ with
    | feed | return_ => simp at inside
    | pair =>
      obtain rfl : k = 0 := by simpa [Nat.lt_succ_iff] using inside
      simp [splitsBreak_cons_succ]

theorem splitsBreak_behind (br_ : LineBreak rest br) (k : Nat) :
    SplitsBreak (br ++ rest) (br.length + k) ↔ SplitsBreak rest k := by
  have other : lineFeed ≠ carriageReturn := by decide
  rw [Nat.add_comm]
  cases br_ with
  | feed => simp [splitsBreak_cons_succ, other]
  | return_ alone => simp [splitsBreak_cons_succ, alone]
  | pair => simp [splitsBreak_cons_succ, other]

end Text

open Text (SplitsBreak linesFrom carriageReturn lineFeed)

def Line.reached (offset : Nat) (line : Line) : List Line → Line
  | [] => line
  | next :: others => if next.start ≤ offset then next.reached offset others else line

namespace Line

variable {line line' : Line} {others : List Line} {offset base : Nat} {t : Text}

theorem start_reached_le (le : line.start ≤ offset) (others : List Line) :
    (line.reached offset others).start ≤ offset := by
  induction others generalizing line with
  | nil => exact le
  | cons next others ih =>
    unfold reached
    split
    next reaches => exact ih reaches
    next => exact le

theorem reached_of_lt (later : ∀ l ∈ others, offset < l.start) :
    line.reached offset others = line := by
  cases others with
  | nil => rfl
  | cons next others =>
    have := later next (by simp)
    rw [reached, if_neg (by omega)]

end Line

namespace Text

variable {t : Text} {base offset : Nat} {line : Line} {others : List Line}

theorem le_start_of_mem_linesFrom {l : Line} (mem : l ∈ linesFrom base t) : base ≤ l.start := by
  induction t generalizing base l with
  | nil =>
    obtain rfl : l = ⟨base, []⟩ := by simpa [linesFrom] using mem
    exact Nat.le_refl _
  | cons u rest ih =>
    rw [linesFrom] at mem
    split at mem
    · rcases List.mem_cons.1 mem with rfl | mem
      · exact Nat.le_refl _
      · exact Nat.le_of_succ_le (ih mem)
    · split at mem
      next => simp at mem
      next line others eq =>
        rcases List.mem_cons.1 mem with rfl | mem
        · exact Nat.le_refl _
        · exact Nat.le_of_succ_le (ih (eq ▸ List.mem_cons_of_mem line mem))

theorem start_of_linesFrom (eq : linesFrom base t = line :: others) : line.start = base := by
  simpa [eq] using head?_linesFrom_start base t

/-- The line that an offset of the text belongs to goes on to the offset, or ends right before it,
when it lies inside a line break. -/
theorem stop_reached (eq : linesFrom base t = line :: others) {k : Nat} (le : k ≤ t.length) :
    (SplitsBreak t k → (line.reached (base + k) others).stop + 1 = base + k) ∧
      (¬ SplitsBreak t k → base + k ≤ (line.reached (base + k) others).stop) := by
  induction t using line_induction generalizing base line others k with
  | last content unbroken =>
    obtain ⟨rfl, rfl⟩ : (⟨base, content⟩ : Line) = line ∧ others = [] := by
      simpa [linesFrom_unbroken unbroken, eq_comm] using eq
    have whole : ¬ SplitsBreak (content ++ []) k := not_splitsBreak_of_le unbroken le
    rw [List.append_nil] at whole
    exact ⟨fun splits => absurd splits whole, fun _ => Nat.add_le_add_left le base⟩
  | more content b rest unbroken break_ ih =>
    obtain ⟨br, br_eq, br_⟩ := exists_lineBreak break_ rest
    rw [br_eq] at eq le ⊢
    generalize behindBreak b rest = rest at *
    obtain ⟨rfl, rfl⟩ : (⟨base, content⟩ : Line) = line ∧
        linesFrom (base + content.length + br.length) rest = others := by
      simpa [linesFrom_append_lineBreak unbroken br_] using eq
    by_cases inside : k < content.length + br.length
    · -- the next line starts behind the offset
      have own : Line.reached (base + k)
          ⟨base, content⟩ (linesFrom (base + content.length + br.length) rest) =
          ⟨base, content⟩ :=
        Line.reached_of_lt fun l mem =>
          Nat.lt_of_lt_of_le (by omega) (le_start_of_mem_linesFrom mem)
      rw [own, Line.stop]
      by_cases inLine : k ≤ content.length
      · exact ⟨fun splits => absurd splits (not_splitsBreak_of_le unbroken inLine),
          fun _ => by simpa using inLine⟩
      · obtain ⟨j, rfl⟩ := Nat.exists_eq_add_of_le (Nat.le_of_not_le inLine)
        have two : br.length ≤ 2 := by cases br_ <;> simp
        have splits := (splitsBreak_lineBreak br_ (k := j) (by omega)).2 (by omega)
        rw [splitsBreak_append unbroken]
        exact ⟨fun _ => by simp only; omega, fun none => absurd splits none⟩
    · obtain ⟨j, rfl⟩ : ∃ j, k = content.length + (br.length + j) :=
        ⟨k - content.length - br.length, by omega⟩
      obtain ⟨first, more, behind⟩ :=
        List.exists_cons_of_ne_nil (linesFrom_ne_nil (base + content.length + br.length) rest)
      have start := start_of_linesFrom behind
      have there := ih behind (k := j) (by simp only [List.length_append] at le; omega)
      rw [splitsBreak_append unbroken, splitsBreak_behind br_, behind, Line.reached,
        if_pos (by omega)]
      simpa only [Nat.add_assoc] using there

end Text

namespace LineTable

variable {t : Text} {table : LineTable} {line : Line} {front others : List Line} {offset : Nat}

/-- The walk to the line of an offset comes to the line that is reached. -/
theorem locate_eq (lines : table.lines = front ++ line :: others) :
    ∃ index : Nat, locate offset front.length line.start others =
        ⟨index, (offset : Int) - (line.reached offset others).start⟩ ∧
      table.lines[index]? = some (line.reached offset others) := by
  induction others generalizing front line with
  | nil => exact ⟨front.length, rfl, by simp [lines, Line.reached]⟩
  | cons next others ih =>
    unfold locate Line.reached
    split
    next =>
      have lines : table.lines = (front ++ [line]) ++ next :: others := by simp [lines]
      simpa using ih lines
    next => exact ⟨front.length, rfl, by simp [lines]⟩

/-- The position of an offset leads back to it, or to the end of its line if that comes first. -/
theorem offsetAt_positionAt_eq (lines : t.lines = line :: others) (le : offset ≤ t.length) :
    (ofText t).offsetAt ((ofText t).positionAt offset) =
      min (line.reached offset others).stop offset := by
  have start : line.start = 0 := Text.start_of_linesFrom lines
  have split : (ofText t).lines = [] ++ line :: others := lines
  obtain ⟨index, located, found⟩ := @locate_eq _ _ _ _ offset split
  have clamped : (ofText t).clamp offset = offset := by
    simp only [clamp, ofText]
    omega
  have tail : (ofText t).lines.tail = others := by simp [ofText, lines]
  have reaches : (line.reached offset others).start ≤ offset :=
    Line.start_reached_le (by omega) others
  simp only [start, List.length_nil] at located
  rw [positionAt, clamped, tail, located, offsetAt, if_neg (by simp)]
  simp only [Int.toNat_natCast, found]
  congr 1
  omega

/-- The position of an offset leads back to it, unless it lies inside a line break. -/
theorem offsetAt_positionAt (le : offset ≤ t.length) (apart : ¬ SplitsBreak t offset) :
    (ofText t).offsetAt ((ofText t).positionAt offset) = offset := by
  obtain ⟨line, others, lines⟩ := List.exists_cons_of_ne_nil (Text.lines_ne_nil t)
  have reaches := (Text.stop_reached lines le).2 apart
  rw [offsetAt_positionAt_eq lines le]
  simp only [Nat.zero_add] at reaches
  omega

/-- The position of an offset inside a line break leads in front of the break. -/
theorem offsetAt_positionAt_of_splitsBreak (splits : SplitsBreak t offset) :
    (ofText t).offsetAt ((ofText t).positionAt offset) + 1 = offset := by
  have le : offset ≤ t.length := by
    obtain ⟨front, behind, rfl, rfl⟩ := splits
    simp
  obtain ⟨line, others, lines⟩ := List.exists_cons_of_ne_nil (Text.lines_ne_nil t)
  have ends := (Text.stop_reached lines le).1 splits
  rw [offsetAt_positionAt_eq lines le]
  simp only [Nat.zero_add] at ends
  omega

/-! ## Order -/

variable {o o' : Nat}

theorem le_line_locate (offset index start : Nat) (lines : List Line) :
    (index : Int) ≤ (locate offset index start lines).line := by
  induction lines generalizing index start with
  | nil => exact Int.le_refl _
  | cons line others ih =>
    unfold locate
    split
    · have := ih (index + 1) line.start
      omega
    · exact Int.le_refl _

theorem locate_le (le : o ≤ o') (index start : Nat) (lines : List Line) :
    (locate o index start lines).le (locate o' index start lines) := by
  induction lines generalizing index start with
  | nil =>
    simp only [locate, Position.le, Position.difference, if_true, decide_eq_true_eq]
    omega
  | cons line others ih =>
    unfold locate
    split
    next reaches => simpa [Nat.le_trans reaches le] using ih (index + 1) line.start
    next =>
      split
      · have := le_line_locate o' (index + 1) line.start others
        have ne : (index : Int) ≠ (locate o' (index + 1) line.start others).line := by omega
        simp only [Position.le, Position.difference, ne, if_false, decide_eq_true_eq]
        omega
      · simp only [Position.le, Position.difference, if_true, decide_eq_true_eq]
        omega

/-- A later offset has no earlier position. -/
theorem positionAt_le {i j : Int} (le : i ≤ j) (table : LineTable) :
    (table.positionAt i).le (table.positionAt j) :=
  locate_le (by simp only [clamp]; omega) 0 0 _

end LineTable

end Quill
