import Quill.Text.Basic
import Quill.Text.Position

/-!
# Lines and positions

A line ends at CR LF, at a lone CR or at a LF. The table of a text holds its lines with the offset
at which each starts; positions and offsets are converted through it.

## Main definitions

* `Text.lines` — the lines of a text without their line breaks; never empty.
* `LineTable.positionAt` — the position of an offset; an offset outside the text is moved into it.
* `LineTable.offsetAt` — the offset of a position; a column past the end of its line is the end of
  the line, a line past the last one the end of the text.
-/

namespace Quill

/-- One line: where it starts and what it holds, without the line break. -/
structure Line where
  start : Nat
  content : Text
  deriving DecidableEq, Repr

def Line.stop (l : Line) : Nat := l.start + l.content.length

namespace Text

abbrev carriageReturn : UInt16 := 13

abbrev lineFeed : UInt16 := 10

/-- Whether a line ends right after the unit `u`, given the units behind it. -/
def endsLine (u : UInt16) (behind : Text) : Bool :=
  u == lineFeed || (u == carriageReturn && behind.head? != some lineFeed)

/-- The lines of a text that starts at `offset`. A carriage return that does not end its line is
half of a line break and belongs to no content. -/
def linesFrom (offset : Nat) : Text → List Line
  | [] => [⟨offset, []⟩]
  | u :: rest =>
    if endsLine u rest then ⟨offset, []⟩ :: linesFrom (offset + 1) rest
    else
      match linesFrom (offset + 1) rest with
      | [] => []
      | line :: others =>
        ⟨offset, if u == carriageReturn then line.content else u :: line.content⟩ :: others

def lines (t : Text) : List Line := linesFrom 0 t

theorem linesFrom_ne_nil (offset : Nat) (t : Text) : linesFrom offset t ≠ [] := by
  induction t generalizing offset with
  | nil => simp [linesFrom]
  | cons u rest ih =>
    rw [linesFrom]
    split
    · simp
    · split
      next h => exact absurd h (ih _)
      next => simp

theorem lines_ne_nil (t : Text) : t.lines ≠ [] := linesFrom_ne_nil 0 t

theorem head?_linesFrom_start (offset : Nat) (t : Text) :
    (linesFrom offset t).head?.map Line.start = some offset := by
  cases t with
  | nil => rfl
  | cons u rest =>
    rw [linesFrom]
    split
    · rfl
    · split
      next h => exact absurd h (linesFrom_ne_nil _ _)
      next => rfl

end Text

structure LineTable where
  length : Nat
  lines : List Line

namespace LineTable

def ofText (t : Text) : LineTable := ⟨t.length, t.lines⟩

def lineCount (table : LineTable) : Nat := table.lines.length

def clamp (table : LineTable) (offset : Int) : Nat := (min offset table.length).toNat

/-- Walks to the last of the `lines` that starts at or before `offset`; `index` is the number of
the line before them, which starts at `start`. -/
def locate (offset : Nat) (index start : Nat) : List Line → Position
  | [] => ⟨index, (offset : Int) - start⟩
  | line :: others =>
    if line.start ≤ offset then locate offset (index + 1) line.start others
    else ⟨index, (offset : Int) - start⟩

def positionAt (table : LineTable) (offset : Int) : Position :=
  locate (table.clamp offset) 0 0 table.lines.tail

def offsetAt (table : LineTable) (p : Position) : Nat :=
  if p.line < 0 then 0
  else match table.lines[p.line.toNat]? with
    | none => table.length
    | some line => min line.stop (line.start + p.character.toNat)

def rangeOf (table : LineTable) (s : Span) :
    Range := ⟨table.positionAt s.start, table.positionAt s.stop⟩

/-- The offsets of the two ends of a range, in ascending order. -/
def spanOf (table : LineTable) (r : Range) : Span :=
  let a := table.offsetAt r.start
  let b := table.offsetAt r.stop
  if a ≤ b then ⟨a, b⟩ else ⟨b, a⟩

end LineTable

end Quill
