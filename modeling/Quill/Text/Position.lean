/-!
# Spans, positions and ranges

A span is a pair of offsets, a position a line and a column, a range a pair of positions. All of
them are integers, because a client may send anything; the operations that read a text bring them
back into it.

## Main definitions

* `Span`, `Position`, `Range` — the three kinds of place.
* `Span.touches` — the cursor test: both ends belong to the span.
* `Span.overlaps` — whether two spans share a unit.
* `Span.difference`, `Position.difference` — comparisons as a signed distance.
-/

namespace Quill

/-- The units from offset `start` up to, and not including, offset `stop`. -/
structure Span where
  start : Int
  stop : Int
  deriving DecidableEq, Repr, Inhabited

structure Position where
  line : Int
  character : Int
  deriving DecidableEq, Repr, Inhabited

structure Range where
  start : Position
  stop : Position
  deriving DecidableEq, Repr, Inhabited

def Position.zero : Position := ⟨0, 0⟩

def Range.zero : Range := ⟨.zero, .zero⟩

namespace Span

def length (s : Span) : Int := s.stop - s.start

/-- Whether a cursor at `offset` touches the span; right after its last unit still counts. -/
def touches (s : Span) (offset : Int) : Bool := s.start ≤ offset && offset ≤ s.stop

def overlaps (a b : Span) : Bool := a.start < b.stop && b.start < a.stop

def within (a b : Span) : Bool := b.start ≤ a.start && a.stop ≤ b.stop

/-- The distance between the starts, or between the ends when the starts agree. -/
def difference (a b : Span) : Int :=
  if a.start = b.start then a.stop - b.stop else a.start - b.start

/-- Order by start, then by end. -/
def le (a b : Span) : Bool := a.difference b ≤ 0

theorem touches_iff {s : Span} {o : Int} : s.touches o ↔ s.start ≤ o ∧ o ≤ s.stop := by
  simp [touches]

end Span

namespace Position

def difference (p q : Position) : Int :=
  if p.line = q.line then p.character - q.character else p.line - q.line

/-- Order by line, then by column. -/
def le (p q : Position) : Bool := p.difference q ≤ 0

def lt (p q : Position) : Bool := p.difference q < 0

theorem difference_eq_zero_iff {p q : Position} : p.difference q = 0 ↔ p = q := by
  cases p; cases q; simp only [difference, Position.mk.injEq]; split <;> omega

theorem le_trans {p q r : Position} (h1 : p.le q) (h2 : q.le r) : p.le r := by
  simp only [le, difference] at *
  grind

theorem le_total (p q : Position) : p.le q || q.le p := by
  simp only [le, difference, Bool.or_eq_true]
  grind

end Position

end Quill
