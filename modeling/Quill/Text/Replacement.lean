import Quill.Text.Position
import Quill.Text.Basic

/-!
# Replacing a part of a text

## Main definitions

* `Replacement` — a span and the text that takes its place.
* `Replacement.apply` — the text after the replacement.
* `Replacement.between?` — the replacement that turns one text into another, cut down to where they
  differ; none when they are equal.
-/

namespace Quill

/-- The text `newText` in place of a span. -/
structure Replacement where
  span : Span
  newText : Text
  deriving DecidableEq, Repr

namespace Replacement

def apply (r : Replacement) (t : Text) : Text :=
  t.take r.span.start.toNat ++ r.newText ++ t.drop r.span.stop.toNat

/-- The number of units that two texts have in common at their start. -/
def commonLength : Text → Text → Nat
  | a :: s, b :: t => if a == b then commonLength s t + 1 else 0
  | _, _ => 0

/-- Shorten a common beginning that ends inside a surrogate pair of `t`. -/
def keepPairAtEnd (t : Text) (n : Nat) : Nat :=
  if (t.take n).getLast?.any Text.isHighSurrogate then n - 1 else n

/-- Shorten a common ending of `n` units that starts inside a surrogate pair of `t`. -/
def keepPairAtStart (t : Text) (n : Nat) : Nat :=
  if n != 0 && ((t.drop (t.length - n)).head?.any Text.isLowSurrogate) then n - 1 else n

/-- The replacement that turns `before` into `after`: what lies between their common beginning and
their common ending. Neither cuts a surrogate pair, and they do not overlap. -/
def between? (before after : Text) : Option Replacement :=
  if before = after then none
  else
    let limit := min before.length after.length
    let head := keepPairAtEnd before (commonLength before after)
    let tail := keepPairAtStart before
      (min (limit - head) (commonLength before.reverse after.reverse))
    some ⟨⟨head, (before.length : Int) - tail⟩, after.slice head (after.length - tail)⟩

theorem commonLength_le_left (s t : Text) : commonLength s t ≤ s.length := by
  fun_induction commonLength s t <;> simp_all

theorem commonLength_le_right (s t : Text) : commonLength s t ≤ t.length := by
  fun_induction commonLength s t <;> simp_all

/-- The common beginning is the same units in both texts. -/
theorem take_commonLength (s t : Text) :
    s.take (commonLength s t) = t.take (commonLength s t) := by
  fun_induction commonLength s t <;> simp_all

@[simp] theorem between?_self (t : Text) : between? t t = none := by simp [between?]

end Replacement

end Quill
