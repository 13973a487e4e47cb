import Quill.Data.Sort
import Quill.Text.Basic

/-!
# Order of texts

Texts are ordered unit by unit, so a surrogate pair sorts before the units above the surrogates.
Everything the library reports in sorted order uses this order.

## Main definitions

* `Text.compare` — lexicographic comparison of the units.
* `Text.le` — the order as a Boolean test.
* `Text.sort`, `Text.sortOn` — stable sorting by text or by a textual key.
-/

namespace Quill.Text

/-- Unit by unit; a proper beginning comes first. -/
def compare : Text → Text → Ordering
  | [], [] => .eq
  | [], _ :: _ => .lt
  | _ :: _, [] => .gt
  | a :: s, b :: t => if a < b then .lt else if b < a then .gt else compare s t

def le (a b : Text) : Bool := compare a b != .gt

def lt (a b : Text) : Bool := compare a b == .lt

@[simp] theorem compare_self (a : Text) : compare a a = .eq := by
  induction a with
  | nil => rfl
  | cons u t ih => simp [compare, ih]

theorem compare_eq_iff {a b : Text} : compare a b = .eq ↔ a = b := by
  constructor
  · intro h
    induction a generalizing b with
    | nil => cases b <;> simp_all [compare]
    | cons u s ih =>
      cases b with
      | nil => simp [compare] at h
      | cons v t =>
        rw [compare] at h
        split at h
        · simp at h
        · split at h
          · simp at h
          next h1 h2 =>
            have : u = v := UInt16.le_antisymm (UInt16.not_lt.1 h2) (UInt16.not_lt.1 h1)
            rw [this, ih h]
  · rintro rfl; simp

theorem compare_swap (a b : Text) : (compare a b).swap = compare b a := by
  induction a generalizing b with
  | nil => cases b <;> rfl
  | cons u s ih =>
    cases b with
    | nil => rfl
    | cons v t =>
      rw [compare, compare]
      by_cases h1 : u < v
      · simp [h1, UInt16.lt_asymm h1]
      · by_cases h2 : v < u
        · simp [h1, h2]
        · simp [h1, h2, ih]

theorem compare_trans_le {a b c : Text} (h1 : le a b) (h2 : le b c) : le a c := by
  induction a generalizing b c with
  | nil => cases c <;> rfl
  | cons u s ih =>
    cases b with
    | nil => simp [le, compare] at h1
    | cons v t =>
      cases c with
      | nil => simp [le, compare] at h2
      | cons w r =>
        simp only [le, compare, bne_iff_ne] at h1 h2 ⊢
        have ih' : compare s t ≠ .gt → compare t r ≠ .gt → compare s r ≠ .gt := by
          intro ha hb
          have := ih (b := t) (c := r) (by simpa [le] using ha) (by simpa [le] using hb)
          simpa [le] using this
        have tu : ∀ x y : UInt16, x < y ↔ x.toNat < y.toNat := fun x y => UInt16.lt_iff_toNat_lt
        simp only [tu] at *
        split at h1 <;> split at h2 <;> grind

theorem le_total (a b : Text) : le a b || le b a := by
  simp only [le]
  rw [← compare_swap a b]
  cases compare a b <;> rfl

def sort (ts : List Text) : List Text := sortBy le ts

/-- The items in the order of their keys, items of one key in the order given. -/
def sortOn {α : Type} (key : α → Text) (xs : List α) : List α :=
  sortBy (fun a b => le (key a) (key b)) xs

theorem sort_perm (ts : List Text) : (sort ts).Perm ts := sortBy_perm _ _

theorem sortOn_perm {α : Type} (key : α → Text) (xs : List α) : (sortOn key xs).Perm xs :=
  sortBy_perm _ _

theorem sort_pairwise (ts : List Text) : (sort ts).Pairwise fun a b => le a b :=
  pairwise_sortBy le (fun _ _ _ h1 h2 => compare_trans_le h1 h2) le_total ts

end Quill.Text
