/-!
# Stable sorting

Sorting by insertion: it follows the list, so that a sorted list of known items can be computed in a
proof.

## Main definitions

* `insertBy` — put an item before the first one that it may precede.
* `sortBy` — the items in order, equal ones in the order given.

## Main statements

* `pairwise_sortBy`, `sortBy_perm` — the result is in order and has the same items.
* `sortBy_eq_self` — what is in order stays.
* `sortBy_append` — of two lists, all of the one in front of the other, each is sorted by itself.
* `sortBy_map` — sorting images is sorting by their order.
-/

namespace Quill

section

variable {α : Type} (le : α → α → Bool)

/-- The list with `a` before the first item that it may precede. -/
def insertBy (a : α) : List α → List α
  | [] => [a]
  | b :: rest => if le a b then a :: b :: rest else b :: insertBy a rest

/-- The items in order, equal ones in the order given. -/
def sortBy (xs : List α) : List α := xs.foldr (insertBy le) []

theorem insertBy_perm (a : α) (xs : List α) : (insertBy le a xs).Perm (a :: xs) := by
  induction xs with
  | nil => exact .refl _
  | cons b rest ih =>
    unfold insertBy
    split
    · exact .refl _
    · exact (ih.cons b).trans (.swap a b rest)

theorem sortBy_perm (xs : List α) : (sortBy le xs).Perm xs := by
  induction xs with
  | nil => exact .refl _
  | cons a rest ih => exact (insertBy_perm le a _).trans (ih.cons a)

theorem pairwise_insertBy (trans : ∀ a b c, le a b → le b c → le a c)
    (total : ∀ a b, le a b || le b a) (a : α) {xs : List α} (h : xs.Pairwise fun a b => le a b) :
    (insertBy le a xs).Pairwise fun a b => le a b := by
  induction xs with
  | nil => simp [insertBy]
  | cons b rest ih =>
    obtain ⟨first, later⟩ := List.pairwise_cons.1 h
    unfold insertBy
    split
    next before =>
      refine List.pairwise_cons.2 ⟨?_, h⟩
      intro c hc
      rcases List.mem_cons.1 hc with rfl | hc
      · exact before
      · exact trans _ _ _ before (first c hc)
    next after =>
      refine List.pairwise_cons.2 ⟨?_, ih later⟩
      intro c hc
      rcases List.mem_cons.1 ((insertBy_perm le a rest).mem_iff.1 hc) with rfl | hc
      · simpa [after] using total c b
      · exact first c hc

theorem pairwise_sortBy (trans : ∀ a b c, le a b → le b c → le a c)
    (total : ∀ a b, le a b || le b a) (xs : List α) :
    (sortBy le xs).Pairwise fun a b => le a b := by
  induction xs with
  | nil => exact .nil
  | cons a rest ih => exact pairwise_insertBy le trans total a ih

end

/-! ## Laws -/

variable {α β : Type} {le : α → α → Bool} {a : α} {xs ys : List α}

theorem sortBy_cons (le : α → α → Bool) (a : α) (xs : List α) :
    sortBy le (a :: xs) = insertBy le a (sortBy le xs) := rfl

/-- Sorting leaves a list in order as it is. -/
theorem sortBy_eq_self (sorted : xs.Pairwise fun a b => le a b) : sortBy le xs = xs := by
  induction sorted with
  | nil => rfl
  | @cons a xs first sorted ih =>
    rw [sortBy_cons, ih]
    cases xs with
    | nil => rfl
    | cons b xs => rw [insertBy, if_pos (first b (by simp))]

/-! ## Lists one behind the other -/

/-- An item that may precede all of `ys` goes among those in front of them. -/
theorem insertBy_append (first : ∀ y ∈ ys, le a y) (xs : List α) :
    insertBy le a (xs ++ ys) = insertBy le a xs ++ ys := by
  induction xs with
  | nil =>
    cases ys with
    | nil => rfl
    | cons y ys => simp [insertBy, first y (by simp)]
  | cons x xs ih =>
    simp only [List.cons_append, insertBy, ih]
    split <;> rfl

theorem sortBy_append (ordered : ∀ x ∈ xs, ∀ y ∈ ys, le x y) :
    sortBy le (xs ++ ys) = sortBy le xs ++ sortBy le ys := by
  induction xs with
  | nil => rfl
  | cons x xs ih =>
    have first : ∀ y ∈ sortBy le ys, le x y := fun y mem =>
      ordered x (by simp) y ((sortBy_perm le ys).mem_iff.1 mem)
    have later := ih fun x mem => ordered x (by simp [mem])
    rw [List.cons_append, sortBy_cons, later, insertBy_append first, sortBy_cons]

/-! ## Images -/

theorem insertBy_map (le : β → β → Bool) (f : α → β) (a : α) (xs : List α) :
    insertBy le (f a) (xs.map f) = (insertBy (fun x y => le (f x) (f y)) a xs).map f := by
  induction xs with
  | nil => rfl
  | cons x xs ih =>
    simp only [List.map_cons, insertBy, ih]
    split <;> rfl

theorem sortBy_map (le : β → β → Bool) (f : α → β) (xs : List α) :
    sortBy le (xs.map f) = (sortBy (fun x y => le (f x) (f y)) xs).map f := by
  induction xs with
  | nil => rfl
  | cons x xs ih => rw [List.map_cons, sortBy_cons, ih, insertBy_map, sortBy_cons]

end Quill
