import Mathlib.Data.List.Forall2
import Mathlib.Data.List.Pairwise
import Mathlib.Data.Option.Basic
import Quill.Data.Sort

/-!
# Lists that correspond, and lists that are sorted

What looks at each item alike finds the same in two lists whose items correspond. Sorting keeps what
holds of all pairs of items, if that does not depend on their order.

## Main statements

* `Related.find?`, `Related.getElem?` — what is found corresponds.
* `Related.exists_left`, `Related.exists_right` — every item has one that corresponds to it.
* `Related.any_eq`, `Related.countP_eq` — what is counted is the same.
* `Related.eq_map` — items that correspond as images do.
* `Related.eraseP`, `Related.sortBy` — what is left, and what is sorted, corresponds.
* `ite_le_trans`, `ite_le_total` — a comparison that goes on when two keys are the same.
* `pairwise_sortBy_iff` — what holds of all pairs of a sorted list.
-/

namespace Quill.Related

open List (Forall₂)

section apart

variable {α β : Type} {r : α → β → Prop} {l : List α} {l' : List β} {a : α} {b : β}

theorem cases {o : Option α} {o' : Option β} (h : Option.Rel r o o') :
    (o = none ∧ o' = none) ∨ ∃ a a', o = some a ∧ o' = some a' ∧ r a a' := by
  cases h with
  | none => exact .inl ⟨rfl, rfl⟩
  | some h => exact .inr ⟨_, _, rfl, rfl, h⟩

theorem getElem? (h : Forall₂ r l l') (i : Nat) : Option.Rel r l[i]? l'[i]? := by
  induction h generalizing i with
  | nil => exact .none
  | cons first rest ih =>
    cases i with
    | zero => exact .some first
    | succ i => simpa using ih i

theorem exists_right (h : Forall₂ r l l') (mem : a ∈ l) : ∃ b ∈ l', r a b := by
  obtain ⟨i, at_i⟩ := List.mem_iff_getElem?.1 mem
  have related := getElem? h i
  rw [at_i] at related
  obtain ⟨none, -⟩ | ⟨_, b, eq, at_i', holds⟩ := cases related
  · cases none
  · exact ⟨b, List.mem_of_getElem? at_i', Option.some.inj eq ▸ holds⟩

theorem exists_left (h : Forall₂ r l l') (mem : b ∈ l') : ∃ a ∈ l, r a b :=
  exists_right (r := flip r) h.flip mem

/-- What corresponds as an image does is the image. -/
theorem eq_map {f : α → β} (h : Forall₂ r l l') (eq : ∀ a b, r a b → b = f a) : l' = l.map f := by
  induction h with
  | nil => rfl
  | cons first rest ih => rw [List.map_cons, eq _ _ first, ih]

end apart

variable {α : Type} {r : α → α → Prop} {p p' : α → Bool} {l l' : List α}

theorem zipIdx (h : Forall₂ r l l') (n : Nat) :
    Forall₂ (fun e e' => r e.1 e'.1 ∧ e.2 = e'.2) (l.zipIdx n) (l'.zipIdx n) := by
  induction h generalizing n with
  | nil => exact .nil
  | cons first rest ih => exact .cons ⟨first, rfl⟩ (ih (n + 1))

/-! ## Looking at each item -/

theorem find? (h : Forall₂ r l l') (same : ∀ a a', r a a' → p a = p' a') :
    Option.Rel r (l.find? p) (l'.find? p') := by
  induction h with
  | nil => exact .none
  | @cons a a' l l' first rest ih =>
    rw [List.find?_cons, List.find?_cons, same a a' first]
    split
    · exact .some first
    · exact ih

theorem any_eq (h : Forall₂ r l l') (same : ∀ a a', r a a' → p a = p' a') :
    l.any p = l'.any p' := by
  induction h with
  | nil => rfl
  | @cons a a' l l' first rest ih => rw [List.any_cons, List.any_cons, same a a' first, ih]

theorem countP_eq (h : Forall₂ r l l') (same : ∀ a a', r a a' → p a = p' a') :
    l.countP p = l'.countP p' := by
  induction h with
  | nil => rfl
  | @cons a a' l l' first rest ih => rw [List.countP_cons, List.countP_cons, same a a' first, ih]

theorem eraseP (h : Forall₂ r l l') (same : ∀ a a', r a a' → p a = p' a') :
    Forall₂ r (l.eraseP p) (l'.eraseP p') := by
  induction h with
  | nil => exact .nil
  | @cons a a' l l' first rest ih =>
    rw [List.eraseP_cons, List.eraseP_cons, same a a' first]
    cases p' a'
    · exact .cons first ih
    · exact rest

/-! ## Sorting -/

variable {le : α → α → Bool}

theorem insertBy (h : Forall₂ r l l') (same : ∀ a a' b b', r a a' → r b b' → le a b = le a' b')
    {a a' : α} (first : r a a') : Forall₂ r (insertBy le a l) (insertBy le a' l') := by
  induction h with
  | nil => exact .cons first .nil
  | @cons b b' l l' second rest ih =>
    rw [Quill.insertBy, Quill.insertBy, same a a' b b' first second]
    split
    · exact .cons first (.cons second rest)
    · exact .cons second ih

/-- Lists that correspond, also in the order of their items, do so when they are sorted. -/
theorem sortBy (h : Forall₂ r l l') (same : ∀ a a' b b', r a a' → r b b' → le a b = le a' b') :
    Forall₂ r (sortBy le l) (sortBy le l') := by
  induction h with
  | nil => exact .nil
  | cons first rest ih => exact insertBy ih same first

end Quill.Related

/-! ## Orders to sort by, and what sorting does to pairs -/

namespace Quill

section lexicographic

variable {α : Type} [DecidableEq α] {le : α → α → Bool} {p q r : α} {x y z : Bool}

/-- One step of a comparison, which goes on when two keys are the same, is transitive if the rest
is. -/
theorem ite_le_trans (trans : le p q → le q r → le p r) (antisymm : le p q → le q p → p = q)
    (rest : x → y → z)
    (h : (if p = q then x else le p q) = true) (h' : (if q = r then y else le q r) = true) :
    (if p = r then z else le p r) = true := by
  rcases eq_or_ne p q with rfl | first
  · rcases eq_or_ne p r with rfl | second
    · simpa using rest (by simpa using h) (by simpa using h')
    · simpa [second] using h'
  · rcases eq_or_ne q r with rfl | second
    · simpa [first] using h
    · have below : le p q := by simpa [first] using h
      have above : le q r := by simpa [second] using h'
      rcases eq_or_ne p r with rfl | apart
      · exact absurd (antisymm below above) first
      · simpa [apart] using trans below above

theorem ite_le_total (total : le p q || le q p) (rest : x || y) :
    ((if p = q then x else le p q) || (if q = p then y else le q p)) = true := by
  by_cases same : p = q
  · simpa [same] using rest
  · simpa [same, Ne.symm same] using total

end lexicographic

section pairs

variable {α : Type} {le : α → α → Bool} {R : α → α → Prop} {a : α} {xs : List α}

theorem pairwise_insertBy_iff (trans : ∀ a b c, le a b → le b c → le a c)
    (sorted : xs.Pairwise fun a b => le a b) : (insertBy le a xs).Pairwise R ↔
      (∀ b ∈ xs, if le a b then R a b else R b a) ∧ xs.Pairwise R := by
  induction xs with
  | nil => simp [insertBy]
  | cons b xs ih =>
    obtain ⟨first, sorted⟩ := List.pairwise_cons.1 sorted
    by_cases before : le a b
    · have all (c) (mem : c ∈ b :: xs) : (if le a c then R a c else R c a) ↔ R a c := by
        rcases List.mem_cons.1 mem with rfl | mem
        · rw [if_pos before]
        · rw [if_pos (trans a b c before (first c mem))]
      rw [insertBy, if_pos before, List.pairwise_cons]
      exact and_congr_left fun _ => forall₂_congr fun c mem => (all c mem).symm
    · have members (c : α) : c ∈ insertBy le a xs ↔ c = a ∨ c ∈ xs := by
        rw [(insertBy_perm le a xs).mem_iff, List.mem_cons]
      rw [insertBy, if_neg before, List.pairwise_cons, ih sorted, List.forall_mem_cons,
        if_neg before, List.pairwise_cons]
      simp only [members, forall_eq_or_imp, and_assoc, and_left_comm]

/-- What holds of all pairs of a sorted list, in terms of the list that was sorted: of two items the
first one stays in front if it may precede the other one. -/
theorem pairwise_sortBy_iff (trans : ∀ a b c, le a b → le b c → le a c)
    (total : ∀ a b, le a b || le b a) :
    (sortBy le xs).Pairwise R ↔ xs.Pairwise fun a b => if le a b then R a b else R b a := by
  induction xs with
  | nil => exact iff_of_true .nil .nil
  | cons a xs ih =>
    rw [sortBy_cons, pairwise_insertBy_iff trans (pairwise_sortBy le trans total xs), ih,
      List.pairwise_cons]
    simp only [(sortBy_perm le xs).mem_iff]

end pairs

end Quill
