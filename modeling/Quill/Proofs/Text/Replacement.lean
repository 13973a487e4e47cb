import Quill.Text.Replacement

/-!
# The replacement between two texts

## Main definitions

* `Replacement.DifferFrom` — two texts that differ, at the latest behind their first unit.
* `Replacement.Cut` — two texts with a common beginning and a common ending that go on as far as
  they can.

## Main statements

* `Replacement.exists_cut` — what is replaced lies between such parts.
* `Replacement.apply_between?` — the replacement turns one text into the other.
-/

namespace Quill.Replacement

variable {s t x y before after front old new behind : Text} {r : Replacement} {n : Nat}
  {p : UInt16 → Bool}

/-- From here on two texts differ, or they do behind one more unit, which is as `p` says. -/
def DifferFrom (p : UInt16 → Bool) (s t : Text) : Prop :=
  ∀ u s' t', s = u :: s' → t = u :: t' → p u ∧ ∀ v, s'.head? = some v → t'.head? ≠ some v

/-- Two texts that have `front` and `behind` in common, and `old` and `new` between them. The common
parts go on to where the texts differ, but for one half of a surrogate pair. -/
structure Cut (before after front old new behind : Text) : Prop where
  before_eq : before = front ++ (old ++ behind)
  after_eq : after = front ++ (new ++ behind)
  front_max : DifferFrom Text.isHighSurrogate (old ++ behind) (new ++ behind)
  behind_max : DifferFrom Text.isLowSurrogate old.reverse new.reverse

/-! ## Common beginnings and endings -/

theorem commonLength_cons (u v : UInt16) (s t : Text) :
    commonLength (u :: s) (v :: t) = if u = v then commonLength s t + 1 else 0 := by
  simp only [commonLength, beq_iff_eq]

/-- The common beginning ends where the texts differ. -/
theorem head?_drop_commonLength {u : UInt16} (left : (s.drop (commonLength s t)).head? = some u) :
    (t.drop (commonLength s t)).head? ≠ some u := by
  induction s generalizing t with
  | nil => simp at left
  | cons a s ih =>
    cases t with
    | nil => simp
    | cons b t =>
      rw [commonLength_cons] at left ⊢
      split at left
      next eq => simpa [eq] using ih (by simpa using left)
      next ne =>
        obtain rfl : a = u := by simpa using left
        simp [eq_comm, ne]

/-- What follows two texts does not make their common beginning shorter. -/
theorem min_commonLength_append (s t x y : Text) :
    min (min s.length t.length) (commonLength (s ++ x) (t ++ y)) = commonLength s t := by
  induction s generalizing t with
  | nil => simp [commonLength]
  | cons a s ih =>
    cases t with
    | nil => simp [commonLength]
    | cons b t =>
      have := ih t
      simp only [commonLength_cons, List.cons_append, List.length_cons]
      split <;> omega

/-- Two texts from where they differ, or from the last common unit if that may not end what they
have in common. -/
theorem exists_front (p : UInt16 → Bool) (s t : Text) : ∃ front s' t',
    s = front ++ s' ∧ t = front ++ t' ∧
    front.length = (if (s.take (commonLength s t)).getLast?.any p then commonLength s t - 1
      else commonLength s t) ∧
    DifferFrom p s' t' := by
  have common := take_commonLength s t
  have le := commonLength_le_left s t
  have differ {u : UInt16} (left : (s.drop (commonLength s t)).head? = some u) :=
    head?_drop_commonLength left
  generalize commonLength s t = n at common le differ
  have left := List.take_append_drop n s
  have right := List.take_append_drop n t
  split
  next inside =>
    -- the last common unit goes back
    obtain ⟨u, last, holds⟩ := (Option.any_eq_true _ _).1 inside
    obtain ⟨front, eq⟩ := List.getLast?_eq_some_iff.1 last
    refine ⟨front, u :: s.drop n, u :: t.drop n, ?_, ?_, ?_, ?_⟩
    · rw [eq, List.append_assoc] at left
      exact left.symm
    · rw [← common, eq, List.append_assoc] at right
      exact right.symm
    · have := congrArg List.length eq
      simp only [List.length_take, List.length_append, List.length_singleton] at this
      omega
    · rintro v _ _ ⟨⟩ ⟨⟩
      exact ⟨holds, fun v => differ⟩
  next =>
    refine ⟨s.take n, s.drop n, t.drop n, left.symm, by rw [common, right], by simp [le], ?_⟩
    intro u s' t' first second
    exact absurd (congrArg List.head? second) (differ (congrArg List.head? first))

theorem keepPairAtEnd_eq (t : Text) (n : Nat) : keepPairAtEnd t n =
    if (t.take n).getLast?.any Text.isHighSurrogate then n - 1 else n := rfl

theorem keepPairAtStart_eq (s : Text) (n : Nat) : keepPairAtStart s n =
    if (s.reverse.take n).getLast?.any Text.isLowSurrogate then n - 1 else n := by
  rw [keepPairAtStart, List.take_reverse, List.getLast?_reverse]
  cases n <;> simp

/-- What stands in front does not matter for an ending. -/
theorem keepPairAtStart_append (le : n ≤ s.length) :
    keepPairAtStart (x ++ s) n = keepPairAtStart s n := by
  rw [keepPairAtStart_eq, keepPairAtStart_eq, List.reverse_append,
    List.take_append_of_le_length (by simpa using le)]

theorem exists_behind (s t : Text) : ∃ old new behind, s = old ++ behind ∧ t = new ++ behind ∧
    behind.length = keepPairAtStart s (commonLength s.reverse t.reverse) ∧
    DifferFrom Text.isLowSurrogate old.reverse new.reverse := by
  obtain ⟨front, s', t', left, right, length, max⟩ :=
    exists_front Text.isLowSurrogate s.reverse t.reverse
  refine ⟨s'.reverse, t'.reverse, front.reverse, ?_, ?_, ?_, ?_⟩
  · rw [← List.reverse_append, ← left, List.reverse_reverse]
  · rw [← List.reverse_append, ← right, List.reverse_reverse]
  · rw [List.length_reverse, length, keepPairAtStart_eq]
  · simpa only [List.reverse_reverse] using max

/-! ## The replacement -/

/-- Unless two texts are equal, one is turned into the other by replacing what lies between a common
beginning and a common ending. -/
theorem exists_cut (found : between? before after = some r) : ∃ front old new behind,
    Cut before after front old new behind ∧
    r = ⟨⟨front.length, front.length + old.length⟩, new⟩ := by
  unfold between? at found
  split at found
  · simp at found
  obtain ⟨front, s, t, left, right, head, front_max⟩ :=
    exists_front Text.isHighSurrogate before after
  rw [← keepPairAtEnd_eq] at head
  obtain ⟨old, new, behind, rfl, rfl, tail, behind_max⟩ := exists_behind s t
  refine ⟨front, old, new, behind, ⟨left, right, front_max, behind_max⟩, ?_⟩
  have tail : keepPairAtStart before (min (min before.length after.length - front.length)
      (commonLength before.reverse after.reverse)) = behind.length := by
    have limit : min before.length after.length - front.length =
        min (old ++ behind).reverse.length (new ++ behind).reverse.length := by
      simp only [left, right, List.length_append, List.length_reverse]
      omega
    have whole (u : Text) : (front ++ u).reverse = u.reverse ++ front.reverse := List.reverse_append
    rw [limit, left, right, whole, whole, min_commonLength_append, keepPairAtStart_append, ← tail]
    simpa only [List.length_reverse] using
      commonLength_le_left (old ++ behind).reverse (new ++ behind).reverse
  simp only [← head, tail, Option.some.injEq] at found
  have span : (before.length : Int) - behind.length = front.length + old.length := by
    simp only [left, List.length_append]
    omega
  have inner : after.slice front.length (after.length - behind.length) = new := by
    have length : after.length - behind.length - front.length = new.length := by
      simp only [right, List.length_append]
      omega
    rw [Text.slice, length, right, List.drop_left, List.take_left]
  rw [← found, span, inner]

namespace Cut

variable (cut : Cut before after front old new behind)
include cut

/-- Replacing what lies between the common parts turns one text into the other. -/
theorem apply_eq :
    (⟨⟨front.length, front.length + old.length⟩, new⟩ : Replacement).apply before = after := by
  have stop : ((front.length : Int) + old.length).toNat = front.length + old.length := by omega
  rw [apply, stop, Int.toNat_natCast, cut.before_eq, cut.after_eq, List.take_left,
    ← List.append_assoc front old, List.drop_left' (by simp), List.append_assoc]

end Cut

theorem apply_between? (found : between? before after = some r) : r.apply before = after := by
  obtain ⟨front, old, new, behind, cut, rfl⟩ := exists_cut found
  exact cut.apply_eq

theorem between?_eq_none_iff : between? before after = none ↔ before = after := by
  simp [between?]

end Quill.Replacement
