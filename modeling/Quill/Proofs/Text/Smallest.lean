import Mathlib.Data.List.Basic
import Quill.Proofs.Text.Replacement
import Quill.Proofs.Text.Surrogates

/-!
# The smallest replacement

The replacement between two well-formed texts cuts no surrogate pair, and no replacement that cuts
none is smaller. Smaller is the one that leaves more in place: a beginning and an ending that the
texts have in common.

## Main definitions

* `Replacement.Turns` — a replacement turns one text into another and cuts no pair of either.
* `Replacement.size` — what it takes away and what it puts in.
* `Replacement.Parts` — the same with the parts of the texts.

## Main statements

* `Replacement.turns_iff` — a replacement that turns one text into another leaves a common beginning
  and ending in place.
* `Replacement.Cut.kept_le` — none leaves more in place than the one that goes as far as it can.
* `Replacement.between?_smallest` — the replacement between two texts is the smallest.
-/

namespace Quill.Replacement

open Text (SplitsPair IsWellFormed)

variable {before after front old new behind f o x b : Text} {r : Replacement} {n : Nat} {u : UInt16}

/-- The replacement lies in the text `before`, makes `after` of it, and cuts no surrogate pair of
either. -/
structure Turns (before after : Text) (r : Replacement) : Prop where
  start_nonneg : 0 ≤ r.span.start
  ordered : r.span.start ≤ r.span.stop
  stop_le : r.span.stop ≤ before.length
  apply_eq : r.apply before = after
  start_whole : ¬ SplitsPair before r.span.start.toNat
  stop_whole : ¬ SplitsPair before r.span.stop.toNat
  new_start_whole : ¬ SplitsPair after r.span.start.toNat
  new_stop_whole : ¬ SplitsPair after (r.span.start.toNat + r.newText.length)

/-- The number of units taken away and put in. -/
def size (r : Replacement) : Int := r.span.length + r.newText.length

/-- The two texts have `front` and `behind` in common, with `old` and `new` between them, and no cut
is inside a surrogate pair. -/
structure Parts (before after front old new behind : Text) : Prop where
  before_eq : before = front ++ (old ++ behind)
  after_eq : after = front ++ (new ++ behind)
  start_whole : ¬ SplitsPair before front.length
  stop_whole : ¬ SplitsPair before (front.length + old.length)
  new_start_whole : ¬ SplitsPair after front.length
  new_stop_whole : ¬ SplitsPair after (front.length + new.length)

namespace Parts

variable (parts : Parts before after front old new behind)
include parts

theorem length_before : before.length = front.length + old.length + behind.length := by
  simp [parts.before_eq, Nat.add_assoc]

theorem length_after : after.length = front.length + new.length + behind.length := by
  simp [parts.after_eq, Nat.add_assoc]

/-- What is replaced lies between the parts left in place. -/
theorem turns : Turns before after ⟨⟨front.length, (front.length + old.length : Nat)⟩, new⟩ where
  start_nonneg := Int.natCast_nonneg _
  ordered := Int.ofNat_le.2 (Nat.le_add_right ..)
  stop_le := Int.ofNat_le.2 (by have := parts.length_before; omega)
  apply_eq := by
    simp only [apply, Int.toNat_natCast]
    rw [parts.before_eq, parts.after_eq, List.take_left, ← List.append_assoc front old,
      List.drop_left' (List.length_append ..), List.append_assoc]
  start_whole := parts.start_whole
  stop_whole := parts.stop_whole
  new_start_whole := parts.new_start_whole
  new_stop_whole := parts.new_stop_whole

end Parts

/-- A replacement that turns one text into another leaves a common beginning and a common ending in
place. -/
theorem Turns.exists_parts (turns : r.Turns before after) : ∃ front old behind,
    Parts before after front old r.newText behind ∧
      r.span = ⟨front.length, (front.length + old.length : Nat)⟩ := by
  obtain ⟨⟨start, stop⟩, new⟩ := r
  obtain ⟨start_nonneg, ordered, stop_le, apply_eq, start_whole, stop_whole, new_start_whole,
    new_stop_whole⟩ :=
    turns
  obtain ⟨i, rfl⟩ : ∃ i : Nat, start = i := Int.eq_ofNat_of_zero_le start_nonneg
  obtain ⟨j, rfl⟩ : ∃ j : Nat, stop = j :=
    Int.eq_ofNat_of_zero_le (Int.le_trans start_nonneg ordered)
  have ordered : i ≤ j := Int.ofNat_le.1 ordered
  have stop_le : j ≤ before.length := Int.ofNat_le.1 stop_le
  have length : (before.take i).length = i := List.length_take_of_le (Nat.le_trans ordered stop_le)
  have length' : ((before.drop i).take (j - i)).length = j - i := by
    rw [List.length_take, List.length_drop]
    omega
  have whole : (before.take i).length + ((before.drop i).take (j - i)).length = j := by omega
  have behind : (before.drop i).drop (j - i) = before.drop j := by
    rw [List.drop_drop]
    congr 1
    omega
  refine ⟨before.take i, (before.drop i).take (j - i), before.drop j, ?_, by rw [whole, length]⟩
  refine ⟨?_, ?_, by rwa [length], by rwa [whole], by rwa [length], by rwa [length]⟩
  · rw [← behind, List.take_append_drop, List.take_append_drop]
  · simpa [apply] using apply_eq.symm

/-! ## What is left in place -/

/-- Where two texts are put together alike, the last unit of one is the last unit of the other. -/
theorem exists_concat_of_append_eq {p q s : Text} (eq : p ++ [u] = q ++ s) (ne : s ≠ []) :
    ∃ s', s = s' ++ [u] ∧ p = q ++ s' := by
  obtain ⟨s', v, rfl⟩ := (List.eq_nil_or_concat' s).resolve_left ne
  rw [← List.append_assoc] at eq
  obtain ⟨rfl, same⟩ := List.append_inj' eq rfl
  exact ⟨s', by rw [same], rfl⟩

namespace Cut

/-- If the replaced parts end alike, then with second halves of pairs; the first halves are
replaced, too, and are not the same. -/
theorem differ_before (cut : Cut before after front (old ++ [u]) (new ++ [u]) behind)
    (wellFormed : IsWellFormed before) (wellFormed' : IsWellFormed after)
    (whole : ¬ SplitsPair before front.length) (whole' : ¬ SplitsPair after front.length) :
    Text.isLowSurrogate u ∧ old ≠ [] ∧ new ≠ [] ∧ ∀ v, old.getLast? = some v →
    new.getLast? ≠ some v := by
  obtain ⟨low, differ⟩ := cut.behind_max u old.reverse new.reverse (by simp) (by simp)
  have inner {t y : Text} (wellFormed : IsWellFormed t) (eq : t = front ++ (y ++ [u] ++ behind))
      (whole : ¬ SplitsPair t front.length) : y ≠ [] := by
    rintro rfl
    rw [eq] at wellFormed whole
    exact whole (wellFormed.splitsPair.2 low)
  exact ⟨low, inner wellFormed cut.before_eq whole, inner wellFormed' cut.after_eq whole',
    by simpa only [List.head?_reverse] using differ⟩

variable (cut : Cut before after front old new behind) (wellFormed : IsWellFormed before)
include cut wellFormed

/-- No common beginning is longer, unless it stops inside a pair. -/
theorem front_le (before_eq : before = f ++ x) (after_eq : f <+: after)
    (whole : ¬ SplitsPair before f.length) :
    f.length ≤ front.length := by
  by_contra longer
  obtain ⟨y, after_eq⟩ := after_eq
  obtain ⟨c, rfl⟩ : front <+: f := by
    refine List.prefix_of_prefix_length_le ⟨_, cut.before_eq.symm⟩ ⟨x, before_eq.symm⟩ ?_
    omega
  have left : old ++ behind = c ++ x := by
    have := cut.before_eq.symm.trans before_eq
    rwa [List.append_assoc, List.append_cancel_left_eq] at this
  have right : new ++ behind = c ++ y := by
    have := cut.after_eq.symm.trans after_eq.symm
    rwa [List.append_assoc, List.append_cancel_left_eq] at this
  match c with
  | [] => simp at longer
  | [u] =>
    have high := (cut.front_max u _ _ left right).1
    rw [before_eq, List.append_assoc] at wellFormed whole
    exact whole (by simpa using wellFormed.splitsPair.1 high)
  | u :: v :: c => exact (cut.front_max u _ _ left right).2 v rfl rfl

/-- Nothing that cuts no pair leaves more in place. -/
theorem kept_le (wellFormed' : IsWellFormed after) (whole : ¬ SplitsPair before front.length)
    (whole' : ¬ SplitsPair after front.length) (other : Parts before after f o x b) :
    f.length + b.length ≤ front.length + behind.length := by
  by_contra more
  have head := cut.front_le wellFormed other.before_eq ⟨_, other.after_eq.symm⟩ other.start_whole
  obtain ⟨c, rfl⟩ : behind <:+ b := by
    have own : behind <:+ before := ⟨front ++ old, by rw [cut.before_eq, List.append_assoc]⟩
    have others : b <:+ before := ⟨f ++ o, by rw [other.before_eq, List.append_assoc]⟩
    exact List.suffix_of_suffix_length_le own others (by omega)
  rw [List.length_append] at more
  have left : (f ++ o) ++ c = front ++ old := by
    simpa only [← List.append_assoc, List.append_cancel_right_eq]
      using other.before_eq.symm.trans cut.before_eq
  have right : (f ++ x) ++ c = front ++ new := by
    simpa only [← List.append_assoc, List.append_cancel_right_eq]
      using other.after_eq.symm.trans cut.after_eq
  have left_ne : old ≠ [] := by
    rintro rfl
    have := congrArg List.length left
    simp only [List.length_append, List.length_nil] at this
    omega
  have right_ne : new ≠ [] := by
    rintro rfl
    have := congrArg List.length right
    simp only [List.length_append, List.length_nil] at this
    omega
  -- more is left in place at the end, and the replaced parts end with the last unit of it
  obtain ⟨c, u, rfl⟩ := (List.eq_nil_or_concat' c).resolve_left fun nil => by
    simp only [nil, List.length_nil] at more
    omega
  rw [← List.append_assoc] at left right
  obtain ⟨old, rfl, left'⟩ := exists_concat_of_append_eq left left_ne
  obtain ⟨new, rfl, right'⟩ := exists_concat_of_append_eq right right_ne
  obtain ⟨low, left_ne', right_ne', differ⟩ := cut.differ_before wellFormed wellFormed' whole whole'
  rcases List.eq_nil_or_concat' c with rfl | ⟨c, v, rfl⟩
  · -- this unit alone would be cut off from its first half
    have eq : before = (f ++ o) ++ u :: behind := by simpa using other.before_eq
    have splits : SplitsPair before (f ++ o).length := by
      rw [eq] at wellFormed ⊢
      exact wellFormed.splitsPair.2 low
    exact other.stop_whole (by simpa using splits)
  · rw [← List.append_assoc] at left' right'
    obtain ⟨old, rfl, -⟩ := exists_concat_of_append_eq left' left_ne'
    obtain ⟨new, rfl, -⟩ := exists_concat_of_append_eq right' right_ne'
    exact differ v (by simp) (by simp)

end Cut

/-! ## Where the replacement is cut -/

theorem keepPairAtEnd_congr {s t : Text} (same : s.take n = t.take n) :
    keepPairAtEnd s n = keepPairAtEnd t n := by
  rw [keepPairAtEnd_eq, keepPairAtEnd_eq, same]

theorem keepPairAtStart_congr {s t : Text} (same : s.reverse.take n = t.reverse.take n) :
    keepPairAtStart s n = keepPairAtStart t n := by
  rw [keepPairAtStart_eq, keepPairAtStart_eq, same]

/-- A beginning that is shortened where it ends inside a pair does not end inside one. -/
theorem not_splitsPair_keepPairAtEnd {t : Text} (le : n ≤ t.length) :
    ¬ SplitsPair t (keepPairAtEnd t n) := by
  have length : (t.take n).length = n := List.length_take_of_le le
  have eq := List.take_append_drop n t
  rw [keepPairAtEnd_eq]
  split
  next inside =>
    obtain ⟨u, last, high⟩ := (Option.any_eq_true _ _).1 inside
    obtain ⟨front, front_eq⟩ := List.getLast?_eq_some_iff.1 last
    rw [front_eq, List.append_assoc] at eq
    obtain rfl : n = front.length + 1 := by simpa [front_eq] using length.symm
    rw [← eq, Nat.add_sub_cancel, Text.splitsPair_append_iff]
    simp [Text.isLowSurrogate_of_isHighSurrogate high]
  next outside =>
    have split := Text.splitsPair_append_iff (t.take n) (t.drop n)
    rw [eq, length] at split
    rw [split]
    exact fun inside => outside inside.1

theorem not_splitsPair_keepPairAtStart {t : Text} (le : n ≤ t.length) :
    ¬ SplitsPair t (t.length - keepPairAtStart t n) := by
  obtain ⟨front, behind, rfl, rfl⟩ : ∃ front behind, t = front ++ behind ∧ behind.length = n :=
    ⟨t.take (t.length - n), t.drop (t.length - n), (List.take_append_drop ..).symm, by
      rw [List.length_drop]
      omega⟩
  rw [keepPairAtStart_eq, List.reverse_append, ← @List.length_reverse _ behind, List.take_left,
    List.getLast?_reverse, List.length_reverse, List.length_append]
  split
  next inside =>
    obtain ⟨u, first, low⟩ := (Option.any_eq_true _ _).1 inside
    obtain ⟨behind, rfl⟩ := List.head?_eq_some_iff.1 first
    have split := Text.splitsPair_append_iff (front ++ [u]) behind
    have at_ : front.length + (u :: behind).length - ((u :: behind).length - 1) =
        (front ++ [u]).length := by
      simp only [List.length_cons, List.length_append, List.length_nil]
      omega
    rw [at_, ← List.singleton_append, ← List.append_assoc, split]
    rintro ⟨high, -⟩
    simp [Text.isLowSurrogate_of_isHighSurrogate (u := u) (by simpa using high)] at low
  next outside =>
    rw [Nat.add_sub_cancel, Text.splitsPair_append_iff]
    exact fun inside => outside inside.2

theorem exists_parts_of_between? (found : between? before after = some r) : ∃ front old new behind,
    Cut before after front old new behind ∧ Parts before after front old new behind ∧
      r = ⟨⟨front.length, (front.length + old.length : Nat)⟩, new⟩ := by
  obtain ⟨front, old, new, behind, cut, rfl⟩ := exists_cut found
  refine ⟨front, old, new, behind, cut, ?_, rfl⟩
  have left : before.length = front.length + old.length + behind.length := by
    simp [cut.before_eq, Nat.add_assoc]
  have right : after.length = front.length + new.length + behind.length := by
    simp [cut.after_eq, Nat.add_assoc]
  obtain ⟨n, le, head, tail⟩ : ∃ n ≤ commonLength before.reverse after.reverse,
      front.length = keepPairAtEnd before (commonLength before after) ∧
        behind.length = keepPairAtStart before n := by
    unfold between? at found
    split at found
    · simp at found
    simp only [Option.some.injEq, Replacement.mk.injEq, Span.mk.injEq, Int.natCast_inj] at found
    obtain ⟨⟨head, tail⟩, -⟩ := found
    exact ⟨min (min before.length after.length - keepPairAtEnd before (commonLength before after))
      (commonLength before.reverse after.reverse), Nat.min_le_right .., head.symm, by omega⟩
  have start := take_commonLength before after
  have stop : before.reverse.take n = after.reverse.take n := by
    have := congrArg (List.take n) (take_commonLength before.reverse after.reverse)
    rwa [List.take_take, List.take_take, Nat.min_eq_left le] at this
  have inBefore : n ≤ before.length :=
    Nat.le_trans le (by simpa using commonLength_le_left before.reverse _)
  have inAfter : n ≤ after.length :=
    Nat.le_trans le (by simpa using commonLength_le_right _ after.reverse)
  have stop_at : front.length + old.length = before.length - behind.length := by omega
  have new_stop_at : front.length + new.length = after.length - behind.length := by omega
  refine ⟨cut.before_eq, cut.after_eq, ?_, ?_, ?_, ?_⟩
  · rw [head]
    exact not_splitsPair_keepPairAtEnd (commonLength_le_left before after)
  · rw [stop_at, tail]
    exact not_splitsPair_keepPairAtStart inBefore
  · rw [head, keepPairAtEnd_congr start]
    exact not_splitsPair_keepPairAtEnd (commonLength_le_right before after)
  · rw [new_stop_at, tail, keepPairAtStart_congr stop]
    exact not_splitsPair_keepPairAtStart inAfter

/-! ## The replacement between two texts -/

/-- The replacement between two well-formed texts turns one into the other and cuts no pair, and
none that does so is smaller; there is none exactly if the texts are equal. -/
theorem between?_smallest (before after : Text) (wellFormed : IsWellFormed before)
    (wellFormed' : IsWellFormed after) : (between? before after = none ↔ before = after) ∧
      ∀ r, between? before after = some r →
        r.Turns before after ∧ ∀ r' : Replacement, r'.Turns before after → r.size ≤ r'.size := by
  refine ⟨between?_eq_none_iff, fun r found => ?_⟩
  obtain ⟨front, old, new, behind, cut, parts, rfl⟩ := exists_parts_of_between? found
  refine ⟨parts.turns, fun r' turns => ?_⟩
  obtain ⟨f, o, b, other, span⟩ := turns.exists_parts
  have kept := cut.kept_le wellFormed wellFormed' parts.start_whole parts.new_start_whole other
  have := parts.length_before
  have := parts.length_after
  have := other.length_before
  have := other.length_after
  simp only [size, Span.length, span]
  omega

/-- The first halves of two pairs are the same, and so are the second halves of two others. -/
theorem between?_smallest_pairs :
    let before : Text := Text.ofString "a😀b😀c"
    let after : Text := Text.ofString "a😁b🈀c"
    IsWellFormed before ∧ IsWellFormed after ∧ (between? before after = none ↔ before = after) ∧
      ∀ r, between? before after = some r →
        r.Turns before after ∧ ∀ r' : Replacement, r'.Turns before after → r.size ≤ r'.size := by
  intro before after
  have wellFormed := Text.isWellFormed_ofString "a😀b😀c"
  have wellFormed' := Text.isWellFormed_ofString "a😁b🈀c"
  exact ⟨wellFormed, wellFormed', between?_smallest before after wellFormed wellFormed'⟩

example : between? "a😀b😀c" "a😁b🈀c" = some ⟨⟨1, 6⟩, "😁b🈀"⟩ := by decide +kernel

end Quill.Replacement
