import Quill.Number.Shortest
import Quill.Proofs.Number.Rounding

/-!
# The shortest digits

The digits chosen for a double lie around it, so they are rounded to it again. Seventeen digits
always suffice: the grid of seventeen digits is finer than the space around a double is wide, so one
of the two grid points next to it is there.

## Main definitions

* `Neighbourhood.Spans` — the rationals that a neighbourhood ends at.
* `Number.near_shortest` — the shortest digits lie around the double.
-/

namespace Quill.Number

/-! ### Neighbourhoods -/

namespace Neighbourhood

/-- A neighbourhood with its ends and its double as rationals. -/
structure Spans (n : Neighbourhood) (low value high : ℚ) : Prop where
  den_pos : 0 < n.den
  low_eq : (n.low : ℚ) = low * n.den
  value_eq : (n.value : ℚ) = value * n.den
  high_eq : (n.high : ℚ) = high * n.den

variable {n : Neighbourhood} {low value high : ℚ} {q : ℕ}

/-- The neighbourhood of a double is what is around it. -/
theorem spans_of {m : ℕ} (pos : 0 < m) (e : ℤ) :
    (Neighbourhood.of m e).Spans ((4 * m - reach m e) * (2 ^ e / 4)) (m * 2 ^ e)
      ((4 * m + 2) * (2 ^ e / 4)) := by
  have sub : ((4 * m - reach m e : ℕ) : ℚ) = 4 * m - reach m e := by
    have := (reach_bounds m e).2
    rw [Nat.cast_sub (by omega)]
    push_cast
    ring
  have value : (m : ℚ) * 2 ^ e = 4 * m * (2 ^ e / 4) := by ring
  rw [value, ← two_zpow_sub_two]
  unfold Neighbourhood.of
  rw [show (if m = Nat.pow 2 52 ∧ minExponent < e then 1 else 2) = reach m e from rfl]
  cases e - 2 with
  | ofNat k => constructor <;> simp [sub]
  | negSucc k =>
    have : (2 : ℚ) ^ (k + 1) ≠ 0 := by positivity
    constructor <;> simp [sub, zpow_negSucc]

/-- Measuring in steps divides by the step. -/
theorem Spans.inSteps (spans : n.Spans low value high) (e : ℤ) :
    (n.inSteps e).Spans (low / 10 ^ e) (value / 10 ^ e) (high / 10 ^ e) := by
  obtain ⟨pos, hl, hv, hh⟩ := spans
  cases e with
  | ofNat k =>
    have : (10 : ℚ) ^ k ≠ 0 := by positivity
    exact ⟨Nat.mul_pos pos (Nat.pow_pos (by norm_num)),
      by simp [Neighbourhood.inSteps, hl]; field_simp,
      by simp [Neighbourhood.inSteps, hv]; field_simp,
      by simp [Neighbourhood.inSteps, hh]; field_simp⟩
  | negSucc k =>
    exact ⟨pos, by simp [Neighbourhood.inSteps, hl, zpow_negSucc]; ring,
      by simp [Neighbourhood.inSteps, hv, zpow_negSucc]; ring,
      by simp [Neighbourhood.inSteps, hh, zpow_negSucc]; ring⟩

theorem closed_inSteps (n : Neighbourhood) (e : ℤ) :
    (n.inSteps e).closed = n.closed := by
  cases e <;> rfl

theorem closed_of (m : ℕ) (e : ℤ) :
    (Neighbourhood.of m e).closed = decide (m % 2 = 0) := by
  unfold Neighbourhood.of
  cases e - 2 <;> rfl

/-- An integer of a neighbourhood is between its ends, and properly so when it is not closed. -/
theorem Spans.of_holds (spans : n.Spans low value high) (h : n.holds q) :
    low ≤ q ∧ (q : ℚ) ≤ high ∧ (n.closed = false → low < q ∧ (q : ℚ) < high) := by
  obtain ⟨pos, hl, -, hh⟩ := spans
  have pos' : (0 : ℚ) < n.den := by exact_mod_cast pos
  simp only [Neighbourhood.holds] at h
  cases closed : n.closed with
  | true =>
    simp only [closed, if_true, Bool.and_eq_true, decide_eq_true_eq] at h
    obtain ⟨h1, h2⟩ := h
    refine ⟨?_, ?_, by simp⟩
    · rw [← mul_le_mul_iff_of_pos_right pos', ← hl]; exact_mod_cast h1
    · rw [← mul_le_mul_iff_of_pos_right pos', ← hh]; exact_mod_cast h2
  | false =>
    simp only [closed, Bool.false_eq_true, if_false, Bool.and_eq_true, decide_eq_true_eq] at h
    obtain ⟨h1, h2⟩ := h
    have low' : low < q := by rw [← mul_lt_mul_iff_of_pos_right pos', ← hl]; exact_mod_cast h1
    have high' : (q : ℚ) < high := by
      rw [← mul_lt_mul_iff_of_pos_right pos', ← hh]; exact_mod_cast h2
    exact ⟨low'.le, high'.le, fun _ => ⟨low', high'⟩⟩

theorem holds_of_lt (low : n.low < q * n.den)
    (high : q * n.den < n.high) : n.holds q := by
  simp only [Neighbourhood.holds]
  split <;> simp <;> omega

theorem holds_of_nearest? (h : n.nearest? = some q) : n.holds q := by
  simp only [Neighbourhood.nearest?] at h
  split at h
  next both above =>
    split_ifs at h <;> obtain rfl := Option.some.inj h <;> assumption
  next => obtain rfl := Option.some.inj h; assumption
  next => obtain rfl := Option.some.inj h; assumption
  next => simp at h

/-- A neighbourhood wider than one step holds an integer next to its value. -/
theorem Spans.nearest?_isSome (spans : n.Spans low value high) (hl : low < value)
    (hh : value < high) (wide : low + 1 < high) : n.nearest?.isSome := by
  obtain ⟨pos, el, ev, eh⟩ := spans
  have pos' : (0 : ℚ) < n.den := by exact_mod_cast pos
  have hl' : n.low < n.value := by
    have : (n.low : ℚ) < n.value := by rw [el, ev]; gcongr
    exact_mod_cast this
  have hh' : n.value < n.high := by
    have : (n.value : ℚ) < n.high := by rw [ev, eh]; gcongr
    exact_mod_cast this
  have wide' : n.low + n.den < n.high := by
    have : (n.low : ℚ) + n.den < n.high := by rw [el, eh]; nlinarith
    exact_mod_cast this
  have split := Nat.div_add_mod n.value n.den
  have small := Nat.mod_lt n.value pos
  rw [Nat.mul_comm] at split
  -- the point below the value is inside, or the one above it is
  have inside : n.holds (n.value / n.den) ∨ n.holds (n.value / n.den + 1) := by
    by_cases h : n.low < n.value / n.den * n.den
    · exact .inl (holds_of_lt h (by omega))
    · exact .inr (holds_of_lt (by rw [Nat.add_mul]; omega) (by rw [Nat.add_mul]; omega))
  simp only [Neighbourhood.nearest?]
  rcases inside with h | h <;> rw [h] <;> split <;> simp_all

end Neighbourhood

/-! ### The number of digits before the point -/

theorem below_iff {num den : ℕ} (hd : 0 < den) (e : ℤ) :
    decimalExponent.below num den e ↔ (num / den : ℚ) < 10 ^ e := by
  have pos : (0 : ℚ) < den := by exact_mod_cast hd
  cases e with
  | ofNat k =>
    rw [div_lt_iff₀ pos]
    simp only [decimalExponent.below, decide_eq_true_eq, Int.ofNat_eq_natCast, zpow_natCast]
    rw [mul_comm]
    exact_mod_cast Iff.rfl
  | negSucc k =>
    have ten : (0 : ℚ) < 10 ^ (k + 1) := by positivity
    rw [div_lt_iff₀ pos, zpow_negSucc, inv_mul_eq_div, lt_div_iff₀ ten]
    simp only [decimalExponent.below, decide_eq_true_eq]
    exact_mod_cast Iff.rfl

/-- Stepping up never passes a power of ten that the quotient does not reach. -/
theorem climb_le {num den : ℕ} (hd : 0 < den) (fuel : ℕ) {e : ℤ}
    (h : (10 : ℚ) ^ (e - 1) ≤ num / den) :
    (10 : ℚ) ^ (decimalExponent.climb num den fuel e - 1) ≤ num / den := by
  induction fuel generalizing e with
  | zero => exact h
  | succ fuel ih =>
    unfold decimalExponent.climb
    split
    · exact h
    next reached =>
      refine ih ?_
      rw [add_sub_cancel_right]
      exact not_lt.1 ((below_iff hd e).not.1 reached)

/-- The estimate by binary digits is not above the truth in the range of the format. -/
theorem estimate_le {n : ℤ} (least : -1100 < n) (most : n < 1100) :
    (10 : ℚ) ^ (n * 30103 / 100000 - 2) ≤ 2 ^ n := by
  have up : ∀ k : ℕ, k < 1100 → 10 ^ (k * 30103 / 100000) ≤ 2 ^ k * 100 := by decide +kernel
  have down : ∀ k : ℕ, k < 1100 → 2 ^ k ≤ 10 ^ ((k * 30103 + 99999) / 100000 + 2) := by
    decide +kernel
  rcases Int.le_total 0 n with h | h
  · obtain ⟨k, rfl⟩ := Int.eq_ofNat_of_zero_le h
    have : (10 : ℚ) ^ (k * 30103 / 100000) ≤ 2 ^ k * 100 := by
      exact_mod_cast up k (by omega)
    have exponent : (k : ℤ) * 30103 / 100000 - 2 = ((k * 30103 / 100000 : ℕ) : ℤ) - 2 := by
      push_cast; rfl
    rw [exponent, zpow_sub₀ (by norm_num), zpow_natCast, zpow_natCast, div_le_iff₀ (by positivity)]
    exact_mod_cast this
  · obtain ⟨k, hk⟩ := Int.eq_ofNat_of_zero_le (Int.neg_nonneg_of_nonpos h)
    obtain rfl : n = -(k : ℤ) := by omega
    have : (2 : ℚ) ^ k ≤ 10 ^ ((k * 30103 + 99999) / 100000 + 2) := by
      exact_mod_cast down k (by omega)
    have exponent : -(k : ℤ) * 30103 / 100000 - 2 =
        -(((k * 30103 + 99999) / 100000 + 2 : ℕ) : ℤ) := by
      push_cast
      omega
    rw [exponent, zpow_neg, zpow_neg, zpow_natCast, zpow_natCast]
    gcongr

/-- A double has no fewer digits before the point than are counted. -/
theorem decimalExponent_le {num den : ℕ} (hn : 0 < num) (hd : 0 < den)
    (least : (2 : ℚ) ^ (-1074 : ℤ) ≤ num / den) (most : (num / den : ℚ) < 2 ^ (1024 : ℤ)) :
    (10 : ℚ) ^ (decimalExponent num den - 1) ≤ num / den := by
  obtain ⟨low, high⟩ := quotient_bounds hn hd
  refine climb_le hd 4 ?_
  have h1 := (zpow_lt_zpow_iff_right₀ (by norm_num : (1 : ℚ) < 2)).1 (low.trans most)
  have h2 := (zpow_lt_zpow_iff_right₀ (by norm_num : (1 : ℚ) < 2)).1 (least.trans_lt high)
  refine le_trans ?_ low.le
  rw [sub_sub]
  exact estimate_le (by omega) (by omega)

/-! ### The search -/

theorem search_holds {n : Neighbourhood} {top : ℤ} {fuel k digits : ℕ} {e : ℤ}
    (h : search n top fuel k = some (digits, e)) : digits ≠ 0 ∧ (n.inSteps e).holds digits := by
  induction fuel generalizing k with
  | zero => simp [search] at h
  | succ fuel ih =>
    simp only [search] at h
    split at h
    next q found =>
      split at h
      · exact ih h
      next ne =>
        obtain ⟨rfl, rfl⟩ : q = digits ∧ top - k = e := by simpa using h
        exact ⟨ne, Neighbourhood.holds_of_nearest? found⟩
    · exact ih h

/-- The search ends once a grid has a point in the neighbourhood. -/
theorem search_isSome {n : Neighbourhood} {top : ℤ} {fuel k j q : ℕ} (within : j < fuel)
    (found : (n.inSteps (top - (k + j : ℕ))).nearest? = some q) (ne : q ≠ 0) :
    (search n top fuel k).isSome := by
  induction fuel generalizing k j with
  | zero => omega
  | succ fuel ih =>
    simp only [search]
    cases j with
    | zero =>
      rw [Nat.add_zero] at found
      simp [found, ne]
    | succ j =>
      have later := ih (k := k + 1) (j := j) (by omega) (by rw [← found]; congr 2; omega)
      split
      · split
        · exact later
        · simp
      · exact later

theorem stripZeros_value (fuel digits : ℕ) (e : ℤ) :
    ((stripZeros fuel digits e).1 : ℚ) * 10 ^ (stripZeros fuel digits e).2 = digits * 10 ^ e := by
  induction fuel generalizing digits e with
  | zero => rfl
  | succ fuel ih =>
    unfold stripZeros
    split
    next zero =>
      obtain ⟨d, rfl⟩ := Nat.dvd_of_mod_eq_zero zero
      rw [ih, Nat.mul_div_cancel_left _ (by norm_num), zpow_add_one₀ (by norm_num)]
      push_cast
      ring
    · rfl

/-- A grid point that the neighbourhood of a double holds is around the double. -/
theorem near_of_holds {m q : ℕ} (pos : 0 < m) {e x : ℤ}
    (h : ((Neighbourhood.of m e).inSteps x).holds q) : Near m e (q * 10 ^ x) := by
  have step : (0 : ℚ) < 10 ^ x := by positivity
  obtain ⟨low, high, inner⟩ := ((Neighbourhood.spans_of pos e).inSteps x).of_holds h
  rw [Neighbourhood.closed_inSteps, Neighbourhood.closed_of] at inner
  refine ⟨(div_le_iff₀ step).1 low, (le_div_iff₀ step).1 high, fun odd => ?_⟩
  obtain ⟨low, high⟩ := inner (by simp [odd])
  exact ⟨(div_lt_iff₀ step).1 low, (lt_div_iff₀ step).1 high⟩

/-- The step of a grid of seventeen digits is at most a double's `10 ^ 16`th part. -/
theorem grid_step_le {s : Bool} {m : ℕ} {e : ℤ} (double : (Number.finite s m e).IsDouble)
    (pos : 0 < m) :
    (10 : ℚ) ^ (decimalExponent (Neighbourhood.of m e).value (Neighbourhood.of m e).den - 17) *
      10 ^ 16 ≤
      m * 2 ^ e := by
  obtain ⟨bound, least, most, -⟩ := double
  have spans := Neighbourhood.spans_of pos e
  set n := Neighbourhood.of m e
  have one : (1 : ℚ) ≤ m := by exact_mod_cast pos
  have den : (0 : ℚ) < n.den := by exact_mod_cast spans.den_pos
  have value : (n.value / n.den : ℚ) = m * 2 ^ e := by
    rw [spans.value_eq, mul_div_assoc, div_self den.ne', mul_one]
  have counted : (10 : ℚ) ^ (decimalExponent n.value n.den - 1) ≤ m * 2 ^ e := by
    rw [← value]
    refine decimalExponent_le ?_ spans.den_pos ?_ ?_
    · have : (0 : ℚ) < n.value := by
        rw [spans.value_eq]
        positivity
      exact_mod_cast this
    · rw [value]
      calc (2 : ℚ) ^ (-1074 : ℤ) ≤ 2 ^ e := zpow_le_zpow_right₀ (by norm_num) least
        _ ≤ m * 2 ^ e := le_mul_of_one_le_left (by positivity) one
    · rw [value]
      calc (m : ℚ) * 2 ^ e < 2 ^ (53 : ℤ) * 2 ^ e := by gcongr; exact_mod_cast bound
        _ = 2 ^ (53 + e) := by rw [zpow_add₀ two_ne_zero]
        _ ≤ 2 ^ (1024 : ℤ) :=
          zpow_le_zpow_right₀ (by norm_num) (by simp only [maxExponent] at most; omega)
  refine le_of_eq_of_le ?_ counted
  rw [← zpow_natCast, ← zpow_add₀ (by norm_num)]
  congr 1
  push_cast
  ring

/-- A step of at most a double's `10 ^ 16`th part is less than the space around the double. -/
theorem lt_width_of_le {m : ℕ} {e : ℤ} {step : ℚ} (bound : m < 2 ^ 53)
    (fine : step * 10 ^ 16 ≤ m * 2 ^ e) :
    step < (2 + reach m e) * (2 ^ e / 4) := by
  have two : (0 : ℚ) < 2 ^ e := by positivity
  rcases reach_cases m e with ⟨power, -, one⟩ | ⟨-, two'⟩
  · have : (m : ℚ) = 2 ^ 52 := by rw [power]; norm_num
    rw [this] at fine
    rw [one]
    push_cast
    nlinarith
  · have : (m : ℚ) < 2 ^ 53 := by exact_mod_cast bound
    rw [two']
    push_cast
    nlinarith

/-- The grid of seventeen digits has a point around every double. -/
theorem search_finds {s : Bool} {m : ℕ} {e : ℤ} (double : (Number.finite s m e).IsDouble)
    (pos : 0 < m) :
    (search (Neighbourhood.of m e)
      (decimalExponent (Neighbourhood.of m e).value (Neighbourhood.of m e).den) 17 1).isSome := by
  have wide := lt_width_of_le double.1 (grid_step_le double pos)
  have spans := Neighbourhood.spans_of pos e
  set top := decimalExponent (Neighbourhood.of m e).value (Neighbourhood.of m e).den
  have two : (0 : ℚ) < 2 ^ e := by positivity
  have one : (1 : ℚ) ≤ m := by exact_mod_cast pos
  have down : (1 : ℚ) ≤ reach m e := by exact_mod_cast (reach_bounds m e).1
  have step : (0 : ℚ) < 10 ^ (top - 17) := by positivity
  have low : (4 * m - reach m e : ℚ) * (2 ^ e / 4) < m * 2 ^ e := by nlinarith
  have high : (m : ℚ) * 2 ^ e < (4 * m + 2) * (2 ^ e / 4) := by nlinarith
  have room : (4 * m - reach m e : ℚ) * (2 ^ e / 4) + 10 ^ (top - 17) < (4 * m + 2) *
      (2 ^ e / 4) := by
    linarith
  obtain ⟨q, found⟩ := Option.isSome_iff_exists.1 <| (spans.inSteps (top - 17)).nearest?_isSome
    (div_lt_div_of_pos_right low step) (div_lt_div_of_pos_right high step)
    (by rw [div_add_one step.ne']; exact div_lt_div_of_pos_right room step)
  have ne : q ≠ 0 := by
    rintro rfl
    have low' : (0 : ℚ) < (4 * m - reach m e) * (2 ^ e / 4) := by
      have : (reach m e : ℚ) ≤ 2 := by exact_mod_cast (reach_bounds m e).2
      exact mul_pos (by linarith) (div_pos two (by norm_num))
    have := (near_of_holds pos (Neighbourhood.holds_of_nearest? found)).1
    rw [Nat.cast_zero, zero_mul] at this
    exact absurd this (not_le.2 low')
  exact search_isSome (j := 16) (by norm_num) found ne

/-- The shortest digits of a double lie around it. -/
theorem near_shortest {s : Bool} {m : ℕ} {e : ℤ} (double : (Number.finite s m e).IsDouble)
    (pos : 0 < m) :
    0 < (shortest m e).1 ∧ Near m e ((shortest m e).1 * 10 ^ (shortest m e).2) := by
  obtain ⟨⟨digits, x⟩, found⟩ := Option.isSome_iff_exists.1 (search_finds double pos)
  obtain ⟨ne, holds⟩ := search_holds found
  have stripped : shortest m e = stripZeros 17 digits x := by
    unfold shortest
    simp only
    rw [found]
  have value := stripZeros_value 17 digits x
  rw [stripped, value]
  refine ⟨?_, near_of_holds pos holds⟩
  by_contra zero
  rw [Nat.eq_zero_of_not_pos zero, Nat.cast_zero, zero_mul] at value
  have : (digits : ℚ) * 10 ^ x ≠ 0 := by positivity
  exact this value.symm

end Quill.Number
