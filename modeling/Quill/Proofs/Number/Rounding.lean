import Mathlib.Algebra.Order.Field.Power
import Mathlib.Data.Nat.Cast.Field
import Mathlib.Data.Rat.Cast.Order
import Mathlib.Tactic.FieldSimp
import Mathlib.Tactic.Linarith
import Mathlib.Tactic.NormNum
import Mathlib.Tactic.Ring
import Quill.Number.Basic

/-!
# Rounding to a double

A quotient is rounded in two steps: its binary exponent is found, then it is rounded to an integer
at that exponent. Around every double lie the quotients that are nearer to it than to any other, or
as near and it is the even one; all of them are rounded to that double.

## Main definitions

* `Number.IsDouble` — a finite number in the form that is stored.
* `Number.toRat` — the value of a number.
* `Number.Near` — the quotients around a double; `Number.ofRatio_eq_of_near` says that they are
  rounded to it.
* `Number.Holds` — rounding leaves so many units of `2 ^ minExponent` as they are.
* `Number.AtMost` — a double is at most another one.

## Main statements

* `Number.floor?_ofNat` — what a double is rounded down to is a double again.
* `Number.add_of_holds`, `Number.sub_of_holds` — sums and differences that are doubles are not
  rounded.
* `Number.holds_of_lt` — small natural numbers are doubles.
-/

namespace Quill.Number

def IsDouble : Number → Prop
  | .finite _ m e =>
    m < significandBound ∧ minExponent ≤ e ∧ e ≤ maxExponent ∧ (Nat.pow 2 52 ≤ m ∨ e = minExponent)
  | _ => False

instance : DecidablePred IsDouble
  | .finite .. => inferInstanceAs (Decidable (_ ∧ _))
  | .nan | .infinity _ => inferInstanceAs (Decidable False)

def toRat : Number → ℚ
  | .finite negative m e => (if negative then -1 else 1) * (m * 2 ^ e)
  | _ => 0

/-! ### Scaling -/

theorem two_zpow_sub_one (e : ℤ) : (2 : ℚ) ^ (e - 1) = 2 ^ e / 2 := by
  rw [zpow_sub_one₀ two_ne_zero, div_eq_mul_inv]

theorem two_zpow_sub_two (e : ℤ) : (2 : ℚ) ^ (e - 2) = 2 ^ e / 4 := by
  rw [zpow_sub₀ two_ne_zero]
  norm_num

theorem scaled_pos (num : ℕ) {den : ℕ} (pos : 0 < den) (e : ℤ) : 0 < (scaled num den e).2 := by
  cases e with
  | ofNat e => exact Nat.mul_pos pos (Nat.two_pow_pos e)
  | negSucc e => exact pos

theorem scaled_div (num den : ℕ) (e : ℤ) :
    ((scaled num den e).1 : ℚ) / (scaled num den e).2 = num / den / 2 ^ e := by
  cases e with
  | ofNat e =>
    simp only [scaled, Nat.pow_eq, Nat.cast_mul, Nat.cast_pow, Nat.cast_ofNat, Int.ofNat_eq_natCast,
      zpow_natCast, div_div]
  | negSucc e =>
    simp only [scaled, Nat.pow_eq, Nat.cast_mul, Nat.cast_pow, Nat.cast_ofNat, zpow_negSucc]
    field_simp

theorem mul_scaled_le_iff (num : ℕ) {den : ℕ} (pos : 0 < den) (a : ℕ) (e : ℤ) :
    a * (scaled num den e).2 ≤ (scaled num den e).1 ↔ (a : ℚ) * 2 ^ e ≤ num / den := by
  have two : (0 : ℚ) < 2 ^ e := by positivity
  have pos' : (0 : ℚ) < (scaled num den e).2 := by exact_mod_cast scaled_pos num pos e
  rw [← le_div_iff₀ two, ← scaled_div, le_div_iff₀ pos']
  exact_mod_cast Iff.rfl

theorem magnitude_pos (m : ℕ) (e : ℤ) : 0 < (magnitude m e).2 := by
  cases e with
  | ofNat e => exact Nat.one_pos
  | negSucc e => exact Nat.two_pow_pos _

theorem magnitude_div (m : ℕ) (e : ℤ) :
    ((magnitude m e).1 : ℚ) / (magnitude m e).2 = m * 2 ^ e := by
  cases e with
  | ofNat e => simp [magnitude]
  | negSucc e => simp [magnitude, zpow_negSucc, div_eq_mul_inv]

/-- A number that equals an integer has its value. -/
theorem toRat_eq_of_toInt? {n : Number} {k : ℤ} (h : n.toInt? = some k) : n.toRat = k := by
  match n, h with
  | .finite s m e, h =>
    have pos : ((magnitude m e).2 : ℚ) ≠ 0 := by exact_mod_cast (magnitude_pos m e).ne'
    simp only [toInt?] at h
    split at h
    next whole =>
      obtain rfl := Option.some.inj h
      rw [toRat, ← magnitude_div, ← Nat.cast_div (Nat.dvd_of_mod_eq_zero whole) pos]
      cases s <;> simp only [Bool.false_eq_true, if_false, if_true, one_mul, neg_mul, Int.cast_neg,
        Int.cast_natCast]
    · simp at h

/-! ### Rounding to an integer -/

/-- An integer within half a step of a quotient is what the quotient is rounded to; at just half a
step only when it is even. -/
theorem roundQuotient_eq {num den m : ℕ} (pos : 0 < den) (above : 2 * (m * den) ≤ 2 * num + den)
    (below : 2 * num ≤ 2 * (m * den) + den)
    (inner : m % 2 = 1 → 2 * (m * den) < 2 * num + den ∧ 2 * num < 2 * (m * den) + den) :
    roundQuotient num den = m := by
  have split := Nat.div_add_mod num den
  have small := Nat.mod_lt num pos
  simp only [roundQuotient]
  generalize num / den = q at *
  generalize num % den = t at *
  have notAbove : q ≤ m := by
    by_contra h
    have : (m + 1) * den ≤ den * q := by rw [Nat.mul_comm]; exact Nat.mul_le_mul_left _ (by omega)
    rw [Nat.add_mul] at this
    omega
  have notBelow : m ≤ q + 1 := by
    by_contra h
    have : (q + 2) * den ≤ m * den := Nat.mul_le_mul_right _ (by omega)
    rw [Nat.add_mul, Nat.mul_comm q] at this
    omega
  -- the quotient without its rest is `m` or one less
  rcases (by omega : q = m ∨ q + 1 = m) with rfl | rfl
  · rw [Nat.mul_comm den] at split
    split_ifs <;> omega
  · rw [Nat.add_mul, Nat.mul_comm q] at above below inner
    split_ifs <;> omega

theorem roundQuotient_eq_of_near {num den m : ℕ} (pos : 0 < den) (low : (m : ℚ) - 1 / 2 ≤ num / den)
    (high : (num / den : ℚ) ≤ m + 1 / 2)
    (inner : m % 2 = 1 → (m : ℚ) - 1 / 2 < num / den ∧ (num / den : ℚ) < m + 1 / 2) :
    roundQuotient num den = m := by
  have pos' : (0 : ℚ) < den := by exact_mod_cast pos
  rw [le_div_iff₀ pos'] at low
  rw [div_le_iff₀ pos'] at high
  rw [lt_div_iff₀ pos', div_lt_iff₀ pos'] at inner
  have above : 2 * ((m : ℚ) * den) ≤ 2 * num + den := by linarith
  have below : 2 * (num : ℚ) ≤ 2 * (m * den) + den := by linarith
  refine roundQuotient_eq pos (by exact_mod_cast above) (by exact_mod_cast below) fun odd => ?_
  have above : 2 * ((m : ℚ) * den) < 2 * num + den := by linarith [(inner odd).1]
  have below : 2 * (num : ℚ) < 2 * (m * den) + den := by linarith [(inner odd).2]
  exact ⟨by exact_mod_cast above, by exact_mod_cast below⟩

theorem le_roundQuotient {num den m : ℕ} (pos : 0 < den) (low : (m : ℚ) ≤ num / den) :
    m ≤ roundQuotient num den := by
  have : m ≤ num / den := by
    rw [le_div_iff₀ (by exact_mod_cast pos)] at low
    exact (Nat.le_div_iff_mul_le pos).2 (by exact_mod_cast low)
  simp only [roundQuotient]
  split_ifs <;> omega

theorem roundQuotient_le {num den m : ℕ} (pos : 0 < den) (high : (num / den : ℚ) < m) :
    roundQuotient num den ≤ m := by
  have : num / den < m := by
    rw [div_lt_iff₀ (by exact_mod_cast pos)] at high
    exact (Nat.div_lt_iff_lt_mul pos).2 (by exact_mod_cast high)
  simp only [roundQuotient]
  split_ifs <;> omega

/-! ### The exponent -/

theorem bitLength_bounds {n : ℕ} (pos : 0 < n) :
    (2 : ℚ) ^ ((bitLength n : ℤ) - 1) ≤ n ∧ (n : ℚ) < 2 ^ (bitLength n : ℤ) := by
  have ne : n ≠ 0 := by omega
  have length : bitLength n = n.log2 + 1 := if_neg ne
  have low : (2 : ℚ) ^ n.log2 ≤ n := by exact_mod_cast Nat.log2_self_le ne
  have high : (n : ℚ) < 2 ^ (n.log2 + 1) := by exact_mod_cast Nat.lt_log2_self
  rw [length]
  refine ⟨?_, ?_⟩
  · rw [Nat.cast_add, Nat.cast_one, add_sub_cancel_right, zpow_natCast]
    exact low
  · rw [zpow_natCast]
    exact high

/-- A quotient is between the powers of two that the lengths of its parts give. -/
theorem quotient_bounds {num den : ℕ} (hn : 0 < num) (hd : 0 < den) :
    (2 : ℚ) ^ ((bitLength num : ℤ) - bitLength den - 1) < num / den ∧
      (num / den : ℚ) < 2 ^ ((bitLength num : ℤ) - bitLength den + 1) := by
  obtain ⟨n1, n2⟩ := bitLength_bounds hn
  obtain ⟨d1, d2⟩ := bitLength_bounds hd
  have pos : (0 : ℚ) < den := by exact_mod_cast hd
  refine ⟨?_, ?_⟩
  · rw [lt_div_iff₀ pos]
    calc (2 : ℚ) ^ ((bitLength num : ℤ) - bitLength den - 1) * den
        < 2 ^ ((bitLength num : ℤ) - bitLength den - 1) * 2 ^ (bitLength den : ℤ) := by gcongr
      _ = 2 ^ ((bitLength num : ℤ) - 1) := by rw [← zpow_add₀ two_ne_zero]; congr 1; ring
      _ ≤ num := n1
  · rw [div_lt_iff₀ pos]
    calc (num : ℚ) < 2 ^ (bitLength num : ℤ) := n2
      _ = 2 ^ ((bitLength num : ℤ) - bitLength den + 1) * 2 ^ ((bitLength den : ℤ) - 1) := by
        rw [← zpow_add₀ two_ne_zero]; congr 1; ring
      _ ≤ 2 ^ ((bitLength num : ℤ) - bitLength den + 1) * den := by gcongr

/-- Before it is bounded, the exponent is the one at which a quotient has a significand of just 53
digits: the estimate by lengths, or one more. -/
theorem exists_exact_exponent {num den : ℕ} (hn : 0 < num) (hd : 0 < den) :
    ∃ exact, exponentOf num den = max exact minExponent ∧
      (2 : ℚ) ^ 52 * 2 ^ exact ≤ num / den ∧ (num / den : ℚ) < 2 ^ 53 * 2 ^ exact := by
  obtain ⟨low, high⟩ := quotient_bounds hn hd
  set estimate : ℤ := (bitLength num : ℤ) - bitLength den - 53 with hestimate
  have up : (2 : ℚ) ^ (estimate + 1) = 2 * 2 ^ estimate := by rw [zpow_add_one₀ two_ne_zero]; ring
  have low' : (2 : ℚ) ^ 52 * 2 ^ estimate ≤ num / den := by
    refine le_of_eq_of_le ?_ low.le
    rw [← zpow_natCast, ← zpow_add₀ two_ne_zero]
    congr 1
    push_cast
    omega
  have high' : (num / den : ℚ) < 2 ^ 53 * 2 ^ (estimate + 1) := by
    refine lt_of_lt_of_eq high ?_
    rw [← zpow_natCast, ← zpow_add₀ two_ne_zero]
    congr 1
    push_cast
    omega
  have compare := mul_scaled_le_iff num hd significandBound estimate
  have enough := (mul_scaled_le_iff num hd (Nat.pow 2 52) estimate).2 (by exact_mod_cast low')
  by_cases large : significandBound * (scaled num den estimate).2 ≤ (scaled num den estimate).1
  · refine ⟨estimate + 1, ?_, ?_, high'⟩
    · simp only [exponentOf, ← hestimate, if_pos large]
    · have reached : (2 : ℚ) ^ 53 * 2 ^ estimate ≤ num / den := by exact_mod_cast compare.1 large
      rw [up]
      linarith
  · refine ⟨estimate, ?_, low', ?_⟩
    · have small : ¬ (scaled num den estimate).1 * 2 < significandBound *
          (scaled num den estimate).2 := by
        have : significandBound = Nat.pow 2 52 * 2 := by decide
        rw [this, Nat.mul_right_comm]
        omega
      simp only [exponentOf, ← hestimate, if_neg large, if_neg small]
    · exact_mod_cast not_le.1 (compare.not.1 large)

/-- At its exponent a quotient has a significand of at most 53 digits, and of no fewer unless the
exponent is the least one. -/
theorem exponentOf_bounds {num den : ℕ} (hn : 0 < num) (hd : 0 < den) :
    minExponent ≤ exponentOf num den ∧ (num / den : ℚ) < 2 ^ 53 * 2 ^ exponentOf num den ∧
      ((2 : ℚ) ^ 52 * 2 ^ exponentOf num den ≤ num / den ∨ exponentOf num den = minExponent) := by
  obtain ⟨exact, eq, low, high⟩ := exists_exact_exponent hn hd
  rw [eq]
  refine ⟨le_max_right _ _, high.trans_le ?_, ?_⟩
  · gcongr
    · norm_num
    · exact le_max_left _ _
  · rcases max_choice exact minExponent with h | h
    · exact .inl (by rwa [h])
    · exact .inr h

/-- The double nearest to a quotient is a double, unless it is an infinity. -/
theorem isDouble_ofRatio (negative : Bool) (num : ℕ) {den : ℕ} (hd : 0 < den)
    (finite : (ofRatio negative num den).isFinite) : (ofRatio negative num den).IsDouble := by
  unfold ofRatio at finite ⊢
  split
  · exact ⟨by decide, by decide, by decide, .inr rfl⟩
  next ne =>
    obtain ⟨least, high, low⟩ := exponentOf_bounds (Nat.pos_of_ne_zero ne) hd
    have pos := scaled_pos num hd (exponentOf num den)
    have value := scaled_div num den (exponentOf num den)
    have two : (0 : ℚ) < 2 ^ exponentOf num den := by positivity
    have above : roundQuotient (scaled num den (exponentOf num den)).1
        (scaled num den (exponentOf num den)).2 ≤ significandBound := by
      refine roundQuotient_le pos ?_
      rw [value, div_lt_iff₀ two]
      exact_mod_cast high
    have below : Nat.pow 2 52 ≤ roundQuotient (scaled num den (exponentOf num den)).1
        (scaled num den (exponentOf num den)).2 ∨ exponentOf num den = minExponent := by
      refine low.imp_left fun low => le_roundQuotient pos ?_
      rw [value, le_div_iff₀ two]
      exact_mod_cast low
    simp only [if_neg ne] at finite ⊢
    generalize roundQuotient _ _ = m at *
    generalize exponentOf num den = e at *
    by_cases full : m = significandBound
    · simp only [if_pos full] at finite ⊢
      by_cases big : maxExponent < e + 1
      · rw [if_pos big] at finite
        cases finite
      · rw [if_neg big]
        exact ⟨by rw [full]; decide, by omega, by omega, .inl (by rw [full]; decide)⟩
    · simp only [if_neg full] at finite ⊢
      by_cases big : maxExponent < e
      · rw [if_pos big] at finite
        cases finite
      · rw [if_neg big]
        exact ⟨by omega, least, by omega, below⟩

/-! ### What is rounded to a double -/

/-- How far a neighbourhood reaches down, in quarters of the last digit: below a power of two the
next double is half as far away. -/
def reach (m : ℕ) (e : ℤ) : ℕ := if m = Nat.pow 2 52 ∧ minExponent < e then 1 else 2

/-- Whether a value is around `m * 2 ^ e`: no other double is nearer to it, and another one that is
as near is not the even one. -/
def Near (m : ℕ) (e : ℤ) (x : ℚ) : Prop :=
  (4 * m - reach m e) * (2 ^ e / 4) ≤ x ∧ x ≤ (4 * m + 2) * (2 ^ e / 4) ∧
    (m % 2 = 1 → (4 * m - reach m e) * (2 ^ e / 4) < x ∧ x < (4 * m + 2) * (2 ^ e / 4))

theorem reach_cases (m : ℕ) (e : ℤ) :
    (m = Nat.pow 2 52 ∧ minExponent < e ∧ reach m e = 1) ∨
      (¬(m = Nat.pow 2 52 ∧ minExponent < e) ∧ reach m e = 2) := by
  by_cases h : m = Nat.pow 2 52 ∧ minExponent < e
  · exact .inl ⟨h.1, h.2, if_pos h⟩
  · exact .inr ⟨h, if_neg h⟩

theorem reach_bounds (m : ℕ) (e : ℤ) : 1 ≤ reach m e ∧ reach m e ≤ 2 := by
  rcases reach_cases m e with h | h <;> omega

/-- A double is around itself. -/
theorem near_self (m : ℕ) (e : ℤ) : Near m e (m * 2 ^ e) := by
  have two : (0 : ℚ) < 2 ^ e := by positivity
  have : (1 : ℚ) ≤ reach m e := by exact_mod_cast (reach_bounds m e).1
  refine ⟨?_, ?_, fun _ => ⟨?_, ?_⟩⟩ <;> nlinarith

/-- The exponent of what is around a double is that of the double, or one less just below a power
of two. -/
theorem exponentOf_of_near {s : Bool} {m num den : ℕ} {e : ℤ} (hn : 0 < num) (hd : 0 < den)
    (double : (Number.finite s m e).IsDouble) (near : Near m e (num / den)) :
    exponentOf num den = e ∨
      m = Nat.pow 2 52 ∧ minExponent < e ∧ exponentOf num den = e - 1 ∧
        (num / den : ℚ) < 2 ^ 52 * 2 ^ e := by
  obtain ⟨bound, least, -, normal⟩ := double
  obtain ⟨lowest, high, low⟩ := exponentOf_bounds hn hd
  obtain ⟨nlow, nhigh, -⟩ := near
  generalize exponentOf num den = f at *
  generalize (num / den : ℚ) = x at *
  have two : (0 : ℚ) < 2 ^ e := by positivity
  have bound' : (m : ℚ) + 1 ≤ 2 ^ 53 := by exact_mod_cast bound
  have notAbove : f ≤ e := by
    by_contra h
    have : (2 : ℚ) ^ (e + 1) ≤ 2 ^ f := zpow_le_zpow_right₀ (by norm_num) (by omega)
    rw [zpow_add_one₀ two_ne_zero] at this
    rcases low with low | low
    · nlinarith
    · omega
  rcases notAbove.eq_or_lt with rfl | lt
  · exact .inl rfl
  have large : Nat.pow 2 52 ≤ m := by
    rcases normal with h | h
    · exact h
    · omega
  have large' : (2 : ℚ) ^ 52 ≤ m := by exact_mod_cast large
  -- a lower exponent leaves no room but just below the power of two
  have step : (2 : ℚ) ^ f ≤ 2 ^ e / 2 := by
    rw [← two_zpow_sub_one]
    exact zpow_le_zpow_right₀ (by norm_num) (by omega)
  have under : x < 2 ^ 52 * 2 ^ e := by nlinarith
  have power : m = Nat.pow 2 52 := by
    rcases reach_cases m e with ⟨h, -⟩ | ⟨-, two'⟩
    · exact h
    · by_contra ne
      have : (2 : ℚ) ^ 52 + 1 ≤ m := by exact_mod_cast (by omega : Nat.pow 2 52 + 1 ≤ m)
      rw [two'] at nlow
      push_cast at nlow
      nlinarith
  refine .inr ⟨power, by omega, ?_, under⟩
  by_contra ne
  have : (2 : ℚ) ^ f ≤ 2 ^ e / 4 := by
    rw [← two_zpow_sub_two]
    exact zpow_le_zpow_right₀ (by norm_num) (by omega)
  have : (reach m e : ℚ) ≤ 2 := by exact_mod_cast (reach_bounds m e).2
  nlinarith

theorem ofRatio_eq_of_near {s : Bool} {m num den : ℕ} {e : ℤ} (hn : 0 < num) (hd : 0 < den)
    (double : (Number.finite s m e).IsDouble) (near : Near m e (num / den)) :
    ofRatio s num den = .finite s m e := by
  have two : (0 : ℚ) < 2 ^ e := by positivity
  have value := scaled_div num den (exponentOf num den)
  have pos := scaled_pos num hd (exponentOf num den)
  have exponent := exponentOf_of_near hn hd double near
  obtain ⟨bound, -, most, -⟩ := double
  obtain ⟨low, high, inner⟩ := near
  rw [ofRatio, if_neg (by omega)]
  rcases exponent with same | ⟨power, above, less, under⟩
  · have wide : (reach m e : ℚ) ≤ 2 := by exact_mod_cast (reach_bounds m e).2
    have rounded : roundQuotient (scaled num den e).1 (scaled num den e).2 = m := by
      rw [same] at pos value
      refine roundQuotient_eq_of_near pos ?_ ?_ fun odd => ?_
      · rw [value, le_div_iff₀ two]; nlinarith
      · rw [value, div_le_iff₀ two]; linarith
      · obtain ⟨low, high⟩ := inner odd
        rw [value, lt_div_iff₀ two, div_lt_iff₀ two]
        exact ⟨by nlinarith, by linarith⟩
    simp only [same, rounded, if_neg bound.ne, if_neg most.not_gt]
  · rw [less] at pos value
    have value' : ((scaled num den (e - 1)).1 : ℚ) / (scaled num den (e - 1)).2 =
        2 * (num / den) / 2 ^ e := by
      rw [value, two_zpow_sub_one]; field_simp
    have full : ((significandBound : ℕ) : ℚ) = 2 ^ 53 := by norm_num [significandBound]
    have four : ((m : ℕ) : ℚ) = 2 ^ 52 := by rw [power]; norm_num
    have one : reach m e = 1 := if_pos ⟨power, above⟩
    rw [one, four, Nat.cast_one] at low
    have rounded :
        roundQuotient (scaled num den (e - 1)).1 (scaled num den (e - 1)).2 = significandBound := by
      refine roundQuotient_eq_of_near pos ?_ ?_ fun odd => absurd odd (by decide)
      · rw [value', le_div_iff₀ two, full]; linarith
      · rw [value', div_le_iff₀ two, full]; linarith
    simp only [less, rounded, if_true, sub_add_cancel, if_neg most.not_gt]
    rw [power]
    rfl

theorem ofDecimal_eq_of_near {s : Bool} {m digits : ℕ} {e x : ℤ} (pos : 0 < digits)
    (double : (Number.finite s m e).IsDouble) (near : Near m e (digits * 10 ^ x)) :
    ofDecimal s digits x = .finite s m e := by
  cases x with
  | ofNat k =>
    refine ofRatio_eq_of_near (Nat.mul_pos pos (Nat.pow_pos (by norm_num))) Nat.one_pos double ?_
    simpa using near
  | negSucc k =>
    refine ofRatio_eq_of_near pos (Nat.pow_pos (by norm_num)) double ?_
    simpa [zpow_negSucc, div_eq_mul_inv] using near

theorem eq_of_toRat_eq {a b : Number} (ha : a.IsDouble) (hb : b.IsDouble) (ne : a.toRat ≠ 0)
    (eq : a.toRat = b.toRat) : a = b := by
  match a, b, ha, hb with
  | .finite s m e, .finite t k f, ha, hb =>
    have two : ∀ e : ℤ, (0 : ℚ) < 2 ^ e := fun e => by positivity
    have posOf : ∀ {s : Bool} {m : ℕ} {e : ℤ}, (Number.finite s m e).toRat ≠ 0 → 0 < m := by
      intro s m e ne
      by_contra zero
      exact ne (by simp [toRat, Nat.eq_zero_of_not_pos zero])
    have hm : (0 : ℚ) < m := by exact_mod_cast posOf ne
    have hk : (0 : ℚ) < k := by exact_mod_cast posOf (eq ▸ ne)
    have left : (0 : ℚ) < m * 2 ^ e := mul_pos hm (two e)
    have right : (0 : ℚ) < k * 2 ^ f := mul_pos hk (two f)
    obtain ⟨rfl, same⟩ : s = t ∧ (m * 2 ^ e : ℚ) = k * 2 ^ f := by
      cases s <;> cases t <;> simp only [toRat, Bool.false_eq_true, if_false, if_true] at eq <;>
        constructor <;> first | rfl | linarith
    -- both are what their common value is rounded to
    have num : 0 < (magnitude m e).1 := by
      have : (0 : ℚ) < (magnitude m e).1 / (magnitude m e).2 := by rw [magnitude_div]; exact left
      by_contra zero
      rw [Nat.eq_zero_of_not_pos zero] at this
      simp at this
    have one := ofRatio_eq_of_near num (magnitude_pos m e) ha
        (by rw [magnitude_div]; exact near_self m e)
    have other := ofRatio_eq_of_near num (magnitude_pos m e) hb
      (by rw [magnitude_div, same]; exact near_self k f)
    exact one.symm.trans other

/-! ### Integers -/

/-- An integer that a double holds is rounded to it. -/
theorem floor?_ofNat_of_eq {m k : ℕ}
    {e : ℤ} (pos : 0 < k) (double : (Number.finite false m e).IsDouble)
    (eq : (k : ℚ) = m * 2 ^ e) : (ofNat k).floor? = some (k : ℤ) := by
  have rounded : ofNat k = .finite false m e := by
    refine ofRatio_eq_of_near pos Nat.one_pos double ?_
    rw [Nat.cast_one, div_one, eq]
    exact near_self m e
  have value := magnitude_div m e
  have den := magnitude_pos m e
  have whole : (magnitude m e).1 = k * (magnitude m e).2 := by
    rw [← eq, div_eq_iff (by exact_mod_cast den.ne')] at value
    exact_mod_cast value
  simp [rounded, floor?, whole, den]

/-- A small integer is held by a double. -/
theorem exists_isDouble_eq {k : ℕ} (pos : 0 < k) (small : k < 2 ^ 53) :
    ∃ m e, (Number.finite false m e).IsDouble ∧ (k : ℚ) = m * 2 ^ e := by
  have le : k.log2 ≤ 52 := Nat.lt_succ_iff.1 ((Nat.log2_lt pos.ne').2 small)
  have low : 2 ^ k.log2 ≤ k := Nat.log2_self_le pos.ne'
  have high : k < 2 ^ (k.log2 + 1) := Nat.lt_log2_self
  have split : 2 ^ k.log2 * 2 ^ (52 - k.log2) = 2 ^ 52 := by rw [← pow_add]; congr 1; omega
  refine ⟨k * 2 ^ (52 - k.log2), -(52 - k.log2 : ℕ), ⟨?_, ?_, ?_, .inl ?_⟩, ?_⟩
  · calc k * 2 ^ (52 - k.log2) < 2 ^ (k.log2 + 1) * 2 ^ (52 - k.log2) :=
          Nat.mul_lt_mul_of_pos_right high (Nat.two_pow_pos _)
      _ = significandBound := by rw [pow_succ, mul_right_comm, split]; rfl
  · simp only [minExponent]; omega
  · simp only [maxExponent]; omega
  · calc Nat.pow 2 52 = 2 ^ k.log2 * 2 ^ (52 - k.log2) := split.symm
      _ ≤ _ := Nat.mul_le_mul_right _ low
  · rw [zpow_neg, zpow_natCast]
    push_cast
    rw [mul_assoc, mul_inv_cancel₀ (by positivity), mul_one]

theorem floor?_ofNat {n : Number} {k : ℕ} (double : n.IsDouble) (floor : n.floor? = some (k : ℤ)) :
    (ofNat k).floor? = some (k : ℤ) := by
  rcases Nat.eq_zero_or_pos k with rfl | pos
  · have zero : (magnitude 0 minExponent).1 = 0 := rfl
    simp [ofNat, ofRatio, floor?, zero]
  match n, double with
  | .finite s m e, double =>
    have down : (magnitude m e).1 / (magnitude m e).2 = k := by
      simp only [floor?, Option.some.injEq] at floor
      cases s with
      | true =>
        rw [if_pos rfl] at floor
        generalize ((magnitude m e).1 + (magnitude m e).2 - 1) / (magnitude m e).2 = q at floor
        omega
      | false =>
        rw [if_neg (by simp)] at floor
        exact_mod_cast floor
    cases e with
    | ofNat e =>
      refine floor?_ofNat_of_eq (m := m) (e := e) pos double ?_
      rw [← down]
      simp [magnitude]
    | negSucc e =>
      have small : k < 2 ^ 53 := by
        rw [← down]
        exact Nat.lt_of_le_of_lt (Nat.div_le_self _ _) double.1
      obtain ⟨m', e', double', eq⟩ := exists_isDouble_eq pos small
      exact floor?_ofNat_of_eq pos double' eq

/-! ### Sums -/

/-- So many units are a double: rounding leaves them as they are. -/
def Holds (n : ℤ) : Prop := (ofUnits n).units = n

instance : DecidablePred Holds := fun _ => inferInstanceAs (Decidable (_ = _))

/-- The first double is at most the second one; not-a-number is not, and nothing is at most it. -/
def AtMost (x y : Number) : Prop := x ≠ .nan ∧ y ≠ .nan ∧ y.lt x = false

instance (x y : Number) : Decidable (AtMost x y) := inferInstanceAs (Decidable (_ ∧ _))

@[simp] theorem units_neg (x : Number) : x.neg.units = -x.units := by
  cases x with
  | finite s m e => cases s <;> simp [neg, units]
  | _ => rfl

@[simp] theorem isFinite_neg (x : Number) : x.neg.isFinite = x.isFinite := by cases x <;> rfl

theorem isFinite_of_units_ne_zero {x : Number} (ne : x.units ≠ 0) : x.isFinite := by
  cases x with
  | finite => rfl
  | _ => exact absurd rfl ne

/-- A sum that is a double is not rounded. -/
theorem add_of_holds {x y : Number} (hx : x.isFinite) (hy : y.isFinite)
    (holds : Holds (x.units + y.units)) :
    (x.add y).isFinite ∧ (x.add y).units = x.units + y.units := by
  match x, y, hx, hy with
  | .finite s m e, .finite t k f, _, _ =>
    simp only [add]
    split
    next zero => exact ⟨rfl, by rw [zero]; cases s <;> cases t <;> simp [units]⟩
    next ne => exact ⟨isFinite_of_units_ne_zero (holds.symm ▸ ne), holds⟩

/-- A difference that is a double is not rounded. -/
theorem sub_of_holds {x y : Number} (hx : x.isFinite) (hy : y.isFinite)
    (holds : Holds (x.units - y.units)) :
    (x.sub y).isFinite ∧ (x.sub y).units = x.units - y.units := by
  rw [Int.sub_eq_add_neg, ← units_neg] at holds ⊢
  exact add_of_holds hx (by simpa using hy) holds

theorem lt_iff {x y : Number} (hx : x.isFinite) (hy : y.isFinite) :
    x.lt y = true ↔ x.units < y.units := by
  match x, y, hx, hy with
  | .finite .., .finite .., _, _ => simp [lt]

theorem lt_of_lt_of_units_le {l x y : Number} (hx : x.isFinite) (hy : y.isFinite)
    (le : x.units ≤ y.units) (below : l.lt x = true) : l.lt y = true := by
  cases finite : l.isFinite with
  | true => exact (lt_iff finite hy).2 (Int.lt_of_lt_of_le ((lt_iff finite hx).1 below) le)
  | false =>
    match l, x, y, finite, hx, hy with
    | .infinity s, .finite _ _ _, .finite _ _ _, _, _, _ => simpa only [lt] using below
    | .nan, _, _, _, _, _ => simp [lt] at below

/-- What is less than what fits, fits as well. -/
theorem AtMost.of_units_le {x y l : Number} (hx : x.isFinite) (hy : y.isFinite)
    (le : x.units ≤ y.units) (h : y.AtMost l) : x.AtMost l := by
  refine ⟨fun nan => absurd (nan ▸ hx) (by decide), h.2.1, Bool.eq_false_iff.2 fun below => ?_⟩
  have := lt_of_lt_of_units_le hx hy le below
  rw [h.2.2] at this
  cases this

def perOne : ℕ := Nat.pow 2 (-minExponent).toNat

theorem perOne_eq : perOne = 2 ^ (-minExponent).toNat := by
  unfold perOne
  generalize (-minExponent).toNat = k
  exact Nat.pow_eq

theorem perOne_pos : 0 < perOne := by
  rw [perOne_eq]
  exact Nat.two_pow_pos _

theorem ofUnits_eq (n : ℤ) : ofUnits n = ofRatio (n < 0) n.natAbs perOne := by
  unfold ofUnits perOne
  rfl

theorem units_finite {m : ℕ} {e : ℤ} (least : minExponent ≤ e) :
    ((Number.finite false m e).units : ℚ) = m * 2 ^ e * perOne := by
  have shift : ((e - minExponent).toNat : ℤ) = e + ((-minExponent).toNat : ℕ) := by
    simp only [minExponent] at *
    omega
  calc ((Number.finite false m e).units : ℚ)
      = m * 2 ^ ((e - minExponent).toNat : ℤ) := by
        rw [zpow_natCast]
        simp [units]
    _ = m * 2 ^ e * perOne := by
      rw [shift, zpow_add₀ two_ne_zero, zpow_natCast, mul_assoc, perOne_eq, Nat.cast_pow,
        Nat.cast_ofNat]

theorem units_ofNat {k : ℕ} (small : k < 2 ^ 53) :
    (ofNat k).isFinite ∧ (ofNat k).units = k * perOne := by
  rcases Nat.eq_zero_or_pos k with rfl | pos
  · exact ⟨rfl, by rw [Nat.cast_zero, Int.zero_mul]; rfl⟩
  obtain ⟨m, e, double, eq⟩ := exists_isDouble_eq pos small
  have rounded : ofNat k = .finite false m e := by
    refine ofRatio_eq_of_near pos Nat.one_pos double ?_
    rw [Nat.cast_one, div_one, eq]
    exact near_self m e
  have value := units_finite (m := m) double.2.1
  rw [← eq] at value
  rw [rounded]
  exact ⟨rfl, by exact_mod_cast value⟩

theorem holds_of_lt {k : ℕ} (small : k < 2 ^ 53) : Holds (k * perOne) := by
  rcases Nat.eq_zero_or_pos k with rfl | pos
  · rw [Nat.cast_zero, Int.zero_mul]
    rfl
  obtain ⟨m, e, double, eq⟩ := exists_isDouble_eq pos small
  have num : 0 < k * perOne := Nat.mul_pos pos perOne_pos
  have one : (perOne : ℚ) ≠ 0 := by exact_mod_cast perOne_pos.ne'
  have rounded : ofUnits (k * perOne) = .finite false m e := by
    rw [ofUnits_eq, ← Nat.cast_mul, Int.natAbs_natCast,
      decide_eq_false (Int.not_lt.2 (Int.natCast_nonneg _))]
    refine ofRatio_eq_of_near num perOne_pos double ?_
    rw [Nat.cast_mul, mul_div_assoc, div_self one, mul_one, eq]
    exact near_self m e
  have value := units_finite (m := m) double.2.1
  rw [← eq] at value
  rw [Holds, rounded]
  exact_mod_cast value

end Quill.Number
