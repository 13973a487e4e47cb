import Quill.Text.Basic

/-!
# Surrogate pairs

A character above the basic plane is a pair of units. A text is well-formed if no half of a pair
stands without the other one.

## Main definitions

* `Text.SplitsPair` — the offsets between the two halves of a pair.
* `Text.IsWellFormed` — texts without a surrogate that has no partner.

## Main statements

* `Text.IsWellFormed.splitsPair` — in a well-formed text each half of a pair is next to the other
  one.
* `Text.isWellFormed_ofString` — the units of a string are well-formed.
-/

namespace Quill.Text

/-- The offset lies between the two halves of a surrogate pair. -/
def SplitsPair (t : Text) (offset : Nat) : Prop :=
  ∃ front high low behind, t = front ++ high :: low :: behind ∧ isHighSurrogate high ∧
  isLowSurrogate low ∧
    offset = front.length + 1

inductive IsWellFormed : Text → Prop
  | nil : IsWellFormed []
  | unit {u : UInt16} {t : Text} (high : isHighSurrogate u = false) (low : isLowSurrogate u = false)
      (rest : IsWellFormed t) : IsWellFormed (u :: t)
  | pair {high low : UInt16} {t : Text} (isHigh : isHighSurrogate high) (isLow : isLowSurrogate low)
      (rest : IsWellFormed t) : IsWellFormed (high :: low :: t)

variable {t front behind : Text} {u : UInt16} {o : Nat}

theorem isHighSurrogate_iff : isHighSurrogate u ↔ 0xD800 ≤ u.toNat ∧ u.toNat ≤ 0xDBFF := by
  simp [isHighSurrogate, UInt16.le_iff_toNat_le]

theorem isLowSurrogate_iff : isLowSurrogate u ↔ 0xDC00 ≤ u.toNat ∧ u.toNat ≤ 0xDFFF := by
  simp [isLowSurrogate, UInt16.le_iff_toNat_le]

/-- No unit is both halves of a pair. -/
theorem isLowSurrogate_of_isHighSurrogate (high : isHighSurrogate u) :
    isLowSurrogate u = false := by
  refine Bool.eq_false_iff.2 fun low => ?_
  have := (isHighSurrogate_iff.1 high).2
  have := (isLowSurrogate_iff.1 low).1
  omega

/-! ## Offsets inside a pair -/

theorem SplitsPair.cons (splits : SplitsPair t o) (u : UInt16) : SplitsPair (u :: t) (o + 1) := by
  obtain ⟨front, high, low, behind, rfl, isHigh, isLow, rfl⟩ := splits
  exact ⟨u :: front, high, low, behind, rfl, isHigh, isLow, rfl⟩

/-- Between two parts of a text a pair is split exactly if its halves are the units next to the
cut. -/
theorem splitsPair_append_iff (front behind : Text) : SplitsPair (front ++ behind) front.length ↔
    front.getLast?.any isHighSurrogate ∧ behind.head?.any isLowSurrogate := by
  constructor
  · rintro ⟨a, high, low, b, eq, isHigh, isLow, length⟩
    have cut : front ++ behind = (a ++ [high]) ++ low :: b := by simpa using eq
    obtain ⟨rfl, rfl⟩ := List.append_inj cut (by simpa using length)
    exact ⟨by simpa using isHigh, by simpa using isLow⟩
  · rintro ⟨last, first⟩
    obtain ⟨high, eq, isHigh⟩ := (Option.any_eq_true _ _).1 last
    obtain ⟨low, eq', isLow⟩ := (Option.any_eq_true _ _).1 first
    obtain ⟨a, rfl⟩ := List.getLast?_eq_some_iff.1 eq
    obtain ⟨b, rfl⟩ := List.head?_eq_some_iff.1 eq'
    exact ⟨a, high, low, b, by simp, isHigh, isLow, by simp⟩

/-! ## Well-formed texts -/

/-- A first half has the second one behind it, and a second half the first one in front. -/
theorem IsWellFormed.splitsPair (wellFormed : IsWellFormed (front ++ u :: behind)) :
    (isHighSurrogate u → SplitsPair (front ++ u :: behind) (front.length + 1)) ∧
      (isLowSurrogate u → SplitsPair (front ++ u :: behind) front.length) := by
  generalize eq : front ++ u :: behind = t at wellFormed
  induction wellFormed generalizing front with
  | nil => simp at eq
  | @unit v t high low rest ih =>
    cases front with
    | nil =>
      obtain ⟨rfl, rfl⟩ := List.cons.inj eq
      exact ⟨fun isHigh => by simp [isHigh] at high, fun isLow => by simp [isLow] at low⟩
    | cons w front =>
      obtain ⟨rfl, same⟩ := List.cons.inj eq
      exact ⟨fun isHigh => ((ih same).1 isHigh).cons w, fun isLow => ((ih same).2 isLow).cons w⟩
  | @pair high low t isHigh isLow rest ih =>
    match front with
    | [] =>
      obtain ⟨rfl, rfl⟩ := List.cons.inj eq
      exact ⟨fun _ => ⟨[], u, low, t, rfl, isHigh, isLow, rfl⟩,
        fun low => by simp [isLowSurrogate_of_isHighSurrogate isHigh] at low⟩
    | [w] =>
      obtain ⟨rfl, rfl, rfl⟩ : w = high ∧ u = low ∧ behind = t := by simpa using eq
      exact ⟨fun high => by simp [isLowSurrogate_of_isHighSurrogate high] at isLow,
        fun _ => ⟨[], w, u, behind, rfl, isHigh, isLow, rfl⟩⟩
    | w :: v :: front =>
      obtain ⟨rfl, rfl, same⟩ : w = high ∧ v = low ∧ front ++ u :: behind = t := by simpa using eq
      exact ⟨fun isHigh => (((ih same).1 isHigh).cons v).cons w,
        fun isLow => (((ih same).2 isLow).cons v).cons w⟩

/-! ## Characters -/

/-- The offset of a character from the end of the basic plane. -/
theorem toNat_sub_plane {c : Char} (above : ¬ c.val < 0x10000) :
    (c.val - 0x10000).toNat = c.toNat - 0x10000 :=
  UInt32.toNat_sub_of_le _ _ (UInt32.not_lt.1 above)

theorem isHighSurrogate_half {c : Char} (above : ¬ c.val < 0x10000) :
    isHighSurrogate ((0xD800 : UInt32) + ((c.val - 0x10000) >>> 10)).toUInt16 := by
  have valid : c.toNat < 0xD800 ∨ 0xDFFF < c.toNat ∧ c.toNat < 0x110000 := c.valid
  rw [isHighSurrogate_iff, UInt32.toNat_toUInt16, UInt32.toNat_add, UInt32.toNat_shiftRight,
    toNat_sub_plane above]
  simp only [UInt32.reduceToNat, Nat.reducePow, Nat.reduceMod, Nat.shiftRight_eq_div_pow]
  omega

theorem isLowSurrogate_half {c : Char} (above : ¬ c.val < 0x10000) :
    isLowSurrogate ((0xDC00 : UInt32) + ((c.val - 0x10000) &&& 0x3FF)).toUInt16 := by
  have mask := Nat.and_two_pow_sub_one_eq_mod (c.toNat - 0x10000) 10
  rw [isLowSurrogate_iff, UInt32.toNat_toUInt16, UInt32.toNat_add, UInt32.toNat_and,
    toNat_sub_plane above]
  simp only [UInt32.reduceToNat, Nat.reducePow, Nat.add_one_sub_one] at mask ⊢
  omega

/-- The units of a character stand in front of a well-formed text. -/
theorem IsWellFormed.unitsOf_append (rest : IsWellFormed t) (c : Char) :
    IsWellFormed (unitsOf c ++ t) := by
  unfold unitsOf
  split
  next basic =>
    -- no character is a surrogate
    have valid : c.toNat < 0xD800 ∨ 0xDFFF < c.toNat ∧ c.toNat < 0x110000 := c.valid
    have small : c.toNat < 0x10000 := UInt32.lt_iff_toNat_lt.1 basic
    have same : c.val.toUInt16.toNat = c.toNat := by
      rw [UInt32.toNat_toUInt16]
      exact Nat.mod_eq_of_lt small
    refine .unit (Bool.eq_false_iff.2 fun high => ?_) (Bool.eq_false_iff.2 fun low => ?_) rest
    · have := isHighSurrogate_iff.1 high
      omega
    · have := isLowSurrogate_iff.1 low
      omega
  next above => exact .pair (isHighSurrogate_half above) (isLowSurrogate_half above) rest

theorem isWellFormed_ofString (s : String) : IsWellFormed (ofString s) := by
  unfold ofString
  induction s.toList with
  | nil => exact .nil
  | cons c cs ih => exact ih.unitsOf_append c

end Quill.Text
