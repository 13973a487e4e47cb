import Quill.Path.Percent
import Quill.Proofs.Text.Surrogates

/-!
# Percent escapes, there and back

The octets of characters read as the same characters, and so do their escapes. What cannot come back
is a surrogate without its partner: it has no octets of its own and is written as U+FFFD.

## Main definitions

* `Percent.piece` — how one octet is written, and `Percent.high` and `Percent.low`, the digits of
  its escape.

## Main statements

* `Text.IsWellFormed.repaired` — in a well-formed text nothing is replaced.
* `Utf8.decode?_flatMap` — the octets of characters read as their text.
* `Percent.decode?_encode` — the escapes of a text read as the repaired text.
-/

namespace Quill

/-! ## Characters of a text -/

namespace Text

variable {t : Text} {u v : UInt16} {c : Char}

theorem toNat_charOfNat {n : Nat} (valid : n.isValidChar) : (Char.ofNat n).val.toNat = n := by
  rw [Char.ofNat, dif_pos valid]
  rfl

theorem not_isHighSurrogate_iff :
    isHighSurrogate u = false ↔ ¬ (0xD800 ≤ u.toNat ∧ u.toNat ≤ 0xDBFF) := by
  rw [← isHighSurrogate_iff, Bool.not_eq_true]

theorem not_isLowSurrogate_iff :
    isLowSurrogate u = false ↔ ¬ (0xDC00 ≤ u.toNat ∧ u.toNat ≤ 0xDFFF) := by
  rw [← isLowSurrogate_iff, Bool.not_eq_true]

theorem toNat_ofNat (high : isHighSurrogate u = false) (low : isLowSurrogate u = false) :
    (Char.ofNat u.toNat).val.toNat = u.toNat := by
  have bound := u.toNat_lt
  rw [not_isHighSurrogate_iff] at high
  rw [not_isLowSurrogate_iff] at low
  exact toNat_charOfNat (by unfold Nat.isValidChar; omega)

theorem toUInt16_ofNat (high : isHighSurrogate u = false) (low : isLowSurrogate u = false) :
    (Char.ofNat u.toNat).val.toUInt16 = u := by
  rw [← UInt16.toNat_inj, UInt32.toNat_toUInt16, toNat_ofNat high low]
  exact Nat.mod_eq_of_lt u.toNat_lt

/-- The unit of a character of the basic plane. -/
theorem unitsOf_ofNat (high : isHighSurrogate u = false) (low : isLowSurrogate u = false) :
    unitsOf (Char.ofNat u.toNat) = [u] := by
  have basic : (Char.ofNat u.toNat).val < 0x10000 := by
    rw [UInt32.lt_iff_toNat_lt, toNat_ofNat high low]
    exact u.toNat_lt
  rw [unitsOf, if_pos basic, toUInt16_ofNat high low]

theorem toNat_ofPair (isHigh : isHighSurrogate u) (isLow : isLowSurrogate v) :
    (ofPair u v).val.toNat = 0x10000 + (u.toNat - 0xD800) * 0x400 + (v.toNat - 0xDC00) := by
  rw [isHighSurrogate_iff] at isHigh
  rw [isLowSurrogate_iff] at isLow
  exact toNat_charOfNat (by unfold Nat.isValidChar; omega)

/-- The units of a character above the basic plane. -/
theorem unitsOf_ofPair (isHigh : isHighSurrogate u) (isLow : isLowSurrogate v) :
    unitsOf (ofPair u v) = [u, v] := by
  have code : (ofPair u v).toNat = _ := toNat_ofPair isHigh isLow
  rw [isHighSurrogate_iff] at isHigh
  rw [isLowSurrogate_iff] at isLow
  have above : ¬ (ofPair u v).val < 0x10000 := by
    rw [UInt32.lt_iff_toNat_lt]
    change ¬ (ofPair u v).toNat < 65536
    omega
  have first : ((0xD800 : UInt32) + ((ofPair u v).val - 0x10000) >>> 10).toUInt16 = u := by
    rw [← UInt16.toNat_inj, UInt32.toNat_toUInt16, UInt32.toNat_add, UInt32.toNat_shiftRight,
      toNat_sub_plane above, code]
    simp only [UInt32.reduceToNat, Nat.reducePow, Nat.reduceMod, Nat.shiftRight_eq_div_pow]
    omega
  have second : ((0xDC00 : UInt32) + (((ofPair u v).val - 0x10000) &&& 0x3FF)).toUInt16 = v := by
    have mask := Nat.and_two_pow_sub_one_eq_mod ((ofPair u v).toNat - 0x10000) 10
    rw [← UInt16.toNat_inj, UInt32.toNat_toUInt16, UInt32.toNat_add, UInt32.toNat_and,
      toNat_sub_plane above]
    simp only [UInt32.reduceToNat, Nat.reducePow, Nat.add_one_sub_one] at mask ⊢
    omega
  rw [unitsOf, if_neg above]
  dsimp only
  rw [first, second]

theorem chars_cons (high : isHighSurrogate u = false) (low : isLowSurrogate u = false) (t : Text) :
    chars (u :: t) = Char.ofNat u.toNat :: chars t := by
  cases t <;> simp [chars, high, low]

/-- The characters in front of a unit that ends no pair are read by themselves. -/
theorem chars_append_cons (low : isLowSurrogate u = false) (a b : Text) :
    chars (a ++ u :: b) = chars a ++ chars (u :: b) := by
  fun_induction chars a with
  | case1 => rfl
  | case2 v =>
    rw [List.singleton_append, chars.eq_def]
    grind
  | case3 v w rest isHigh isLow ih => simp_all [chars]
  | case4 v w rest isHigh notLow ih => simp_all [chars]
  | case5 v w rest notHigh isLow ih => simp_all [chars]
  | case6 v w rest notHigh notLow ih => simp_all [chars]

/-- A character of ASCII is a unit of the text. -/
theorem mem_of_mem_chars (mem : c ∈ chars t) (ascii : c.val.toNat < 0x80) : c.val.toUInt16 ∈ t := by
  have replaced : c ≠ '\uFFFD' := fun eq => by
    rw [eq] at ascii
    exact absurd ascii (by decide)
  have unit {u : UInt16} (high : isHighSurrogate u = false) (low : isLowSurrogate u = false)
      (eq : c = Char.ofNat u.toNat) : c.val.toUInt16 = u := by
    rw [eq]
    exact toUInt16_ofNat high low
  fun_induction chars t with
  | case1 => simp at mem
  | case2 u => grind
  | case3 u v rest isHigh isLow ih =>
    have above := toNat_ofPair isHigh isLow
    grind
  | case4 u v rest isHigh notLow ih => grind
  | case5 u v rest notHigh isLow ih => grind
  | case6 u v rest notHigh notLow ih => grind

theorem ofChars_cons (c : Char) (cs : List Char) : ofChars (c :: cs) = unitsOf c ++ ofChars cs :=
  rfl

theorem ofChars_append (cs ds : List Char) : ofChars (cs ++ ds) = ofChars cs ++ ofChars ds :=
  List.flatMap_append

theorem isWellFormed_repaired (t : Text) : IsWellFormed t.repaired := by
  unfold repaired ofChars
  induction t.chars with
  | nil => exact .nil
  | cons c cs ih => exact ih.unitsOf_append c

/-- In a well-formed text nothing is replaced. -/
theorem IsWellFormed.repaired (wellFormed : IsWellFormed t) : t.repaired = t := by
  induction wellFormed with
  | nil => rfl
  | unit high low rest ih =>
    rw [Text.repaired, chars_cons high low, ofChars_cons, unitsOf_ofNat high low, ← Text.repaired,
      ih, List.singleton_append]
  | pair isHigh isLow rest ih =>
    rw [Text.repaired, chars, if_pos isHigh, if_pos isLow, ofChars_cons,
      unitsOf_ofPair isHigh isLow, ← Text.repaired, ih]
    rfl

theorem isWellFormed_of_ascii (ascii : ∀ u ∈ t, u < 0x80) : IsWellFormed t := by
  induction t with
  | nil => exact .nil
  | cons u t ih =>
    have small : u.toNat < 0x80 := UInt16.lt_iff_toNat_lt.1 (ascii u (.head _))
    exact .unit (not_isHighSurrogate_iff.2 (by omega)) (not_isLowSurrogate_iff.2 (by omega))
      (ih fun v mem => ascii v (.tail u mem))

/-- Where nothing was replaced, every surrogate has its partner. -/
theorem isWellFormed_of_chars (kept : '\uFFFD' ∉ chars t) : IsWellFormed t := by
  fun_induction chars t with
  | case1 => exact .nil
  | case2 u =>
    split at kept
    · simp at kept
    next none =>
      rw [Bool.or_eq_true, not_or, Bool.not_eq_true, Bool.not_eq_true] at none
      exact .unit none.1 none.2 .nil
  | case3 u v rest isHigh isLow ih => exact .pair isHigh isLow (ih fun mem => kept (.tail _ mem))
  | case4 u v rest isHigh notLow ih => simp at kept
  | case5 u v rest notHigh isLow ih => simp at kept
  | case6 u v rest notHigh notLow ih =>
    exact .unit (by simpa using notHigh) (by simpa using notLow) (ih fun mem => kept (.tail _ mem))

theorem eq_of_repaired_eq {s : Text} (eq : t.repaired = s) (clean : 0xFFFD ∉ s) : t = s := by
  rw [← eq, (isWellFormed_of_chars fun mem => clean ?_).repaired]
  rw [← eq]
  exact List.mem_flatMap.2 ⟨_, mem, by decide⟩

theorem length_repaired (t : Text) : t.repaired.length = t.length := by
  have replaced : unitsOf '\uFFFD' = [0xFFFD] := by decide
  unfold repaired
  fun_induction chars t with
  | case1 => rfl
  | case2 u =>
    split
    · rfl
    next none =>
      rw [Bool.or_eq_true, not_or, Bool.not_eq_true, Bool.not_eq_true] at none
      rw [ofChars_cons, unitsOf_ofNat none.1 none.2]
      rfl
  | case3 u v rest isHigh isLow ih => simp [ofChars_cons, unitsOf_ofPair isHigh isLow, ih]
  | case4 u v rest isHigh notLow ih => simp [ofChars_cons, replaced, ih]
  | case5 u v rest notHigh isLow ih => simp [ofChars_cons, replaced, ih]
  | case6 u v rest notHigh notLow ih =>
    simp [ofChars_cons, unitsOf_ofNat (Bool.eq_false_iff.2 notHigh) (Bool.eq_false_iff.2 notLow),
      ih]

theorem mem_of_mem_repaired (mem : u ∈ t.repaired) (ascii : u.toNat < 0x80) : u ∈ t := by
  obtain ⟨c, inside, mem⟩ := List.mem_flatMap.1 mem
  unfold unitsOf at mem
  split at mem
  next basic =>
    obtain rfl := List.mem_singleton.1 mem
    have small : c.val.toNat < 0x10000 := UInt32.lt_iff_toNat_lt.1 basic
    rw [UInt32.toNat_toUInt16, Nat.mod_eq_of_lt small] at ascii
    exact mem_of_mem_chars inside ascii
  next above =>
    have high := isHighSurrogate_iff.1 (isHighSurrogate_half above)
    have low := isLowSurrogate_iff.1 (isLowSurrogate_half above)
    simp only [List.mem_cons, List.not_mem_nil, or_false] at mem
    rcases mem with rfl | rfl <;> omega

theorem repaired_append_cons (high : isHighSurrogate u = false) (low : isLowSurrogate u = false)
    (a b : Text) :
    repaired (a ++ u :: b) = repaired a ++ u :: repaired b := by
  rw [repaired, chars_append_cons low, ofChars_append, chars_cons high low, ofChars_cons,
    unitsOf_ofNat high low]
  rfl

end Text

/-! ## Octets -/

namespace Utf8

variable {n : Nat} {rest : List UInt8} {o : UInt8} {c : Char}

theorem toNat_ofNat_of_lt (small : n < 256) : (UInt8.ofNat n).toNat = n := by
  rw [UInt8.toNat_ofNat', Nat.mod_eq_of_lt small]

theorem isTail_ofNat (n : Nat) : isTail (UInt8.ofNat (n % 64 + 128)) := by
  simp only [isTail, UInt8.le_iff_toNat_le, Bool.and_eq_true, decide_eq_true_eq, UInt8.reduceToNat,
    toNat_ofNat_of_lt (show n % 64 + 128 < 256 by omega)]
  omega

theorem tailBits_ofNat (n : Nat) : tailBits (UInt8.ofNat (n % 64 + 128)) = n % 64 := by
  rw [tailBits, toNat_ofNat_of_lt (by omega)]
  omega

theorem chars?_one (small : n ≤ 0x7F) :
    chars? (UInt8.ofNat n :: rest) = (chars? rest).map (Char.ofNat n :: ·) := by
  have lead := toNat_ofNat_of_lt (n := n) (by omega)
  rw [chars?.eq_def]
  simp only [UInt8.lt_iff_toNat_lt, lead, UInt8.reduceToNat]
  rw [if_pos (by omega)]

theorem chars?_two (large : 0x7F < n) (small : n ≤ 0x7FF) :
    chars? (UInt8.ofNat (n / 64 % 32 + 192) :: UInt8.ofNat (n % 64 + 128) :: rest) =
      (chars? rest).map (Char.ofNat n :: ·) := by
  have lead := toNat_ofNat_of_lt (n := n / 64 % 32 + 192) (by omega)
  have code : (n / 64 % 32 + 192) % 32 * 64 + n % 64 = n := by omega
  rw [chars?.eq_def]
  simp only [UInt8.lt_iff_toNat_lt, UInt8.le_iff_toNat_le, lead, isTail_ofNat, tailBits_ofNat,
    UInt8.reduceToNat, code]
  rw [if_neg (by omega),
    if_pos (by simp only [Bool.and_true, Bool.and_eq_true, decide_eq_true_eq]; omega)]

theorem chars?_three (large : 0x7FF < n) (small : n ≤ 0xFFFF) (scalar : n < 0xD800 ∨ 0xDFFF < n) :
    chars? (UInt8.ofNat (n / 4096 % 16 + 224) :: UInt8.ofNat (n / 64 % 64 + 128) ::
      UInt8.ofNat (n % 64 + 128) ::
      rest) = (chars? rest).map (Char.ofNat n :: ·) := by
  have lead := toNat_ofNat_of_lt (n := n / 4096 % 16 + 224) (by omega)
  have code : (n / 4096 % 16 + 224) % 16 * 4096 + n / 64 % 64 * 64 + n % 64 = n := by omega
  rw [chars?.eq_def]
  simp only [UInt8.lt_iff_toNat_lt, UInt8.le_iff_toNat_le, lead, isTail_ofNat, tailBits_ofNat,
    UInt8.reduceToNat, code]
  rw [if_neg (by omega),
    if_neg (by simp only [Bool.and_true, Bool.and_eq_true, decide_eq_true_eq]; omega),
    if_pos (by simp only [Bool.and_true, Bool.and_eq_true, Bool.not_eq_true', Bool.and_eq_false_iff,
      decide_eq_true_eq, decide_eq_false_iff_not]; omega)]

theorem chars?_four (large : 0xFFFF < n) (small : n < 0x110000) :
    chars? (UInt8.ofNat (n / 262144 % 8 + 240) :: UInt8.ofNat (n / 4096 % 64 + 128) ::
      UInt8.ofNat (n / 64 % 64 + 128) ::
      UInt8.ofNat (n % 64 + 128) :: rest) = (chars? rest).map (Char.ofNat n :: ·) := by
  have lead := toNat_ofNat_of_lt (n := n / 262144 % 8 + 240) (by omega)
  have code : (n / 262144 % 8 + 240) % 8 * 262144 + n / 4096 % 64 * 4096 + n / 64 % 64 * 64 +
      n % 64 = n := by omega
  rw [chars?.eq_def]
  simp only [UInt8.lt_iff_toNat_lt, UInt8.le_iff_toNat_le, lead, isTail_ofNat, tailBits_ofNat,
    UInt8.reduceToNat, code]
  rw [if_neg (by omega),
    if_neg (by simp only [Bool.and_true, Bool.and_eq_true, decide_eq_true_eq]; omega),
    if_neg (by simp only [Bool.and_true, Bool.and_eq_true, decide_eq_true_eq]; omega),
    if_pos (by simp only [Bool.and_true, Bool.and_eq_true, decide_eq_true_eq]; omega)]

/-- The octets of a character read as it, whatever follows. -/
theorem chars?_utf8EncodeChar_append (c : Char) (rest : List UInt8) :
    chars? (String.utf8EncodeChar c ++ rest) = (chars? rest).map (c :: ·) := by
  have valid : c.val.toNat < 0xD800 ∨ 0xDFFF < c.val.toNat ∧ c.val.toNat < 0x110000 := c.valid
  have code : Char.ofNat c.val.toNat = c := Char.ofNat_toNat c
  unfold String.utf8EncodeChar
  dsimp only
  split
  next one => simpa [code] using chars?_one one
  next one =>
    split
    next two => simpa [code] using chars?_two (Nat.lt_of_not_le one) two
    next two =>
      split
      next three => simpa [code] using chars?_three (Nat.lt_of_not_le two) three (by omega)
      next three => simpa [code] using chars?_four (Nat.lt_of_not_le three) (by omega)

theorem chars?_flatMap (cs : List Char) : chars? (cs.flatMap String.utf8EncodeChar) = some cs := by
  induction cs with
  | nil => rfl
  | cons c cs ih => rw [List.flatMap_cons, chars?_utf8EncodeChar_append, ih, Option.map_some]

/-- The octets of characters read as their text. -/
theorem decode?_flatMap (cs : List Char) :
    decode? (cs.flatMap String.utf8EncodeChar) = some (Text.ofChars cs) := by
  rw [decode?, chars?_flatMap, Option.map_some]

/-- A character of ASCII is one octet, and no other character has an octet of ASCII. -/
theorem utf8EncodeChar_cases (c : Char) :
    (c.val.toNat < 0x80 ∧ String.utf8EncodeChar c = [UInt8.ofNat c.val.toNat]) ∨
      ∀ o ∈ String.utf8EncodeChar c, 0x80 ≤ o := by
  have tail (n k : Nat) (bound : n + k < 256) (large : 128 ≤ k) : 0x80 ≤ UInt8.ofNat (n + k) := by
    rw [UInt8.le_iff_toNat_le, toNat_ofNat_of_lt bound]
    exact Nat.le_add_left_of_le large
  unfold String.utf8EncodeChar
  dsimp only
  split
  next one => exact .inl ⟨Nat.lt_succ_of_le one, rfl⟩
  next one =>
    refine .inr fun o mem => ?_
    split at mem
    · simp only [List.mem_cons, List.not_mem_nil, or_false] at mem
      rcases mem with rfl | rfl <;> exact tail _ _ (by omega) (by decide)
    · split at mem
      · simp only [List.mem_cons, List.not_mem_nil, or_false] at mem
        rcases mem with rfl | rfl | rfl <;> exact tail _ _ (by omega) (by decide)
      · simp only [List.mem_cons, List.not_mem_nil, or_false] at mem
        rcases mem with rfl | rfl | rfl | rfl <;> exact tail _ _ (by omega) (by decide)

theorem unitsOf_of_octet (eq : String.utf8EncodeChar c = [o]) (ascii : o < 0x80) :
    Text.unitsOf c = [o.toUInt16] := by
  obtain ⟨small, eq'⟩ | large := utf8EncodeChar_cases c
  · obtain rfl : UInt8.ofNat c.val.toNat = o := by simpa [eq] using eq'.symm
    have basic : c.val < 0x10000 := UInt32.lt_iff_toNat_lt.2 (Nat.lt_trans small (by decide))
    rw [Text.unitsOf, if_pos basic, List.cons.injEq, ← UInt16.toNat_inj, UInt32.toNat_toUInt16,
      UInt8.toNat_toUInt16, toNat_ofNat_of_lt (by omega)]
    exact ⟨Nat.mod_eq_of_lt (by omega), rfl⟩
  · exact absurd (large o (by simp [eq])) (UInt8.not_le.2 ascii)

theorem mem_of_mem_utf8 {t : Text} (mem : o ∈ t.utf8) (ascii : o < 0x80) : o.toUInt16 ∈ t := by
  obtain ⟨c, mem, inside⟩ := List.mem_flatMap.1 mem
  obtain ⟨small, eq⟩ | large := utf8EncodeChar_cases c
  · have unit := Text.mem_of_mem_chars mem small
    have one : String.utf8EncodeChar c = [o] := by
      rw [eq] at inside ⊢; rw [List.mem_singleton.1 inside]
    have units := unitsOf_of_octet one ascii
    have basic : c.val < 0x10000 := UInt32.lt_iff_toNat_lt.2 (Nat.lt_trans small (by decide))
    rw [Text.unitsOf, if_pos basic] at units
    rwa [← (List.cons.inj units).1]
  · exact absurd (large o inside) (UInt8.not_le.2 ascii)

end Utf8

/-! ## Escapes -/

namespace Percent

variable {plain : UInt8 → Bool} {t : Text} {u : UInt16} {o : UInt8} {run : List UInt8} {c : Char}

def piece (plain : UInt8 → Bool) (o : UInt8) : Text := if plain o then [o.toUInt16] else escape o

theorem encode_eq_flatMap (plain : UInt8 → Bool) (t : Text) :
    encode plain t = t.utf8.flatMap (piece plain) := rfl

/-- What holds for all pairs of hexadecimal digits holds of all octets. -/
theorem forall_octet {P : UInt8 → Prop} (all : ∀ a < 16, ∀ b < 16, P (UInt8.ofNat (16 * a + b)))
    (o : UInt8) : P o := by
  have small := o.toNat_lt
  have digits := all (o.toNat / 16) (by omega) (o.toNat % 16) (by omega)
  rwa [Nat.div_add_mod, UInt8.ofNat_toNat] at digits

def high (o : UInt8) : UInt16 := escape.upper (Text.hex.digit (o.toNat / 16))

def low (o : UInt8) : UInt16 := escape.upper (Text.hex.digit (o.toNat % 16))

theorem escape_eq (o : UInt8) : escape o = [sign, high o, low o] := rfl

theorem octet?_high_low (o : UInt8) : octet? (high o) (low o) = some o :=
  forall_octet (P := fun o => octet? (high o) (low o) = some o) (by decide +kernel) o

theorem decodeAux_cons (other : u ≠ sign) (run : List UInt8) (t : Text) :
    decodeAux run (u :: t) = (decodeAux [] t).bind fun tail => flush run (u :: tail) := by
  rw [decodeAux.eq_def]
  grind

theorem decodeAux_escape_append (o : UInt8) (run : List UInt8) (t : Text) :
    decodeAux run (escape o ++ t) = decodeAux (o :: run) t := by
  simp [escape_eq, decodeAux, octet?_high_low]

theorem decodeAux_escapes_append (os run : List UInt8) (t : Text) :
    decodeAux run (os.flatMap escape ++ t) = decodeAux (os.reverse ++ run) t := by
  induction os generalizing run with
  | nil => rfl
  | cons o os ih =>
    rw [List.flatMap_cons, List.append_assoc, decodeAux_escape_append, ih, List.reverse_cons,
      List.append_assoc, List.singleton_append]

/-- Decoding keeps a first unit that is not the sign. -/
theorem decode?_cons (other : u ≠ sign) (t : Text) :
    decode? (u :: t) = (decode? t).map (u :: ·) := by
  rw [decode?, decodeAux_cons other, decode?]
  cases decodeAux [] t with
  | none => rfl
  | some tail => rfl

theorem flush_octets (cs : List Char) (rest : Text) :
    flush (cs.flatMap String.utf8EncodeChar).reverse rest = some (Text.ofChars cs ++ rest) := by
  rw [flush, List.reverse_reverse, Utf8.decode?_flatMap, Option.map_some]

section

-- The octets that stand for themselves are of ASCII, and none is the sign.
variable (ascii : ∀ o, plain o → o < 0x80 ∧ o.toUInt16 ≠ sign)
include ascii

theorem decodeAux_octets (ds cs : List Char) :
    decodeAux (ds.flatMap String.utf8EncodeChar).reverse
      ((cs.flatMap String.utf8EncodeChar).flatMap (piece plain)) =
      some (Text.ofChars (ds ++ cs)) := by
  induction cs generalizing ds with
  | nil => simpa [decodeAux] using flush_octets ds []
  | cons c cs ih =>
    rw [List.flatMap_cons, List.flatMap_append]
    by_cases itself : ∃ o, plain o ∧ String.utf8EncodeChar c = [o]
    · -- The run ends here.
      obtain ⟨o, stands, eq⟩ := itself
      have unit : Text.unitsOf c = [o.toUInt16] := Utf8.unitsOf_of_octet eq (ascii o stands).1
      rw [eq, List.flatMap_singleton, piece, if_pos stands, List.singleton_append,
        decodeAux_cons (ascii o stands).2]
      have rest := ih []
      simp only [List.flatMap_nil, List.reverse_nil, List.nil_append] at rest
      rw [rest, Option.bind_some, flush_octets, Text.ofChars_append, Text.ofChars_cons, unit]
      rfl
    · have escaped : ∀ o ∈ String.utf8EncodeChar c, piece plain o = escape o := fun o mem => by
        refine if_neg fun stands => itself ⟨o, stands, ?_⟩
        obtain ⟨-, eq⟩ | large := Utf8.utf8EncodeChar_cases c
        · rw [eq] at mem ⊢
          rw [List.mem_singleton.1 mem]
        · exact absurd (large o mem) (UInt8.not_le.2 (ascii o stands).1)
      have spelled : (String.utf8EncodeChar c).flatMap (piece plain) =
          (String.utf8EncodeChar c).flatMap escape := by
        rw [List.flatMap_def, List.map_congr_left escaped, ← List.flatMap_def]
      rw [spelled, decodeAux_escapes_append, ← List.reverse_append]
      simpa using ih (ds ++ [c])

/-- The escapes of a text read as the repaired text. -/
theorem decode?_encode (t : Text) : decode? (encode plain t) = some t.repaired :=
  decodeAux_octets ascii [] t.chars

end

end Percent

end Quill
