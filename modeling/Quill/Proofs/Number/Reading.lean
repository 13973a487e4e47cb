import Quill.Number.Decimal
import Quill.Proofs.Number.Shortest

/-!
# Reading back the text of a number

The text of a number is digits with a point or an exponent, so it says where it ends, and what is
read from it are the digits that were chosen. As those lie around the number, reading gives it back.

## Main definitions

* `Number.Closes` — what may stand behind a number.
* `Number.leading?_render` — the text of a number reads back as a number of the same value.
-/

namespace Quill.Number

/-! ### Digits -/

def digitUnit (d : ℕ) : UInt16 := (48 + d).toUInt16

theorem toNat_digitUnit {d : ℕ} (h : d < 10) : (digitUnit d).toNat = 48 + d := by
  rw [digitUnit, Nat.toUInt16_eq, UInt16.toNat_ofNat']
  omega

theorem isDigit_digitUnit {d : ℕ} (h : d < 10) : isDigit (digitUnit d) := by
  have := toNat_digitUnit h
  simp only [isDigit, Bool.and_eq_true, decide_eq_true_eq, UInt16.le_iff_toNat_le, this]
  exact ⟨Nat.le_add_right 48 d, by simpa using (by omega : 48 + d ≤ 57)⟩

theorem unitsOf_digitChar : ∀ d, d < 10 → Text.unitsOf (Nat.digitChar d) = [digitUnit d] := by
  decide

/-- The digits of a number are those of a tenth of it and the last one. -/
theorem ofNat_eq (n : ℕ) :
    Text.ofNat n = if n < 10 then [digitUnit n] else Text.ofNat (n / 10) ++
      [digitUnit (n % 10)] := by
  simp only [Text.ofNat, Text.ofString, Nat.toList_repr]
  rw [Nat.toDigits_eq_if (by norm_num)]
  split
  next small => simp [unitsOf_digitChar n small]
  · simp [unitsOf_digitChar (n % 10) (Nat.mod_lt _ (by norm_num))]

theorem isDigit_of_mem_ofNat {n : ℕ} {u : UInt16} (h : u ∈ Text.ofNat n) : isDigit u := by
  induction n using Nat.strong_induction_on with
  | _ n ih =>
    rw [ofNat_eq] at h
    split at h
    next small =>
      obtain rfl := List.mem_singleton.1 h
      exact isDigit_digitUnit small
    next large =>
      rcases List.mem_append.1 h with h | h
      · exact ih (n / 10) (by omega) h
      · obtain rfl := List.mem_singleton.1 h
        exact isDigit_digitUnit (Nat.mod_lt _ (by norm_num))

theorem ofNat_ne_nil (n : ℕ) : Text.ofNat n ≠ [] := by
  rw [ofNat_eq]
  split <;> simp

theorem ofDigits_append_digit (ds : Text) {d : ℕ} (h : d < 10) :
    ofDigits (ds ++ [digitUnit d]) = ofDigits ds * 10 + d := by
  simp [ofDigits, toNat_digitUnit h]

@[simp] theorem ofDigits_ofNat (n : ℕ) : ofDigits (Text.ofNat n) = n := by
  induction n using Nat.strong_induction_on with
  | _ n ih =>
    rw [ofNat_eq]
    split
    next small => simpa [ofDigits] using ofDigits_append_digit [] small
    next large =>
      rw [ofDigits_append_digit _ (Nat.mod_lt _ (by norm_num)), ih (n / 10) (by omega)]
      omega

theorem ofDigits_append_zeros (ds : Text) (k : ℕ) :
    ofDigits (ds ++ zeros k) = ofDigits ds * 10 ^ k := by
  induction k generalizing ds with
  | zero => simp [zeros]
  | succ k ih =>
    have step : zeros (k + 1) = [digitUnit 0] ++ zeros k := rfl
    rw [step, ← List.append_assoc, ih, ofDigits_append_digit _ (by norm_num)]
    ring

theorem ofDigits_zeros_append (k : ℕ) (ds : Text) : ofDigits (zeros k ++ ds) = ofDigits ds := by
  induction k with
  | zero => rfl
  | succ k ih => rw [← ih]; rfl

theorem isDigit_of_mem_zeros {k : ℕ} {u : UInt16} (h : u ∈ zeros k) : isDigit u := by
  obtain rfl := List.eq_of_mem_replicate h
  rfl

/-! ### The parts of a decimal -/

/-- Whether a text does not go on a number in front of it. -/
def Closes (rest : Text) : Prop :=
  ∀ u ∈ rest.head?, isDigit u = false ∧ u ≠ Text.unit '.' ∧ u ≠ Text.unit 'e' ∧ u ≠ Text.unit 'E'

theorem closes_nil : Closes [] := by rintro u ⟨⟩

theorem closes_cons {u : UInt16}
    (h : isDigit u = false ∧ u ≠ Text.unit '.' ∧ u ≠ Text.unit 'e' ∧ u ≠ Text.unit 'E')
    (rest : Text) :
    Closes (u :: rest) := by
  rintro v ⟨⟩
  exact h

theorem takeWhile_digits {ds rest : Text} (digits : ∀ u ∈ ds, isDigit u)
    (stop : ∀ u ∈ rest.head?, isDigit u = false) : (ds ++ rest).takeWhile isDigit = ds := by
  rw [List.takeWhile_append_of_pos digits]
  cases rest with
  | nil => simp
  | cons u rest => simp [stop u rfl]

theorem dropWhile_digits {ds rest : Text} (digits : ∀ u ∈ ds, isDigit u)
    (stop : ∀ u ∈ rest.head?, isDigit u = false) : (ds ++ rest).dropWhile isDigit = rest := by
  rw [List.dropWhile_append_of_pos digits]
  cases rest with
  | nil => rfl
  | cons u rest => simp [stop u rfl]

theorem takeFraction_point {ds rest : Text} (digits : ∀ u ∈ ds, isDigit u)
    (stop : ∀ u ∈ rest.head?, isDigit u = false) :
    takeFraction (Text.unit '.' :: (ds ++ rest)) = (ds, rest) := by
  simp [takeFraction, takeWhile_digits digits stop, dropWhile_digits digits stop]

theorem takeFraction_none {rest : Text} (stop : ∀ u ∈ rest.head?, u ≠ Text.unit '.') :
    takeFraction rest = ([], rest) := by
  cases rest with
  | nil => rfl
  | cons u rest => simp [takeFraction, stop u rfl]

theorem takeExponent_none
    {rest : Text} (stop : ∀ u ∈ rest.head?, u ≠ Text.unit 'e' ∧ u ≠ Text.unit 'E') :
    takeExponent rest = (0, rest) := by
  cases rest with
  | nil => rfl
  | cons u rest => simp [takeExponent, stop u rfl]

def exponentText (e : ℤ) : Text :=
  layout.exponentMark ++ Text.ofString (if 0 ≤ e then "+" else "-") ++ Text.ofNat e.natAbs

theorem takeExponent_of {body rest : Text}
    {negative : Bool} (sign : takeSign rest = (negative, body)) (ne : body.takeWhile isDigit ≠ []) :
    takeExponent (Text.unit 'e' :: rest) =
      (if negative then -(ofDigits (body.takeWhile isDigit) : ℤ) else ofDigits
        (body.takeWhile isDigit), body.dropWhile isDigit) := by
  simp only [takeExponent, decide_true, Bool.true_or, if_true, sign]

theorem takeExponent_mark {e : ℤ} {rest : Text} (stop : ∀ u ∈ rest.head?, isDigit u = false) :
    takeExponent (exponentText e ++ rest) = (e, rest) := by
  have digits : ∀ u ∈ Text.ofNat e.natAbs, isDigit u := fun u => isDigit_of_mem_ofNat
  have taken := takeWhile_digits digits stop
  have dropped := dropWhile_digits digits stop
  have mark : exponentText e ++ rest =
      Text.unit 'e' :: (if 0 ≤ e then Text.unit '+' else Text.unit '-') ::
        (Text.ofNat e.natAbs ++ rest) := by
    rw [exponentText]
    split <;> rfl
  have sign : takeSign ((if 0 ≤ e then Text.unit '+' else Text.unit '-') ::
      (Text.ofNat e.natAbs ++ rest)) = (!decide (0 ≤ e), Text.ofNat e.natAbs ++ rest) := by
    by_cases h : 0 ≤ e <;> simp only [h, if_true, if_false, decide_true, decide_false] <;> rfl
  have value : (if !decide (0 ≤ e) then -(e.natAbs : ℤ) else e.natAbs) = e := by
    by_cases h : 0 ≤ e
    · rw [decide_eq_true h, if_neg (by simp)]
      omega
    · rw [decide_eq_false h, if_pos (by simp)]
      omega
  rw [mark, takeExponent_of sign (by rw [taken]; exact ofNat_ne_nil _), taken, dropped,
    ofDigits_ofNat, value]

theorem leading?_parts {t whole fraction behind behind' rest : Text} {negative : Bool} {x : ℤ}
    (sign : takeSign t = (negative, whole ++ behind)) (digits : ∀ u ∈ whole, isDigit u)
    (ne : whole ≠ []) (stop : ∀ u ∈ behind.head?, isDigit u = false)
    (point : takeFraction behind = (fraction, behind'))
    (exponent : takeExponent behind' = (x, rest)) :
    leading? t =
      some (ofDecimal negative (ofDigits (whole ++ fraction)) (x - fraction.length), rest) := by
  simp [leading?, sign, takeWhile_digits digits stop, dropWhile_digits digits stop, point, exponent,
    ne]

/-! ### The four layouts -/

section layouts

variable {t d rest : Text} {negative : Bool} {e : ℤ}

theorem leading?_zeros {k : ℕ} (digits : ∀ u ∈ d, isDigit u) (ne : d ≠ []) (closes : Closes rest)
    (sign : takeSign t = (negative, d ++ zeros k ++ rest)) :
    leading? t = some (ofDecimal negative (ofDigits d * 10 ^ k) 0, rest) := by
  have all : ∀ u ∈ d ++ zeros k, isDigit u := fun u hu =>
    (List.mem_append.1 hu).elim (digits u) isDigit_of_mem_zeros
  rw [leading?_parts sign all (by simp [ne]) (fun u hu => (closes u hu).1)
    (takeFraction_none fun u hu => (closes u hu).2.1)
    (takeExponent_none fun u hu => (closes u hu).2.2), List.append_nil, ofDigits_append_zeros]
  rfl

/-- Digits with the point among them or in front of them. -/
theorem leading?_point {whole fraction : Text} (hw : ∀ u ∈ whole, isDigit u)
    (hf : ∀ u ∈ fraction, isDigit u) (ne : whole ≠ []) (closes : Closes rest)
    (sign : takeSign t = (negative, whole ++ "." ++ fraction ++ rest)) :
    leading? t = some (ofDecimal negative (ofDigits (whole ++ fraction)) (-fraction.length),
      rest) := by
  rw [List.append_assoc, List.append_assoc, show ("." : Text) = [Text.unit '.'] from rfl,
    List.singleton_append] at sign
  rw [leading?_parts sign hw ne (by rintro u ⟨⟩; rfl)
    (takeFraction_point hf fun u hu => (closes u hu).1)
    (takeExponent_none fun u hu => (closes u hu).2.2), zero_sub]

theorem leading?_exponent {u : UInt16} (digits : ∀ v ∈ u :: d, isDigit v) (closes : Closes rest)
    (sign : takeSign t =
      (negative, u :: (if d = [] then [] else Text.unit '.' :: d) ++ exponentText e ++ rest)) :
    leading? t = some (ofDecimal negative (ofDigits (u :: d)) (e - d.length), rest) := by
  have exponent : takeExponent (exponentText e ++ rest) = (e, rest) :=
    takeExponent_mark fun u hu => (closes u hu).1
  have first : ∀ v ∈ [u], isDigit v := by simpa using digits u (by simp)
  have mark : ∀ v ∈ (exponentText e ++ rest).head?, isDigit v = false := by
    rintro v ⟨⟩
    rfl
  by_cases empty : d = []
  · subst empty
    rw [if_pos rfl, List.append_assoc] at sign
    have sign : takeSign t = (negative, [u] ++ (exponentText e ++ rest)) := sign
    exact leading?_parts sign first (by simp) mark
      (takeFraction_none (by rintro v ⟨⟩; decide)) exponent
  · rw [if_neg empty, List.append_assoc] at sign
    have sign :
        takeSign t = (negative, [u] ++ (Text.unit '.' :: (d ++ (exponentText e ++ rest)))) := sign
    exact leading?_parts sign first (by simp) (by rintro v ⟨⟩; rfl)
      (takeFraction_point (fun v hv => digits v (by simp [hv])) mark) exponent

/-- Digits that are laid out read back as those digits. -/
theorem leading?_layDigits (digits : ∀ u ∈ d, isDigit u) (ne : d ≠ []) (closes : Closes rest)
    (sign : takeSign t = (negative, layDigits layout d (d.length + e) ++ rest)) :
    ∃ (n : ℕ) (x : ℤ), leading? t = some (ofDecimal negative n x, rest) ∧
      (n : ℚ) * 10 ^ x = ofDigits d * 10 ^ e := by
  have length : 0 < d.length := List.length_pos_iff.2 ne
  simp only [layDigits] at sign
  by_cases whole : (d.length : ℤ) ≤ d.length + e ∧ d.length + e ≤ layout.highest
  · rw [if_pos whole] at sign
    refine ⟨_, _, leading?_zeros digits ne closes sign, ?_⟩
    obtain ⟨k, rfl⟩ := Int.eq_ofNat_of_zero_le (by omega : 0 ≤ e)
    simp
  rw [if_neg whole] at sign
  by_cases mixed : 0 < d.length + e ∧ d.length + e ≤ layout.highest
  · rw [if_pos mixed] at sign
    refine ⟨_, _, leading?_point (fun u hu => digits u (List.mem_of_mem_take hu))
      (fun u hu => digits u (List.mem_of_mem_drop hu)) ?_ closes sign, ?_⟩
    · simp [ne]
      omega
    · rw [List.take_append_drop, List.length_drop]
      congr 2
      omega
  rw [if_neg mixed] at sign
  by_cases fraction : layout.lowest < d.length + e ∧ d.length + e ≤ 0
  · rw [if_pos fraction, show ("0." : Text) = ([48] : Text) ++ ("." : Text) from rfl,
      List.append_assoc ([48] ++ ("." : Text))] at sign
    have zero : ∀ u ∈ ([48] : Text), isDigit u := fun u hu => by rw [List.mem_singleton.1 hu]; rfl
    refine ⟨_, _, leading?_point zero
      (fun u hu => (List.mem_append.1 hu).elim isDigit_of_mem_zeros (digits u))
      (by simp) closes sign, ?_⟩
    have lead : ∀ ds : Text, ofDigits ([48] ++ ds) = ofDigits ds := fun _ => rfl
    rw [lead, ofDigits_zeros_append, List.length_append]
    congr 2
    simp only [zeros, List.length_replicate]
    omega
  · rw [if_neg fraction] at sign
    obtain ⟨u, r, rfl⟩ := List.exists_cons_of_ne_nil ne
    refine ⟨_, _, leading?_exponent digits closes (e := (u :: r).length + e - 1) ?_, ?_⟩
    · rw [sign]
      cases r <;> rfl
    · congr 2
      simp only [List.length_cons]
      omega

/-- Laid out digits begin with a digit. -/
theorem exists_layDigits (digits : ∀ u ∈ d, isDigit u) (ne : d ≠ []) (point : ℤ) :
    ∃ u r, isDigit u ∧ layDigits layout d point = u :: r := by
  obtain ⟨u, r, rfl⟩ := List.exists_cons_of_ne_nil ne
  have first : isDigit u := digits u (by simp)
  simp only [layDigits]
  split_ifs with whole mixed fraction
  · exact ⟨u, _, first, rfl⟩
  · obtain ⟨k, hk⟩ : ∃ k, point.toNat = k + 1 := ⟨point.toNat - 1, by omega⟩
    exact ⟨u, _, first, by rw [hk, List.take_succ_cons]; rfl⟩
  · exact ⟨48, _, rfl, rfl⟩
  all_goals
    cases r with
    | nil => exact ⟨u, _, first, rfl⟩
    | cons v r => exact ⟨u, _, first, rfl⟩

end layouts

/-! ### Numbers -/

theorem takeSign_of_isDigit {u : UInt16} (h : isDigit u) (t : Text) :
    takeSign (u :: t) = (false, u :: t) := by
  have minus : u ≠ Text.unit '-' := by rintro rfl; exact absurd h (by decide)
  have plus : u ≠ Text.unit '+' := by rintro rfl; exact absurd h (by decide)
  rw [takeSign, if_neg minus, if_neg plus]

/-- The text of a double begins with a digit or a minus. -/
theorem exists_render {n : Number} (double : n.IsDouble) :
    ∃ u r, (isDigit u ∨ u = Text.unit '-') ∧ n.render = u :: r := by
  match n, double with
  | .finite s m e, _ =>
    rw [render]
    split
    · exact ⟨48, [], .inl rfl, rfl⟩
    · obtain ⟨u, r, first, eq⟩ := exists_layDigits (fun _ => isDigit_of_mem_ofNat)
        (ofNat_ne_nil (shortest m e).1) ((Text.ofNat (shortest m e).1).length + (shortest m e).2)
      simp only [eq]
      cases s
      · exact ⟨u, r, .inl first, rfl⟩
      · exact ⟨_, _, .inr rfl, rfl⟩

/-- The text of a number reads back as a number of the same value, and nothing behind it is read. -/
theorem leading?_render {n : Number} (double : n.IsDouble) {rest : Text} (closes : Closes rest) :
    ∃ n', leading? (n.render ++ rest) = some (n', rest) ∧ n'.IsDouble ∧ n'.toRat = n.toRat := by
  match n, double with
  | .finite s m e, double =>
    by_cases empty : m = 0
    · subst empty
      have sign : takeSign ((Number.finite s 0 e).render ++ rest) =
          (false, Text.ofNat 0 ++ zeros 0 ++ rest) :=
        rfl
      have read : ofDecimal false (ofDigits (Text.ofNat 0) * 10 ^ 0) 0 = zero := by decide +kernel
      rw [leading?_zeros (fun u => isDigit_of_mem_ofNat) (ofNat_ne_nil 0) closes sign, read]
      exact ⟨zero, rfl, by decide, by simp [toRat, zero]⟩
    · have pos : 0 < m := Nat.pos_of_ne_zero empty
      obtain ⟨positive, near⟩ := near_shortest double pos
      have digits : ∀ u ∈ Text.ofNat (shortest m e).1, isDigit u := fun u => isDigit_of_mem_ofNat
      have sign : takeSign ((Number.finite s m e).render ++ rest) =
          (s, layDigits layout (Text.ofNat (shortest m e).1)
            ((Text.ofNat (shortest m e).1).length + (shortest m e).2) ++ rest) := by
        rw [render, if_neg empty]
        obtain ⟨u, r, first, eq⟩ := exists_layDigits digits (ofNat_ne_nil _)
          ((Text.ofNat (shortest m e).1).length + (shortest m e).2)
        simp only [eq]
        cases s
        · exact takeSign_of_isDigit first _
        · rfl
      obtain ⟨k, x, read, value⟩ := leading?_layDigits digits (ofNat_ne_nil _) closes sign
      rw [ofDigits_ofNat] at value
      have positive' : 0 < k := by
        by_contra none
        rw [Nat.eq_zero_of_not_pos none, Nat.cast_zero, zero_mul] at value
        have : ((shortest m e).1 : ℚ) * 10 ^ (shortest m e).2 ≠ 0 := by positivity
        exact this value.symm
      rw [read, ofDecimal_eq_of_near positive' double (value ▸ near)]
      exact ⟨_, rfl, double, rfl⟩

theorem render_eq_of_toRat_eq {a b : Number} (ha : a.IsDouble) (hb : b.IsDouble)
    (eq : a.toRat = b.toRat) : a.render = b.render := by
  by_cases zero : a.toRat = 0
  · have text {n : Number} (double : n.IsDouble) (zero : n.toRat = 0) : n.render = "0" := by
      match n, double with
      | .finite s m e, _ =>
        have two : (2 : ℚ) ^ e ≠ 0 := by positivity
        have : m = 0 := by cases s <;> simpa [toRat, two] using zero
        rw [render, if_pos this]
    rw [text ha zero, text hb (eq ▸ zero)]
  · rw [eq_of_toRat_eq ha hb zero eq]

end Quill.Number
