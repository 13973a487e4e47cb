import Quill.Number.Basic
import Quill.Text.Basic

/-!
# Shortest decimal text of a number

Printing a number is choosing its digits and laying them out. The digits are the fewest decimal
digits that read back as the same double, and among those the nearest to its value. The layout is
one record of decisions.

## Main definitions

* `Number.shortest` — digits and decimal exponent.
* `DecimalLayout` — when to write positionally and how to write an exponent.
* `Number.render` — the text of a number.
-/

namespace Quill.Number

/-- The decimals that read back as one double: everything between `low` and `high` over `den`, the
ends included when `closed`; `value` is the double itself. -/
structure Neighbourhood where
  low : Nat
  value : Nat
  high : Nat
  den : Nat
  closed : Bool

/-- The neighbourhood of `mantissa * 2 ^ exponent`. Below a power of two the next double is half as
far away. -/
def Neighbourhood.of (mantissa : Nat) (exponent : Int) : Neighbourhood :=
  let below := if mantissa = Nat.pow 2 52 ∧ minExponent < exponent then 1 else 2
  match exponent - 2 with
  | .ofNat e =>
    let unit := Nat.pow 2 e
    ⟨(4 * mantissa - below) * unit, 4 * mantissa * unit, (4 * mantissa + 2) * unit, 1,
      mantissa % 2 = 0⟩
  | .negSucc e =>
    ⟨4 * mantissa - below, 4 * mantissa, 4 * mantissa + 2, Nat.pow 2 (e + 1), mantissa % 2 = 0⟩

def Neighbourhood.inSteps (n : Neighbourhood) (exponent : Int) : Neighbourhood :=
  match exponent with
  | .ofNat e => { n with den := n.den * Nat.pow 10 e }
  | .negSucc e =>
    let f := Nat.pow 10 (e + 1)
    { n with low := n.low * f, value := n.value * f, high := n.high * f }

def Neighbourhood.holds (n : Neighbourhood) (q : Nat) : Bool :=
  let x := q * n.den
  if n.closed then n.low ≤ x && x ≤ n.high else n.low < x && x < n.high

/-- The integer of the neighbourhood next to its value: of two the nearer one, at a tie the even
one. -/
def Neighbourhood.nearest? (n : Neighbourhood) : Option Nat :=
  let q := n.value / n.den
  match n.holds q, n.holds (q + 1) with
  | true, true =>
    let twice := 2 * (n.value % n.den)
    some (if twice < n.den then q else if n.den < twice then q + 1 else if q % 2 = 0 then q else q +
      1)
  | true, false => some q
  | false, true => some (q + 1)
  | false, false => none

/-- The number of decimal digits before the point of `num / den`, negative for leading zeros behind
it: the least `e` with `num / den < 10 ^ e`. The search starts from an estimate by binary digits. -/
def decimalExponent (num den : Nat) : Int :=
  let estimate : Int := ((bitLength num : Int) - bitLength den - 1) * 30103 / 100000 - 1
  climb 4 estimate
where
  /-- Whether `num / den < 10 ^ e`. -/
  below (e : Int) : Bool :=
    match e with
    | .ofNat e => num < den * Nat.pow 10 e
    | .negSucc e => num * Nat.pow 10 (e + 1) < den
  /-- Step up until the power is above the quotient. -/
  climb : Nat → Int → Int
    | 0, e => e
    | k + 1, e => if below e then e else climb k (e + 1)

/-- Try the grids of `k`, `k + 1`, … digits; `fuel` bounds the tries. -/
def search (n : Neighbourhood) (top : Int) : Nat → Nat → Option (Nat × Int)
  | 0, _ => none
  | fuel + 1, k =>
    let e := top - k
    match (n.inSteps e).nearest? with
    | some q => if q = 0 then search n top fuel (k + 1) else some (q, e)
    | none => search n top fuel (k + 1)

def stripZeros : Nat → Nat → Int → Nat × Int
  | 0, digits, e => (digits, e)
  | fuel + 1, digits, e => if digits % 10 = 0 then stripZeros fuel (digits / 10) (e + 1)
    else (digits, e)

/-- The fewest digits that read back as `mantissa * 2 ^ exponent`, with their decimal exponent.
Seventeen digits always suffice. -/
def shortest (mantissa : Nat) (exponent : Int) : Nat × Int :=
  let n := Neighbourhood.of mantissa exponent
  let top := decimalExponent n.value n.den
  match search n top 17 1 with
  | some (digits, e) => stripZeros 17 digits e
  | none => (mantissa, exponent)

end Quill.Number

namespace Quill

/-- How digits become text. With `point` the place of the decimal point counted from the first
digit, the digits are written positionally when `lowest < point ≤ highest`. -/
structure DecimalLayout where
  lowest : Int
  highest : Int
  exponentMark : Text
  nanText : Text
  infinityText : Text

/-- Numbers are written positionally from a millionth up to twenty-one digits before the point, and
with a signed exponent otherwise. -/
def Number.layout : DecimalLayout where
  lowest := -6
  highest := 21
  exponentMark := "e"
  nanText := "NaN"
  infinityText := "Infinity"

namespace Number

def zeros (n : Nat) : Text := List.replicate n (Text.unit '0')

def layDigits (l : DecimalLayout) (d : Text) (point : Int) : Text :=
  let count : Int := d.length
  if count ≤ point ∧ point ≤ l.highest then d ++ zeros (point - count).toNat
  else if 0 < point ∧ point ≤ l.highest then
    d.take point.toNat ++ "." ++ d.drop point.toNat
  else if l.lowest < point ∧ point ≤ 0 then "0." ++ zeros (-point).toNat ++ d
  else
    let e := point - 1
    let exponent : Text := l.exponentMark ++ (if 0 ≤ e then "+" else "-") ++ Text.ofNat e.natAbs
    match d with
    | [] => exponent
    | [u] => u :: exponent
    | u :: rest => u :: Text.unit '.' :: rest ++ exponent

def render : Number → Text
  | .nan => layout.nanText
  | .infinity negative => (if negative then ("-" : Text) else []) ++ layout.infinityText
  | .finite negative mantissa exponent =>
    if mantissa = 0 then "0"
    else
      let (digits, e) := shortest mantissa exponent
      let d := Text.ofNat digits
      (if negative then ("-" : Text) else []) ++ layDigits layout d (d.length + e)

example : (ofDecimal false 1 21).render = "1e+21" ∧ (ofDecimal false 1 (-7)).render = "1e-7" ∧
    (ofDecimal false 1 20).render = "100000000000000000000" ∧
    (ofDecimal true 125 (-8)).render = "-0.00000125" ∧ (ofDecimal false 3 (-1)).render = "0.3" ∧
    (ofDecimal false 5 (-324)).render = "5e-324" := by
  decide +kernel

end Number

end Quill
