/-!
# Double-precision numbers

A number of the data formats is an IEEE 754 double. It is kept as its exact value: a sign and a
binary significand `mantissa * 2 ^ exponent`, in the one canonical form the format stores, so equal
numbers are equal as data. All arithmetic is exact arithmetic on naturals followed by one rounding.

## Main definitions

* `Number` — a finite double, an infinity or not-a-number.
* `Number.ofRatio` — the double nearest to a quotient, a tie going to the even significand.
* `Number.ofDecimal`, `Number.ofInt` — the double nearest to a decimal or an integer.
* `Number.floor?` — the greatest integer not above a finite number.
* `Number.add`, `Number.sub`, `Number.lt` — sums, differences and comparisons. A finite number is a
  multiple of the least positive one; sums are exact in these units before they are rounded.
-/

namespace Quill

/-- A double. A finite one is `± mantissa * 2 ^ exponent`: either `2 ^ 52 ≤ mantissa < 2 ^ 53`, or
`mantissa < 2 ^ 52` and the exponent is the least one, `-1074`. -/
inductive Number where
  | nan
  | infinity (negative : Bool)
  | finite (negative : Bool) (mantissa : Nat) (exponent : Int)
  deriving DecidableEq, Repr, Inhabited

namespace Number

def minExponent : Int := -1074

def maxExponent : Int := 971

def significandBound : Nat := Nat.pow 2 53

def zero : Number := .finite false 0 minExponent

def bitLength (n : Nat) : Nat := if n = 0 then 0 else n.log2 + 1

/-- The quotient rounded to the nearest integer, a tie going to the even one. -/
def roundQuotient (num den : Nat) : Nat :=
  let q := num / den
  let twice := 2 * (num % den)
  if twice < den then q
  else if den < twice then q + 1
  else if q % 2 = 0 then q else q + 1

/-- The quotient of `num` by `den * 2 ^ exponent`, as a pair of naturals. -/
def scaled (num den : Nat) (exponent : Int) : Nat × Nat :=
  match exponent with
  | .ofNat e => (num, den * Nat.pow 2 e)
  | .negSucc e => (num * Nat.pow 2 (e + 1), den)

/-- The binary exponent at which `num / den` has a significand of 53 digits, or the least one. -/
def exponentOf (num den : Nat) : Int :=
  let estimate : Int := (bitLength num : Int) - bitLength den - 53
  let (n, d) := scaled num den estimate
  let exact := if significandBound * d ≤ n then estimate + 1
    else if n * 2 < significandBound * d then estimate - 1 else estimate
  max exact minExponent

/-- The double nearest to `num / den`, a tie going to the even significand; past the greatest
double it is an infinity. -/
def ofRatio (negative : Bool) (num den : Nat) : Number :=
  if num = 0 then .finite negative 0 minExponent
  else
    let e := exponentOf num den
    let (n, d) := scaled num den e
    let m := roundQuotient n d
    let (m, e) := if m = significandBound then (m / 2, e + 1) else (m, e)
    if maxExponent < e then .infinity negative else .finite negative m e

def ofDecimal (negative : Bool) (digits : Nat) (exponent : Int) : Number :=
  match exponent with
  | .ofNat e => ofRatio negative (digits * Nat.pow 10 e) 1
  | .negSucc e => ofRatio negative digits (Nat.pow 10 (e + 1))

def ofNat (n : Nat) : Number := ofRatio false n 1

def ofInt (n : Int) : Number := ofRatio (n < 0) n.natAbs 1

def isFinite : Number → Bool
  | .finite .. => true
  | _ => false

/-- The absolute value as a quotient of naturals. -/
def magnitude (mantissa : Nat) (exponent : Int) : Nat × Nat :=
  match exponent with
  | .ofNat e => (mantissa * Nat.pow 2 e, 1)
  | .negSucc e => (mantissa, Nat.pow 2 (e + 1))

def floor? : Number → Option Int
  | .finite negative mantissa exponent =>
    let (n, d) := magnitude mantissa exponent
    some (if negative then -(((n + d - 1) / d : Nat) : Int) else ((n / d : Nat) : Int))
  | _ => none

def toInt? : Number → Option Int
  | .finite negative mantissa exponent =>
    let (n, d) := magnitude mantissa exponent
    if n % d = 0 then some (if negative then -((n / d : Nat) : Int) else ((n / d : Nat) : Int))
    else none
  | _ => none

def isNegative : Number → Bool
  | .nan => false
  | .infinity s => s
  | .finite s _ _ => s

def neg : Number → Number
  | .nan => .nan
  | .infinity s => .infinity !s
  | .finite s m e => .finite (!s) m e

@[simp] theorem neg_neg (x : Number) : x.neg.neg = x := by cases x <;> simp [neg]

/-! ## Sums -/

/-- How many times `2 ^ minExponent` goes into a finite number. -/
def units : Number → Int
  | .finite negative mantissa exponent =>
    let n : Int := mantissa * Nat.pow 2 (exponent - minExponent).toNat
    if negative then -n else n
  | _ => 0

def ofUnits (n : Int) : Number := ofRatio (n < 0) n.natAbs (Nat.pow 2 (-minExponent).toNat)

def add : Number → Number → Number
  | .nan, _ | _, .nan => .nan
  | .infinity s, .infinity t => if s = t then .infinity s else .nan
  | .infinity s, .finite .. | .finite .., .infinity s => .infinity s
  | .finite s m e, .finite t k f =>
    let n := units (.finite s m e) + units (.finite t k f)
    if n = 0 then .finite (s && t) 0 minExponent else ofUnits n

def sub (x y : Number) : Number := x.add y.neg

/-- Whether the first double is below the second one; not-a-number is not, and nothing is below
it. -/
def lt : Number → Number → Bool
  | .nan, _ | _, .nan => false
  | .infinity s, .infinity t => s && !t
  | .infinity s, .finite .. => s
  | .finite .., .infinity t => !t
  | .finite s m e, .finite t k f => units (.finite s m e) < units (.finite t k f)

instance : Coe Int Number := ⟨ofInt⟩

example : ofInt 9007199254740993 = ofInt 9007199254740992 ∧
    ofDecimal false 5 (-324) = .finite false 1 (-1074) ∧ ofDecimal false 1 400 = .infinity false ∧
    (ofDecimal false 1 (-1)).add (ofDecimal false 2 (-1)) ≠ ofDecimal false 3 (-1) := by
  decide +kernel

end Number

end Quill
