import Quill.Number.Basic
import Quill.Path.Percent
import Quill.Text.Blank

/-!
# Reading numbers

## Main definitions

* `Number.leading?` — the longest decimal at the start of a text.
* `Number.ofText` — the number that a whole text stands for.
-/

namespace Quill.Number

def isDigit (u : UInt16) : Bool := 48 ≤ u && u ≤ 57

def ofDigits (ds : Text) : Nat := ds.foldl (fun n u => n * 10 + (u.toNat - 48)) 0

def takeSign (t : Text) : Bool × Text :=
  match t with
  | u :: rest =>
    if u = Text.unit '-' then (true, rest)
    else if u = Text.unit '+' then (false, rest)
    else (false, t)
  | [] => (false, [])

def takeFraction (t : Text) : Text × Text :=
  match t with
  | u :: rest =>
    if u = Text.unit '.' then (rest.takeWhile isDigit, rest.dropWhile isDigit) else ([], t)
  | [] => ([], [])

def takeExponent (t : Text) : Int × Text :=
  match t with
  | u :: rest =>
    if u = Text.unit 'e' || u = Text.unit 'E' then
      let (isNegative, body) := takeSign rest
      match body.takeWhile isDigit with
      | [] => (0, t)
      | ds => (if isNegative then -(ofDigits ds : Int) else ofDigits ds, body.dropWhile isDigit)
    else (0, t)
  | [] => (0, [])

def leading? (t : Text) : Option (Number × Text) :=
  let (isNegative, t) := takeSign t
  let whole := t.takeWhile isDigit
  let (fraction, rest) := takeFraction (t.dropWhile isDigit)
  if whole.isEmpty && fraction.isEmpty then none
  else
    let (exponent, rest) := takeExponent rest
    some (.ofDecimal isNegative (ofDigits (whole ++ fraction)) (exponent - fraction.length), rest)

def ofBase (base : Nat) (ds : Text) : Number :=
  let values := ds.map Percent.hexValue?
  if ds.isEmpty || values.any fun v => v.all (base ≤ ·) then .nan
  else .ofNat (values.foldl (fun n v => n * base + v.getD 0) 0)

/-- The base that a letter behind a zero stands for. -/
def base? (u : UInt16) : Option Nat :=
  if u = Text.unit 'x' || u = Text.unit 'X' then some 16
  else if u = Text.unit 'o' || u = Text.unit 'O' then some 8
  else if u = Text.unit 'b' || u = Text.unit 'B' then some 2
  else none

def ofDecimalText (t : Text) : Number :=
  let (isNegative, bare) := takeSign t
  if bare = "Infinity" then .infinity isNegative
  else
    match leading? t with
    | some (n, []) => n
    | _ => .nan

/-- The number that a whole text stands for, blanks around it left out; not-a-number, when it stands
for none. -/
def ofText (t : Text) : Number :=
  match Text.trim t with
  | [] => .zero
  | u :: v :: rest =>
    match if u = 48 then base? v else none with
    | some base => ofBase base rest
    | none => ofDecimalText (u :: v :: rest)
  | t => ofDecimalText t

end Quill.Number
