import Quill.Data.Dict
import Quill.Data.Sort
import Quill.Number.Basic
import Quill.Text.Basic

/-!
# Dynamic values

Settings, messages of the protocol, debug data and everything that is fingerprinted arrive as values
whose shape is only known at run time. Besides the JSON values there are the ones a host program may
hand over in debug data: an absent value, big integers, symbols, functions, maps and sets.

## Main definitions

* `Value` — a dynamic value.
* `Value.field?` — the value under a key of an object.
* `Value.show` — the text of a value when it is put into a message.
-/

namespace Quill

/-- A value whose shape is only known at run time. -/
inductive Value where
  | undefined
  | null
  | bool (b : Bool)
  | number (n : Number)
  | text (t : Text)
  | bigint (n : Int)
  | symbol (name : Text)
  | function
  | array (items : List Value)
  | object (fields : List (Text × Value))
  | map (entries : List (Value × Value))
  | set (members : List Value)
  deriving Repr, Inhabited

namespace Value

def str (s : String) : Value := .text s

def int (n : Int) : Value := .number (.ofInt n)

def nat (n : Nat) : Value := .number (.ofNat n)

/-- An object with the fields in the order given; their names are told apart by the caller. -/
def record (fields : List (String × Value)) : Value :=
  .object (fields.map fun f => (Text.ofString f.1, f.2))

def field? (v : Value) (key : Text) : Option Value :=
  match v with
  | .object fields => Dict.get? fields key
  | _ => none

def field (v : Value) (key : Text) : Value := (v.field? key).getD .undefined

def items : Value → List Value
  | .array xs => xs
  | _ => []

def text? : Value → Option Text
  | .text t => some t
  | _ => none

def number? : Value → Option Number
  | .number n => some n
  | _ => none

/-- The number that an array position key stands for: decimal digits without a leading zero, below
`2 ^ 32 - 1`. -/
def indexKey? (key : Text) : Option Nat :=
  let digit (u : UInt16) : Bool := 48 ≤ u && u ≤ 57
  if key.isEmpty || !key.all digit || (key.length > 1 && key.head? == some 48) || key.length > 10
  then none
  else
    let n := key.foldl (fun acc u => acc * 10 + (u.toNat - 48)) 0
    if n < 4294967295 then some n else none

/-- An object with the given fields. A later field of one name wins and keeps the place of the
first; names that are array positions come first, in ascending order. -/
def ofFields (fields : List (Text × Value)) : Value :=
  let d := Dict.ofList fields
  let (indexed, named) := d.partition fun e => (indexKey? e.1).isSome
  .object (sortBy (fun a b => (indexKey? a.1).getD 0 ≤ (indexKey? b.1).getD 0) indexed ++ named)

/-- Whether two values are one key of a map or one member of a set. Not-a-number counts as equal to
itself; collections are never the same. -/
def sameKey : Value → Value → Bool
  | .undefined, .undefined | .null, .null => true
  | .bool a, .bool b => a == b
  | .number a, .number b => a == b || (isZero a && isZero b)
  | .text a, .text b => a == b
  | .bigint a, .bigint b => a == b
  | _, _ => false
where
  /-- A zero of either sign. -/
  isZero : Number → Bool
    | .finite _ m _ => m == 0
    | _ => false

def putEntry (entries : List (Value × Value)) (e : Value × Value) : List (Value × Value) :=
  if entries.any (sameKey ·.1 e.1) then entries.map fun old =>
    if sameKey old.1 e.1 then (old.1, e.2) else old
  else entries ++ [e]

/-- A map with the given entries; a later entry of one key wins and keeps the place of the first. -/
def ofEntries (entries : List (Value × Value)) : Value := .map (entries.foldl putEntry [])

def ofMembers (members : List Value) : Value :=
  .set (members.foldl (fun acc m => if acc.any (sameKey · m) then acc else acc ++ [m]) [])

end Value

end Quill
