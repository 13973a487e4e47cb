import Quill.Number.Decimal
import Quill.Path.Percent
import Quill.Value.Json

/-!
# Reading JSON

## Main definitions

* `Json.readString` — a text between quotation marks.
* `Json.read` — a value at the start of a text.
* `Value.ofJson?` — the value that a whole text is the JSON text of.
-/

namespace Quill

namespace Json

def isGap (u : UInt16) : Bool := u = 32 || u = 9 || u = 10 || u = 13

def unit? (a b c d : UInt16) : Option UInt16 := do
  let high ← Percent.octet? a b
  let low ← Percent.octet? c d
  some (high.toUInt16 * 256 + low.toUInt16)

/-- The unit that a letter behind a backslash stands for. -/
def unescape (u : UInt16) : UInt16 :=
  if u = Text.unit 'n' then 10
  else if u = Text.unit 't' then 9
  else if u = Text.unit 'r' then 13
  else if u = Text.unit 'b' then 8
  else if u = Text.unit 'f' then 12
  else u

/-- The units up to the closing quotation mark, and the rest behind it. The units read so far are in
`acc`, the last one first. -/
def readString (acc : Text) : Text → Option (Text × Text)
  | [] => none
  | u :: rest =>
    if u = Text.unit '"' then some (acc.reverse, rest)
    else if u = Text.unit '\\' then
      match rest with
      | v :: a :: b :: c :: d :: tail =>
        if v = Text.unit 'u' then
          match unit? a b c d with
          | some w => readString (w :: acc) tail
          | none => none
        else readString (unescape v :: acc) (a :: b :: c :: d :: tail)
      | v :: tail => readString (unescape v :: acc) tail
      | [] => none
    else readString (u :: acc) rest

def words : List (Text × Value) := [("null", .null), ("true", .bool true), ("false", .bool false)]

/-- A value that starts with no quotation mark or bracket. -/
def readPlain (t : Text) : Option (Value × Text) :=
  match words.find? fun w => t.startsWith w.1 with
  | some (w, v) => some (v, t.drop w.length)
  | none => (Number.leading? t).map fun r => (.number r.1, r.2)

def readName (t : Text) : Option (Text × Text) :=
  match t.dropWhile isGap with
  | u :: rest =>
    if u = Text.unit '"' then
      match readString [] rest with
      | some (name, rest) =>
        match rest.dropWhile isGap with
        | v :: rest => if v = Text.unit ':' then some (name, rest) else none
        | [] => none
      | none => none
    else none
  | [] => none

/-- Whether a list goes on behind an item; the rest is behind the comma or the bracket. -/
def goesOn (bracket : Char) (t : Text) : Option (Bool × Text) :=
  match t.dropWhile isGap with
  | u :: rest =>
    if u = Text.unit ',' then some (true, rest)
    else if u = Text.unit bracket then some (false, rest)
    else none
  | [] => none

mutual
/-- A value at the start of a text, and the rest; `fuel` bounds the number of its parts. -/
def read (fuel : Nat) (t : Text) : Option (Value × Text) :=
  match fuel, t.dropWhile isGap with
  | 0, _ | _, [] => none
  | fuel + 1, u :: rest =>
    if u = Text.unit '"' then (readString [] rest).map fun r => (.text r.1, r.2)
    else if u = Text.unit '[' then
      match goesOn ']' rest with
      | some (false, rest) => some (.array [], rest)
      | _ => (readItems fuel rest).map fun r => (.array r.1, r.2)
    else if u = 0x7b then
      match goesOn '\x7d' rest with
      | some (false, rest) => some (.object [], rest)
      | _ => (readFields fuel rest).map fun r => (.ofFields r.1, r.2)
    else readPlain (u :: rest)

def readItems (fuel : Nat) (t : Text) : Option (List Value × Text) :=
  match fuel with
  | 0 => none
  | fuel + 1 => do
    let (v, rest) ← read fuel t
    match ← goesOn ']' rest with
    | (true, rest) =>
      let (vs, rest) ← readItems fuel rest
      some (v :: vs, rest)
    | (false, rest) => some ([v], rest)

def readFields (fuel : Nat) (t : Text) : Option (List (Text × Value) × Text) :=
  match fuel with
  | 0 => none
  | fuel + 1 => do
    let (name, rest) ← readName t
    let (v, rest) ← read fuel rest
    match ← goesOn '\x7d' rest with
    | (true, rest) =>
      let (fields, rest) ← readFields fuel rest
      some ((name, v) :: fields, rest)
    | (false, rest) => some ([(name, v)], rest)
end

end Json

def Value.ofJson? (t : Text) : Option Value :=
  match Json.read (2 * t.length + 2) t with
  | some (v, rest) => if rest.all Json.isGap then some v else none
  | none => none

example : (Value.ofJson? "[1, \x7b\"a\": \"\\u00e9\\n\"\x7d, null]").bind Value.toJson =
    some ("[1,\x7b\"a\":\"é\\n\"\x7d,null]" : Text) := by decide +kernel

end Quill
