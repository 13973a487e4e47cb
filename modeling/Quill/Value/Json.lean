import Quill.Value.Basic
import Quill.Number.Shortest

/-!
# JSON text of a value

## Main definitions

* `Json.quote` — a text between quotation marks, with the escapes JSON asks for.
* `Value.isJson` — whether a value is kept by an object or an array of a JSON text.
* `Value.toJson` — the JSON text. Values without a JSON form are left out of objects and written
  `null` in arrays; a big integer has none at all and refuses the whole text.
-/

namespace Quill.Json

def hexUnit (u : UInt16) : Text := Text.hex [(u >>> 8).toUInt8, u.toUInt8]

/-- How one unit is written inside quotation marks, given the units behind it. Control units and
surrogates without a partner are written by number; `paired` says that the unit before it opened a
pair. -/
def escapeUnit (paired : Bool) (u : UInt16) (behind : Text) : Text :=
  if u == Text.unit '"' then "\\\""
  else if u == Text.unit '\\' then "\\\\"
  else if u == 8 then "\\b"
  else if u == 9 then "\\t"
  else if u == 10 then "\\n"
  else if u == 12 then "\\f"
  else if u == 13 then "\\r"
  else if u < 32 then "\\u" ++ hexUnit u
  else if Text.isHighSurrogate u then
    if (behind.head?.map Text.isLowSurrogate).getD false then [u] else "\\u" ++ hexUnit u
  else if Text.isLowSurrogate u then if paired then [u] else "\\u" ++ hexUnit u
  else [u]

def escape (paired : Bool) : Text → Text
  | [] => []
  | u :: rest => escapeUnit paired u rest ++ escape (Text.isHighSurrogate u) rest

def quote (t : Text) : Text := Text.unit '"' :: escape false t ++ "\""

end Quill.Json

namespace Quill.Value

/-- Whether an object keeps a field with this value in its JSON text. -/
def isJson : Value → Bool
  | .undefined | .symbol _ | .function => false
  | _ => true

mutual
/-- The JSON text of a value; none when a big integer stands in it. A value without a JSON form is
written `null`. -/
def toJson : Value → Option Text
  | .undefined | .null | .symbol _ | .function => some "null"
  | .bool b => some (if b then "true" else "false")
  | .number n => some (if n.isFinite then n.render else "null")
  | .text t => some (Json.quote t)
  | .bigint _ => none
  | .array xs => do
    let parts ← jsonItems xs
    some ("[" ++ Text.join "," parts ++ "]")
  | .object fields => do
    let parts ← jsonFields fields
    some ("\x7b" ++ Text.join "," parts ++ "\x7d")
  | .map _ | .set _ => some "\x7b\x7d"

def jsonItems : List Value → Option (List Text)
  | [] => some []
  | x :: xs => do
    let part ← toJson x
    let parts ← jsonItems xs
    some (part :: parts)

def jsonFields : List (Text × Value) → Option (List Text)
  | [] => some []
  | (k, v) :: rest => do
    if v.isJson then
      let part ← toJson v
      let parts ← jsonFields rest
      some ((Json.quote k ++ ":" ++ part) :: parts)
    else jsonFields rest
end

mutual
def inMessage : Value → Text
  | .undefined => "undefined"
  | .null => "null"
  | .bool b => if b then "true" else "false"
  | .number n => n.render
  | .text t => t
  | .bigint n => Text.ofInt n
  | .symbol name => "Symbol(" ++ name ++ ")"
  | .function => "function"
  | .array xs => Text.join "," (inMessageItems xs)
  | .object _ => "[object Object]"
  | .map _ => "[object Map]"
  | .set _ => "[object Set]"

/-- The texts of the items of an array inside a message; an absent item has none. -/
def inMessageItems : List Value → List Text
  | [] => []
  | .undefined :: xs => [] :: inMessageItems xs
  | .null :: xs => [] :: inMessageItems xs
  | x :: xs => inMessage x :: inMessageItems xs
end

end Quill.Value
