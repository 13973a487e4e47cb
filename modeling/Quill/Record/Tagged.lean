import Quill.Number.Decimal
import Quill.Record.Basic

/-!
# Tagged data

JSON has no absent value, no big integers, symbols, functions, maps and sets, and no numbers beside
the finite ones. Tagged data writes each of them as an object with one name that starts with a
dollar sign.

## Main definitions

* `Value.untag` — the value that tagged data stands for.
-/

namespace Quill.Value

def pairItems (vs : List Value) : List (Value × Value) := vs.map fun p => (p.nth 0, p.nth 1)

def bigOfText (t : Text) : Int := t.toString.toInt?.getD 0

/-- The value that tagged data stands for, at most `depth` levels deep. -/
def untagAt : Nat → Value → Value
  | 0, v => v
  | depth + 1, v =>
    let untag := untagAt depth
    match v with
    | .array xs => .array (xs.map untag)
    | .object [(key, x)] =>
      match key.toString with
      | "$undefined" => .undefined
      | "$num" => .number (.ofText x.asText)
      | "$bigint" => .bigint (bigOfText x.asText)
      | "$symbol" => .symbol x.asText
      | "$function" => .function
      | "$map" => .ofEntries ((pairItems x.items).map fun p => (untag p.1, untag p.2))
      | "$set" => .ofMembers (x.items.map untag)
      | "$obj" => .ofFields ((pairItems x.items).map fun p => (p.1.asText, untag p.2))
      | _ => .object [(key, untag x)]
    | .object fields => .object (fields.map fun e => (e.1, untag e.2))
    | v => v

/-- No tagged data is nested deeper than this. -/
def deepest : Nat := 1000000

def untag (v : Value) : Value := untagAt deepest v

end Quill.Value
