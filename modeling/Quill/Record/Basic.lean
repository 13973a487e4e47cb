import Quill.Text.Order
import Quill.Text.Position
import Quill.Value.Basic

/-!
# Records

Values of this library can be written as data and read from data. A field that is absent is left out
when an object is written; what is missing or of the wrong type when data is read counts as empty.

## Main definitions

* `Record.obj`, `Record.arr`, `Record.str`, `Record.orNull`, `Record.orAbsent`, `Record.list` —
  writing.
* `Value.get`, `Value.at`, `Value.asText`, `Value.asInt` and the like — reading.
* `Span.record`, `Position.record`, `Range.record` — places as data.
* `Span.ofRecord`, `Position.ofRecord`, `Range.ofRecord` — places from data.
-/

namespace Quill

namespace Record

def obj (fields : List (String × Value)) : Value := .record fields

def arr (items : List Value) : Value := .array items

def str (t : Text) : Value := .text t

def orNull {α : Type} (f : α → Value) : Option α → Value
  | some a => f a
  | none => .null

def orAbsent {α : Type} (f : α → Value) : Option α → Value
  | some a => f a
  | none => .undefined

def list (items : List Value) : Value := if items.isEmpty then .undefined else .array items

/-- Texts by name, as pairs in the order of the names. -/
def pairs (d : Dict Text Text) : Value :=
  arr ((sortBy (fun a b => Text.le a.1 b.1) d).map fun e => arr [str e.1, str e.2])

end Record

namespace Value

def get (v : Value) (key : String) : Value := v.field (Text.ofString key)

def nth (v : Value) (i : Nat) : Value := v.items.getD i .undefined

def asText (v : Value) : Text := v.text?.getD []

def word (v : Value) : String := v.asText.toString

def isWord (v : Value) (s : String) : Bool :=
  match v with
  | .text t => t == Text.ofString s
  | _ => false

def asInt? : Value → Option Int
  | .number n => n.floor?
  | _ => none

/-- The number that a value is, rounded down, or zero. -/
def asInt (v : Value) : Int := v.asInt?.getD 0

/-- The number that a value is, rounded down, or zero if it is below. -/
def asNat (v : Value) : Nat := v.asInt.toNat

def isTrue : Value → Bool
  | .bool b => b
  | _ => false

def textAt (v : Value) (key : String) : Text := (v.get key).asText

def intAt (v : Value) (key : String) : Int := (v.get key).asInt

def itemsAt (v : Value) (key : String) : List Value := (v.get key).items

def texts (v : Value) : List Text := v.items.map asText

def items? : Value → Option (List Value)
  | .array xs => some xs
  | _ => none

def textFields : Value → Dict Text Text
  | .object fields => fields.map fun e => (e.1, e.2.asText)
  | _ => []

end Value

/-! ## Places -/

open Record

def Span.record (s : Span) : Value := obj [("start", .int s.start), ("end", .int s.stop)]

def Position.record (p : Position) : Value :=
  obj [("line", .int p.line), ("character", .int p.character)]

def Range.record (r : Range) : Value := obj [("start", r.start.record), ("end", r.stop.record)]

def Span.ofRecord (v : Value) : Span := ⟨v.intAt "start", v.intAt "end"⟩

def Position.ofRecord (v : Value) : Position := ⟨v.intAt "line", v.intAt "character"⟩

def Range.ofRecord (v : Value) : Range := ⟨.ofRecord (v.get "start"), .ofRecord (v.get "end")⟩

end Quill
