import Quill.Value.Json
import Quill.Text.Order
import Quill.Digest.Sha256

/-!
# Canonical text and fingerprints

Values that are equal as data have one canonical text: the fields of an object are written in the
order of their names, the entries of a map in the order of their written keys, the members of a set
in the order of their texts. A fingerprint is the digest of that text.

## Main definitions

* `Value.canonical` — the canonical text.
* `Digest` — a digest of texts; `Digest.sha256` is the one in use. Everything above takes the digest
  as a parameter, so that facts about fingerprints can name what they need of it.
* `Digest.ofValue`, `Digest.ofContent` — the fingerprint of a value and of the text of a document.
-/

namespace Quill

namespace Value

def mapName : Text := "__map__"

def setName : Text := "__set__"

def tagged (name : Text) (parts : List Text) : Text :=
  "\x7b" ++ Json.quote name ++ ":[" ++ Text.join "," parts ++ "]\x7d"

def pairText (p : Text × Text) : Text := "[" ++ p.1 ++ "," ++ p.2 ++ "]"

def fieldText (p : Text × Text) : Text := Json.quote p.1 ++ ":" ++ p.2

mutual
def canonical : Value → Text
  | .undefined | .null => "null"
  | .bool b => if b then "true" else "false"
  | .number n => if n.isFinite then n.render else "\"" ++ n.render ++ "\""
  | .text t => Json.quote t
  | .bigint n => Json.quote (Text.ofInt n)
  | .symbol name => Json.quote ("Symbol(" ++ name ++ ")")
  | .function => "\"<fn>\""
  | .array xs => "[" ++ Text.join "," (canonicalItems xs) ++ "]"
  | .object fields =>
    "\x7b" ++ Text.join "," ((Text.sortOn Prod.fst (canonicalFields fields)).map fieldText) ++
      "\x7d"
  | .map entries => tagged mapName ((Text.sortOn Prod.fst (canonicalEntries entries)).map pairText)
  | .set members => tagged setName (Text.sort (canonicalItems members))

def canonicalItems : List Value → List Text
  | [] => []
  | x :: xs => canonical x :: canonicalItems xs

def canonicalFields : List (Text × Value) → List (Text × Text)
  | [] => []
  | (k, v) :: rest => (k, canonical v) :: canonicalFields rest

def canonicalEntries : List (Value × Value) → List (Text × Text)
  | [] => []
  | (k, v) :: rest => (canonical k, canonical v) :: canonicalEntries rest
end

end Value

structure Digest where
  /-- The digest of a text. -/
  ofText : Text → Text

namespace Digest

def sha256 : Digest := ⟨fun t => Text.hex (Sha256.hash t.utf8)⟩

def ofValue (d : Digest) (v : Value) : Text := d.ofText v.canonical

/-- The fingerprint of the text of a document: half of its digest. -/
def ofContent (d : Digest) (t : Text) : Text := (d.ofText t).take 32

end Digest

end Quill
