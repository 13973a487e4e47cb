import Quill.Markup.Item
import Quill.Text.Blank
import Quill.Text.Lines

/-!
# Finding includes without reading a document

Snapshots need to know which documents a document includes, and nothing else about it. This scan
looks only for include lines: at the start of a line, spaces and tabs, the directive, at least one
space or tab, and a quoted path. Unlike the reader it also starts lines behind the two line
separators of Unicode.

## Main definitions

* `Includes.match?` — the quoted path at the start of a line, with the number of units read.
* `Includes.specifiers` — all quoted paths of a text.
* `Includes.targets` — the documents they name, repetitions removed.
-/

namespace Quill.Includes

def startsLine (u : UInt16) : Bool :=
  u == Text.lineFeed || u == Text.carriageReturn || u == 0x2028 || u == 0x2029

def inPath (u : UInt16) : Bool :=
  u != Text.unit '"' && u != Text.carriageReturn && u != Text.lineFeed

/-- The quoted path of an include line at the start of the text, and the number of units up to its
closing quotation mark. -/
def match? (t : Text) : Option (Text × Nat) :=
  let word := Directive.keyword .inclusion
  let indent := t.takeWhile Text.isSpaceOrTab
  let t := t.drop indent.length
  if Text.startsWith t word then
    let t := t.drop word.length
    let gap := t.takeWhile Text.isSpaceOrTab
    match gap, t.drop gap.length with
    | _ :: _, u :: t =>
      if u == Text.unit '"' then
        let path := t.takeWhile inPath
        if (t.drop path.length).head? == some (Text.unit '"') then
          some (path, indent.length + word.length + gap.length + path.length + 2)
        else none
      else none
    | _, _ => none
  else none

/-- The quoted paths of a text. The first `skip` units belong to what was found before; `fresh` says
that a line starts here. -/
def specifiersAux (skip : Nat) (fresh : Bool) : Text → List Text
  | [] => []
  | u :: rest =>
    match skip with
    | skip + 1 => specifiersAux skip false rest
    | 0 =>
      match if fresh then match? (u :: rest) else none with
      | some (path, count) => path :: specifiersAux (count - 1) false rest
      | none => specifiersAux 0 (startsLine u) rest

def specifiers (t : Text) : List Text :=
  (specifiersAux 0 true t).filter fun path => !(Text.trim path).isEmpty

/-- The documents that a document includes, in order, each once. -/
def targets (uri : Uri) (t : Text) : List Uri := ((specifiers t).map uri.include).eraseDups

end Quill.Includes
