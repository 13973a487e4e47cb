import Quill.Markup.Item
import Quill.Record.Basic

/-!
# Items of a document as data

## Main definitions

* `Item.record`, `SyntaxError.record`, `Module.record` — what was read from a document.
-/

namespace Quill

open Record

def Item.word : Item → String
  | .heading _ => "heading"
  | .label _ => "label"
  | .reference _ => "reference"
  | .use _ => "use"
  | .binding _ => "binding"
  | .inclusion _ => "include"

def Item.fields : Item → List (String × Value)
  | .heading h =>
    [("level", .nat h.level), ("title", str h.title), ("span", h.span.record),
      ("titleSpan", h.titleSpan.record), ("label", orNull str h.label)]
  | .label m | .reference m | .use m =>
    [("name", str m.name), ("span", m.span.record), ("nameSpan", m.nameSpan.record)]
  | .binding b =>
    [("name", str b.name), ("value", str b.value), ("span", b.span.record),
      ("nameSpan", b.nameSpan.record), ("valueSpan", b.valueSpan.record)]
  | .inclusion i =>
    [("specifier", str i.specifier), ("target", str i.target), ("span", i.span.record),
      ("pathSpan", i.pathSpan.record)]

def Item.record (i : Item) : Value := obj (("kind", .str i.word) :: i.fields)

def SyntaxError.record (e : SyntaxError) : Value :=
  obj [("code", str e.problem.code), ("message", str e.problem.message), ("span", e.span.record)]

def Module.fields (m : Module) : List (String × Value) :=
  [("items", arr (m.items.map Item.record)), ("errors", arr (m.errors.map SyntaxError.record))]

end Quill
