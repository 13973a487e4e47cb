import Quill.Failure
import Quill.Query.Answer
import Quill.Record.Basic

/-!
# Failures, queries and edits as data

## Main definitions

* `Failure.fields` — the kind and the message of a failure.
* `Record.attempt` — a value or a failure.
* `CancelReason.ofRecord` — a reason from data.
* `Query.ofRecord` — a query from data.
* `Scope.record`, `Scope.ofRecord` — scopes.
* `DocumentEdit.record`, `DocumentEdit.ofRecord` — edits.
-/

namespace Quill

open Record

def Failure.fields (f : Failure) : List (String × Value) :=
  let kind : Text :=
    match f.kind?, f with
    | some k, _ => k
    | none, .raised _ => "thrown"
    | none, _ => f.name?.getD []
  [("error", str kind), ("message", str f.message)]

def Failure.record (f : Failure) : Value := obj f.fields

def Record.attemptFields {α : Type} (f : α → Value) : Except Failure α → List (String × Value)
  | .ok a => [("value", f a)]
  | .error e => e.fields

def Record.attempt {α : Type} (f : α → Value) (r : Except Failure α) : Value :=
  obj (attemptFields f r)

def CancelReason.ofRecord (v : Value) : CancelReason :=
  match v.word with
  | "closed" => .closed
  | "disposed" => .disposed
  | "superseded" => .superseded
  | "abandoned" => .abandoned
  | _ => .client

/-! ## Queries and edits -/

def Question.ofRecord? (v : Value) : Option Question :=
  let position := Position.ofRecord (v.get "position")
  match (v.get "kind").word with
  | "hover" => some (.hover position)
  | "completion" => some (.completion position)
  | "definition" => some (.definition position)
  | "references" => some (.references position (v.get "includeDeclaration").isTrue)
  | "prepareRename" => some (.prepareRename position)
  | "rename" => some (.rename position (v.textAt "newName"))
  | "formatting" => some .formatting
  | "documentSymbols" => some .documentSymbols
  | "foldingRanges" => some .foldingRanges
  | "workspaceSymbols" => some (.workspaceSymbols (v.textAt "query"))
  | "diagnostics" => some .diagnostics
  | _ => none

def Query.ofRecord (v : Value) : Query :=
  ⟨(v.get "uri").text?, (Question.ofRecord? v).getD .diagnostics⟩

def Scope.record (s : Scope) : Value :=
  obj [("kind", str s.word), ("entry", orAbsent str s.entryUri?)]

def Scope.ofRecord (v : Value) : Scope :=
  match (v.get "kind").word with
  | "document" => .document (v.textAt "entry")
  | "file" => .file (v.textAt "entry")
  | _ => .workspace

def DocumentEdit.record (e : DocumentEdit) : Value :=
  obj [("uri", str e.uri), ("version", orNull .int e.version), ("range", e.range.record),
    ("newText", str e.newText)]

def DocumentEdit.ofRecord (v : Value) : DocumentEdit :=
  ⟨v.textAt "uri", (v.get "version").asInt?, .ofRecord (v.get "range"), v.textAt "newText"⟩

def Origin.ofRecord (v : Value) : Origin :=
  match v.word with
  | "disk" => .disk
  | "absent" => .absent
  | _ => .memory

end Quill
