import Quill.Failure
import Quill.Text.Position

/-!
# Queries

A query is a question about a document or about the whole workspace. How much of the world it has to
see depends on the question alone.

## Main definitions

* `Question`, `Query` — what is asked, and of which document.
* `Scope` — how much of the world a snapshot holds.
* `Query.scope?` — the scope of a query; questions about a document need one.
-/

namespace Quill

inductive Question where
  | hover (position : Position)
  | completion (position : Position)
  | definition (position : Position)
  | references (position : Position) (includeDeclaration : Bool)
  | prepareRename (position : Position)
  | rename (position : Position) (newName : Text)
  | formatting
  | documentSymbols
  | foldingRanges
  | workspaceSymbols (query : Text)
  | diagnostics
  deriving DecidableEq, Repr

def Question.word : Question → Text
  | .hover _ => "hover"
  | .completion _ => "completion"
  | .definition _ => "definition"
  | .references .. => "references"
  | .prepareRename _ => "prepareRename"
  | .rename .. => "rename"
  | .formatting => "formatting"
  | .documentSymbols => "documentSymbols"
  | .foldingRanges => "foldingRanges"
  | .workspaceSymbols _ => "workspaceSymbols"
  | .diagnostics => "diagnostics"

structure Query where
  target : Option Uri
  question : Question
  deriving DecidableEq, Repr

/-- How much of the world a snapshot holds: a document with everything it includes, one file alone,
or every open document with everything they include. -/
inductive Scope where
  | document (entry : Uri)
  | file (entry : Uri)
  | workspace
  deriving DecidableEq, Repr

namespace Scope

def word : Scope → Text
  | document _ => "document"
  | file _ => "file"
  | workspace => "workspace"

def entryUri? : Scope → Option Uri
  | document entry | file entry => some entry
  | workspace => none

def label (s : Scope) : Text :=
  match s.entryUri? with
  | some entry => s.word ++ ":" ++ entry
  | none => s.word

end Scope

def Question.scopeOf : Question → Uri → Scope
  | .references .. | .rename .. | .workspaceSymbols _ => fun _ => .workspace
  | .formatting | .documentSymbols | .foldingRanges => .file
  | .hover _ | .completion _ | .definition _ | .prepareRename _ | .diagnostics => .document

def Question.isGlobal : Question → Bool
  | .references .. | .rename .. | .workspaceSymbols _ => true
  | _ => false

def Query.scope? (q : Query) : Except Failure Scope :=
  match q.target with
  | some uri => .ok (q.question.scopeOf uri)
  | none =>
    if q.question.isGlobal then .ok .workspace
    else .error (.error (q.question.word ++ " queries need a document"))

theorem Question.scopeOf_eq_workspace_iff {q : Question} {uri : Uri} :
    q.scopeOf uri = .workspace ↔ q.isGlobal := by
  cases q <;> simp [scopeOf, isGlobal]

end Quill
