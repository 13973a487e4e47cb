import Quill.Diagnostic
import Quill.Query.Basic
import Quill.Query.Edit

/-!
# Answers

## Main definitions

* `HoverInfo`, `Location`, `CompletionEntry`, `RenameTarget`, `DocumentSymbol`, `WorkspaceSymbol`,
  `FoldingRange`, `DiagnosticSet` — what the questions are answered with.
* `Answer` — an answer to any question.
* `Answer.verify` — answers made of edits must still fit the documents when they are delivered.
-/

namespace Quill

/-- Where the text of a document came from: the client, the disk, or nowhere. -/
inductive Origin where
  | memory
  | disk
  | absent
  deriving DecidableEq, Repr

def Origin.word : Origin → Text
  | .memory => "memory"
  | .disk => "disk"
  | .absent => "absent"

/-- A document that was read, at the version it had; files that are not open have version zero. -/
structure ReadEntry where
  uri : Uri
  version : Int
  origin : Origin
  deriving DecidableEq, Repr

structure Location where
  uri : Uri
  range : Range
  deriving DecidableEq, Repr

/-- A description, in Markdown, of what stands at a range. -/
structure HoverInfo where
  contents : Text
  range : Range
  deriving DecidableEq, Repr

inductive CompletionKind where
  | keyword
  | variable
  | input
  | label
  deriving DecidableEq, Repr

def CompletionKind.word : CompletionKind → Text
  | .keyword => "keyword"
  | .variable => "variable"
  | .input => "input"
  | .label => "label"

/-- A name that may take the place of the range. -/
structure CompletionEntry where
  label : Text
  kind : CompletionKind
  detail : Option Text
  range : Range
  deriving DecidableEq, Repr

/-- The name that a rename would change, at its place. -/
structure RenameTarget where
  range : Range
  placeholder : Text
  deriving DecidableEq, Repr

inductive SymbolKind where
  | heading
  | label
  | binding
  deriving DecidableEq, Repr

def SymbolKind.word : SymbolKind → Text
  | .heading => "heading"
  | .label => "label"
  | .binding => "binding"

inductive DocumentSymbol where
  | mk (name : Text) (detail : Option Text) (kind : SymbolKind) (range selectionRange : Range)
    (children : List DocumentSymbol)
  deriving Repr

instance : Inhabited DocumentSymbol := ⟨.mk [] none .heading .zero .zero []⟩

namespace DocumentSymbol

def name : DocumentSymbol → Text
  | mk name .. => name

def detail : DocumentSymbol → Option Text
  | mk _ detail .. => detail

def kind : DocumentSymbol → SymbolKind
  | mk _ _ kind .. => kind

def range : DocumentSymbol → Range
  | mk _ _ _ range .. => range

def selectionRange : DocumentSymbol → Range
  | mk _ _ _ _ selectionRange _ => selectionRange

def children : DocumentSymbol → List DocumentSymbol
  | mk _ _ _ _ _ children => children

end DocumentSymbol

/-- A symbol of the workspace and the title of the heading above it. -/
structure WorkspaceSymbol where
  name : Text
  kind : SymbolKind
  location : Location
  container : Option Text
  deriving DecidableEq, Repr

inductive FoldingKind where
  | section
  | imports
  deriving DecidableEq, Repr

def FoldingKind.word : FoldingKind → Text
  | .section => "section"
  | .imports => "imports"

/-- Lines that can be folded, the first and the last included. -/
structure FoldingRange where
  startLine : Int
  endLine : Int
  kind : FoldingKind
  deriving DecidableEq, Repr

structure DiagnosticEntry where
  version : Int
  origin : Origin
  diagnostics : List Diagnostic
  deriving DecidableEq, Repr

/-- The diagnostics of a root and of everything it includes. The dependencies are the documents the
set was computed from, those that were absent included. -/
structure DiagnosticSet where
  root : Uri
  fingerprint : Text
  entries : Dict Uri DiagnosticEntry
  dependencies : List Uri
  deriving DecidableEq, Repr

inductive Answer where
  | hover (info : Option HoverInfo)
  | completion (entries : List CompletionEntry)
  | locations (locations : List Location)
  | renameTarget (target : Option RenameTarget)
  | rename (edits : Option (List DocumentEdit))
  | formatting (edits : List DocumentEdit)
  | documentSymbols (symbols : List DocumentSymbol)
  | foldingRanges (ranges : List FoldingRange)
  | workspaceSymbols (symbols : List WorkspaceSymbol)
  | diagnostics (set : DiagnosticSet)
  deriving Repr, Inhabited

/-- Refused when the answer is made of edits that no longer fit the documents. -/
def Answer.verify (versionOf : Uri → Option Int) : Answer → Except Failure Unit
  | .rename (some edits) | .formatting edits => EditList.verify versionOf edits
  | _ => .ok ()

end Quill
