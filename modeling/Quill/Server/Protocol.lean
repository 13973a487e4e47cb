import Quill.Query.Answer

/-!
# Answers in the words of the protocol

The client speaks of uris with a scheme, of numbered kinds, and of edits grouped by document.

## Main definitions

* `Protocol.diagnostic`, `Protocol.completion`, `Protocol.hover`, `Protocol.location`,
  `Protocol.documentSymbol`, `Protocol.workspaceSymbol`, `Protocol.foldingRange` — the parts.
* `Protocol.workspaceEdit` — edits grouped by document.
* `Protocol.answer` — an answer to any question.
-/

namespace Quill.Protocol

/-- A document as the client names it. -/
def uri (u : Uri) : Value := .text (Uri.toProtocol u)

def range (r : Range) : Value := r.record

def severity : Severity → Nat
  | .error => 1
  | .warning => 2
  | .info => 3
  | .hint => 4

/-- The number of the tag for superfluous text. -/
def unnecessaryTag : Nat := 1

def location (l : Location) : Value := .record [("uri", uri l.uri), ("range", range l.range)]

def relatedPlace (r : RelatedPlace) : Value :=
  .record [("message", .text r.message), ("location", location ⟨r.uri, r.range⟩)]

def diagnostic (d : Diagnostic) : Value :=
  .record <|
    [("range", range d.range), ("message", .text d.message),
      ("severity", .nat (severity d.severity)),
      ("code", .text d.code), ("source", .text Diagnostic.source)] ++
    (if d.unnecessary then [("tags", .array [.nat unnecessaryTag])] else []) ++
    (if d.related.isEmpty then []
      else [("relatedInformation", .array (d.related.map relatedPlace))])

/-- The diagnostics of a document; files that are not open have no version. -/
def publication (u : Uri) (version : Option Int) (ds : List Diagnostic) : Value :=
  .record <|
    [("uri", uri u), ("diagnostics", .array (ds.map diagnostic))] ++
    (match version with
      | some v => [("version", .int v)]
      | none => [])

def completionKind : CompletionKind → Nat
  | .label => 18
  | .variable => 6
  | .input => 21
  | .keyword => 14

def textField (name : String) : Option Text → List (String × Value)
  | some (u :: rest) => [(name, .text (u :: rest))]
  | _ => []

/-- A name that may take the place of a range; the kind may be unknown. -/
def completionItem (label : Text) (kind : Option CompletionKind) (detail : Option Text)
    (r : Range) : Value :=
  .record <|
    [("label", .text label)] ++
    (match kind with
      | some k => [("kind", .nat (completionKind k))]
      | none => []) ++
    [("textEdit", .record [("range", range r), ("newText", .text label)])] ++
    textField "detail" detail

def completion (e : CompletionEntry) :
    Value := completionItem e.label (some e.kind) e.detail e.range

def hover : Option HoverInfo → Value
  | some h =>
    .record [("contents", .record [("kind", .str "markdown"), ("value", .text h.contents)]),
      ("range", range h.range)]
  | none => .null

def renameTarget : Option RenameTarget → Value
  | some t => .record [("range", range t.range), ("placeholder", .text t.placeholder)]
  | none => .null

def textEdit (e : DocumentEdit) : Value :=
  .record [("range", range e.range), ("newText", .text e.newText)]

/-- The edits of each document, in the order in which the documents come first. -/
def groupEdits (edits : List DocumentEdit) : Dict Uri (List DocumentEdit) :=
  edits.foldl (fun groups e => Dict.put groups e.uri ((Dict.get? groups e.uri).getD [] ++ [e])) []

/-- The version of a document, or nothing for a file that is not open. -/
def versionValue : Option Int → Value
  | some v => .int v
  | none => .null

def workspaceEdit : Option (List DocumentEdit) → Value
  | some edits =>
    let change (g : Uri × List DocumentEdit) : Value :=
      .record
        [("textDocument", .record
          [("uri", uri g.1), ("version", versionValue (g.2.head?.bind DocumentEdit.version))]),
          ("edits", .array (g.2.map textEdit))]
    .record [("documentChanges", .array ((groupEdits edits).map change))]
  | none => .null

def symbolKind : SymbolKind → Nat
  | .heading => 3
  | .label => 20
  | .binding => 13

mutual
def documentSymbol : DocumentSymbol → Value
  | .mk name detail kind r selection children =>
    .record <|
      [("name", .text name), ("kind", .nat (symbolKind kind)), ("range", range r),
        ("selectionRange", range selection), ("children", .array (documentSymbols children))] ++
      textField "detail" detail

def documentSymbols : List DocumentSymbol → List Value
  | [] => []
  | s :: rest => documentSymbol s :: documentSymbols rest
end

def workspaceSymbol (s : WorkspaceSymbol) : Value :=
  .record <|
    [("name", .text s.name), ("kind", .nat (symbolKind s.kind)), ("location", location s.location)]
      ++ textField "containerName" s.container

def foldingKind : FoldingKind → Text
  | .section => "region"
  | .imports => "imports"

def foldingRange (f : FoldingRange) : Value :=
  .record [("startLine", .int f.startLine), ("endLine", .int f.endLine),
    ("kind", .text (foldingKind f.kind))]

/-- An answer to any question. Diagnostics are published and never answered. -/
def answer : Answer → Value
  | .hover info => hover info
  | .completion entries => .array (entries.map completion)
  | .locations ls => .array (ls.map location)
  | .renameTarget t => renameTarget t
  | .rename edits => workspaceEdit edits
  | .formatting edits => .array (edits.map textEdit)
  | .documentSymbols ss => .array (documentSymbols ss)
  | .foldingRanges fs => .array (fs.map foldingRange)
  | .workspaceSymbols ss => .array (ss.map workspaceSymbol)
  | .diagnostics _ => .null

end Quill.Protocol
