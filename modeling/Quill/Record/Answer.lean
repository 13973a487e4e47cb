import Quill.Record.Query

/-!
# Answers as data

## Main definitions

* `Answer.record` — an answer to any question.
* `Location.ofRecord`, `DocumentSymbol.ofRecord` and the like — parts of answers from data.
-/

namespace Quill

open Record

def Location.record (l : Location) : Value := obj [("uri", str l.uri), ("range", l.range.record)]

def Location.ofRecord (v : Value) : Location := ⟨v.textAt "uri", .ofRecord (v.get "range")⟩

def HoverInfo.record (h : HoverInfo) : Value :=
  obj [("contents", str h.contents), ("range", h.range.record)]

def HoverInfo.ofRecord (v : Value) : HoverInfo := ⟨v.textAt "contents", .ofRecord (v.get "range")⟩

def CompletionEntry.record (e : CompletionEntry) : Value :=
  obj [("label", str e.label), ("kind", str e.kind.word), ("detail", orAbsent str e.detail),
    ("range", e.range.record)]

def CompletionKind.ofRecord? (v : Value) : Option CompletionKind :=
  match v.word with
  | "label" => some .label
  | "variable" => some .variable
  | "input" => some .input
  | "keyword" => some .keyword
  | _ => none

def RenameTarget.record (t : RenameTarget) : Value :=
  obj [("range", t.range.record), ("placeholder", str t.placeholder)]

def RenameTarget.ofRecord (v : Value) : RenameTarget :=
  ⟨.ofRecord (v.get "range"), v.textAt "placeholder"⟩

def SymbolKind.ofRecord (v : Value) : SymbolKind :=
  match v.word with
  | "label" => .label
  | "binding" => .binding
  | _ => .heading

mutual
def DocumentSymbol.record : DocumentSymbol → Value
  | .mk name detail kind range selectionRange children =>
    obj [("name", str name), ("detail", orAbsent str detail), ("kind", str kind.word),
      ("range", range.record), ("selectionRange", selectionRange.record),
      ("children", arr (DocumentSymbol.records children))]

def DocumentSymbol.records : List DocumentSymbol → List Value
  | [] => []
  | s :: rest => s.record :: DocumentSymbol.records rest
end

/-- A symbol of an outline from data, at most `depth` levels deep. -/
def DocumentSymbol.ofRecord : Nat → Value → DocumentSymbol
  | 0, _ => default
  | depth + 1, v =>
    .mk (v.textAt "name") (v.get "detail").text? (.ofRecord (v.get "kind"))
      (.ofRecord (v.get "range")) (.ofRecord (v.get "selectionRange"))
      ((v.itemsAt "children").map (DocumentSymbol.ofRecord depth))

def WorkspaceSymbol.record (s : WorkspaceSymbol) : Value :=
  obj [("name", str s.name), ("kind", str s.kind.word), ("location", s.location.record),
    ("containerName", orAbsent str s.container)]

def WorkspaceSymbol.ofRecord (v : Value) : WorkspaceSymbol :=
  ⟨v.textAt "name", .ofRecord (v.get "kind"), .ofRecord (v.get "location"),
    (v.get "containerName").text?⟩

def FoldingRange.record (r : FoldingRange) : Value :=
  obj [("startLine", .int r.startLine), ("endLine", .int r.endLine), ("kind", str r.kind.word)]

def FoldingRange.ofRecord (v : Value) : FoldingRange :=
  ⟨v.intAt "startLine", v.intAt "endLine",
    if (v.get "kind").isWord "imports" then .imports else .section⟩

def DiagnosticSet.record (s : DiagnosticSet) : Value :=
  obj [("root", str s.root), ("fingerprint", str s.fingerprint),
    ("entries", arr (s.entries.map fun e =>
      obj [("uri", str e.1), ("version", .int e.2.version), ("origin", str e.2.origin.word),
        ("diagnostics", arr (e.2.diagnostics.map Diagnostic.toValue))])),
    ("dependencies", arr (s.dependencies.map str))]

def Answer.record : Answer → Value
  | .hover h => orNull HoverInfo.record h
  | .completion es => arr (es.map CompletionEntry.record)
  | .locations places => arr (places.map Location.record)
  | .renameTarget t => orNull RenameTarget.record t
  | .rename es? => orNull (fun es => arr (es.map DocumentEdit.record)) es?
  | .formatting es => arr (es.map DocumentEdit.record)
  | .documentSymbols ss => arr (DocumentSymbol.records ss)
  | .foldingRanges rs => arr (rs.map FoldingRange.record)
  | .workspaceSymbols ss => arr (ss.map WorkspaceSymbol.record)
  | .diagnostics s => s.record

end Quill
