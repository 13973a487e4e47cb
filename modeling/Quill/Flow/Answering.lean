import Quill.Analysis.AtCursor
import Quill.Analysis.DiagnosticSet
import Quill.Analysis.Edits
import Quill.Analysis.Outline
import Quill.Flow.Compile

/-!
# Answering questions

Every question is answered from a snapshot, by a flow that uses kept values where there are any.

## Main definitions

* `Computation.body` — how a value that is not kept is computed.
* `Question.answer` — the answer to a question about a snapshot.
* `Query.run` — a whole query: take a lease, say what was read, answer, give the lease back.
-/

namespace Quill

namespace Answering

variable (c : Compiler) (s : Snapshot)

def hover (offset : Nat) : Flow Answer := do
  let uri := (← s.entry).uri
  match (← (s.parse uri).call).bind fun m => Cursor.find? m offset with
  | none => pure (.hover none)
  | some item =>
    let contents : Flow (Option HoverInfo) :=
      if Hover.needsArtifact item then do
        pure (Hover.info? s uri (← s.artifact.call) item)
      else pure (Hover.info? s uri none item)
    pure (.hover (← contents.call))

def artifactOrEntry (uri : Uri) : Flow (Option Artifact × Option Module) := do
  match ← s.compile.call with
  | .ok compiled => pure (some compiled.artifact, none)
  | .error _ => pure (none, ← (s.parse uri).call)

def candidates (uri : Uri) (sign : Completion.Sign) : Flow (List Completion.Candidate) := do
  let (a, own) ← artifactOrEntry s uri
  pure (match sign with
    | .label => Completion.labels uri a own
    | .name => Completion.names s.settings a own)

def completion (offset : Nat) : Flow Answer := do
  let doc ← s.entry
  match Completion.Site.find? doc.text offset with
  | none => pure (.completion [])
  | some site =>
    let found ← (candidates s doc.uri site.sign).call
    pure (.completion (Completion.entries s doc.uri site offset found))

def definition (offset : Nat) : Flow Answer := do
  let uri := (← s.entry).uri
  match (← (s.parse uri).call).bind fun m => Cursor.find? m offset with
  | none => pure (.locations [])
  | some item =>
    if Definition.needsArtifact item then do
      match ← s.compile.call with
      | .ok compiled => pure (.locations (Definition.locations s uri (some compiled.artifact) item))
      | .error _ => pure (.locations [])
    else pure (.locations (Definition.locations s uri none item))

def modules (uris : List Uri) : Flow (Dict Uri Module) := do
  let parsed ← Flow.forEach (fun uri => do pure (uri, ← (s.parse uri).call)) uris
  pure (parsed.filterMap fun e => e.2.map fun m => (e.1, m))

def connected (uri : Uri) : Flow (List Uri) := do
  pure (Inclusions.connected (← modules s (Dict.keys s.documents)) uri)

def occurrences (uri : Uri) (n : Name) : Flow (List Occurrence) := do
  let uris ← (connected s uri).call
  let found : Flow (List Occurrence) := do
    pure ((← modules s uris).flatMap fun e => n.occurrencesIn e.1 e.2)
  found.call

def references (uri : Uri) (offset : Nat) (includeDeclaration : Bool) : Flow Answer := do
  match (← (s.parse uri).call).bind fun m => Name.at? m offset with
  | none => pure (.locations [])
  | some n =>
    pure (.locations (References.locations s includeDeclaration (← occurrences s uri n)))

def prepareRename (p : Position) : Flow Answer := do
  let uri := (← s.entry).uri
  match (← (s.parse uri).call).bind fun m => Name.at? m (s.offsetAt uri p) with
  | none => pure (.renameTarget none)
  | some n => pure (.renameTarget (some (Rename.target s uri n)))

def rename (uri : Uri) (p : Position) (newName : Text) : Flow Answer := do
  if !Identifier.isValid newName then .fail (.invalidRename newName)
  else
    match (← (s.parse uri).call).bind fun m => Name.at? m (s.offsetAt uri p) with
    | none => pure (.rename none)
    | some n =>
      if Rename.refuses n newName then .fail (.invalidRename newName)
      else
        let found ← occurrences s uri n
        .done ((Rename.edits s newName found).map fun edits => .rename (some edits))

def formatting (printWidth : Nat) : Flow Answer := do
  let doc ← s.entry
  .done do
    let formatted ← c.format printWidth doc.text
    pure (.formatting (← Formatting.edits doc formatted))

def documentSymbols : Flow Answer := do
  let doc ← s.entry
  match ← (s.parse doc.uri).call with
  | none => pure (.documentSymbols [])
  | some m => pure (.documentSymbols (Outline.ofModule doc.text m))

def fileSymbols (doc : SnapshotDocument) : Flow (List WorkspaceSymbol) := do
  pure (Outline.flat doc.uri doc.text (← Flow.module doc))

def workspaceSymbols (query : Text) : Flow Answer := do
  let all ← Flow.forEach (fun doc => (Flow.memo (.fileSymbols doc) Fact.symbols?).call) s.ordered
  pure (.workspaceSymbols (Outline.matching query all.flatten))

def diagnostics : Flow Answer := do
  let doc ← s.entry
  pure (.diagnostics (DiagnosticSet.ofSnapshot s doc.uri (← s.compile.call)))

/-- The outline of the entry as a kept value. -/
def outline : Flow Answer := Flow.memo (.documentSymbols s) Fact.answer?

def foldingRanges : Flow Answer := do
  let outline ← (outline s).call.call
  let doc ← s.entry
  let m ← (s.parse doc.uri).call
  pure (.foldingRanges (Folding.ranges doc.text m
    (match outline with
      | .documentSymbols symbols => symbols
      | _ => [])))

end Answering

def Computation.body (c : Compiler) : Computation → Flow Fact
  | .parse doc => .done ((c.read doc.uri doc.text).map .module)
  | .compile s => do pure (.compiled (← s.compileBody c))
  | .fileSymbols doc => do pure (.symbols (← Answering.fileSymbols doc))
  | .hover s offset => do pure (.answer (← Answering.hover s offset))
  | .completion s offset => do pure (.answer (← Answering.completion s offset))
  | .definition s offset => do pure (.answer (← Answering.definition s offset))
  | .references s uri offset includeDeclaration => do
    pure (.answer (← Answering.references s uri offset includeDeclaration))
  | .formatting s printWidth => do pure (.answer (← Answering.formatting c s printWidth))
  | .documentSymbols s => do pure (.answer (← Answering.documentSymbols s))

def Computation.isImmediate : Computation → Bool
  | .parse _ => true
  | _ => false

namespace Answering

def atPosition (s : Snapshot) (p : Position) (c : Nat → Computation) : Flow Answer := do
  let offset := s.offsetAt (← s.entry).uri p
  (Flow.memo (c offset) Fact.answer?).call

/-- The edit that formats the entry, unless formatting is switched off. -/
def formattingKept (s : Snapshot) : Flow Answer :=
  .look fun m =>
    match m.config.formatterMode with
    | .disable => pure (.formatting [])
    | .builtin => (Flow.memo (.formatting s m.config.printWidth) Fact.answer?).call

end Answering

def Question.answer (s : Snapshot) (uri : Uri) : Question → Flow Answer
  | .hover p => Answering.atPosition s p (.hover s)
  | .completion p => Answering.atPosition s p (.completion s)
  | .definition p => Answering.atPosition s p (.definition s)
  | .references p includeDeclaration =>
    (Flow.memo (.references s uri (s.offsetAt uri p) includeDeclaration) Fact.answer?).call
  | .prepareRename p => Answering.prepareRename s p
  | .rename p newName => Answering.rename s uri p newName
  | .formatting => Answering.formattingKept s
  | .documentSymbols => (Answering.outline s).call
  | .foldingRanges => Answering.foldingRanges s
  | .workspaceSymbols query => Answering.workspaceSymbols s query
  | .diagnostics => Answering.diagnostics s

namespace Query

def runTrace (q : Query) (s : Snapshot) : Trace :=
  .debug .query "run" [("kind", .text q.question.word), ("uri", uriValue q.target),
    ("fingerprint", shortFingerprint s.fingerprint)]

def answerFrom (q : Query) (s : Snapshot) : Flow Answered :=
  .declare s.readSet (if s.isGlobal then .workspace else .document) do
    Flow.safePoint
    .trace (q.runTrace s) do
      let value ← (q.question.answer s (q.target.getD [])).call
      pure ⟨value, s.fingerprint, s.readSet⟩

/-- A whole query: take a lease, say what was read, answer, give the lease back. -/
def run (q : Query) : Flow Answered :=
  match q.scope? with
  | .error e => .fail e
  | .ok scope =>
    .lease scope fun r =>
      match r with
      | .error e => .fail e
      | .ok l => (q.answerFrom l.snapshot).ensure (.release l.id)

end Query

end Quill
