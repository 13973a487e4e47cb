import Quill.Flow.Basic

/-!
# Parsing and compiling as flows

## Main definitions

* `Snapshot.parse` — a document of the snapshot, parsed; none when it is not there.
* `Snapshot.compile` — the compile of the entry. A compile that failed is a value, everything else
  that goes wrong is not.
* `Snapshot.compileBody` — how a compile that is not kept is carried out.
-/

namespace Quill.Snapshot

def parse (s : Snapshot) (uri : Uri) : Flow (Option Module) :=
  match s.document? uri with
  | none => pure none
  | some doc => do
    let m ← Flow.module doc
    Flow.safePoint
    pure (some m)

def entry (s : Snapshot) : Flow SnapshotDocument :=
  match s.entryDocument? with
  | some doc => pure doc
  | none => .fail (.error "snapshot has no entry document")

def compileOutcome : Except Failure Compiled → Flow (Except Failure Compiled)
  | .ok c => pure (.ok c)
  | .error (.computeFailure entry cause) => pure (.error (.computeFailure entry cause))
  | .error e => .fail e

def compile (s : Snapshot) : Flow (Except Failure Compiled) :=
  (Flow.memo (.compile s) Fact.compiled?).andThen compileOutcome

/-- What the compile of the entry yields; none when it has failed. -/
def artifact (s : Snapshot) : Flow (Option Artifact) := do
  match ← s.compile.call with
  | .ok c => pure (some c.artifact)
  | .error _ => pure none

def sources (s : Snapshot) : Flow (List Source) :=
  Flow.forEach (fun (doc : SnapshotDocument) => do
    let m ← Flow.module doc
    Flow.safePoint
    pure ⟨doc.uri, doc.text, m⟩) (Dict.values s.documents)

def compiledTrace (c : Compiled) : Trace :=
  .debug .compile "done"
    [("entry", .text c.artifact.entry), ("files", .nat c.artifact.files.length),
      ("diagnostics", .nat (c.diagnostics.foldl (fun n e => n + e.2.length) 0))]

/-- A compile that is not kept: parse everything, then compile the entry. -/
def compileBody (c : Compiler) (s : Snapshot) : Flow Compiled := do
  match s.scope.entryUri? with
  | none => .fail (.error "workspace snapshots have no compile entry")
  | some entry =>
    let sources ← s.sources
    match c.compile (.ofSources entry sources s.settings) with
    | .ok compiled => .trace (compiledTrace compiled) (pure compiled)
    | .error e =>
      .trace (.log .error ("[compile] " ++ entry ++ " failed: " ++ e.inLog))
        (.fail (.computeFailure entry e.message))

end Quill.Snapshot
