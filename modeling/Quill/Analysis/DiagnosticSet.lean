import Quill.Compile.Artifact
import Quill.Snapshot.Basic

/-!
# Sets of diagnostics

## Main definitions

* `DiagnosticSet.ofSnapshot` — the diagnostics of a root: one entry for every document of its
  snapshot, so that documents without problems are pushed too.
-/

namespace Quill.DiagnosticSet

def internalError (f : Failure) : Diagnostic := .ofFinding (.internalError f.message) .zero []

def diagnosticsOf (root : Uri) (outcome : Except Failure Compiled) (uri : Uri) : List Diagnostic :=
  match outcome with
  | .ok c => (Dict.get? c.diagnostics uri).getD []
  | .error f => if uri = root then [internalError f] else []

def ofSnapshot (s : Snapshot) (root : Uri) (outcome : Except Failure Compiled) : DiagnosticSet where
  root := root
  fingerprint := s.fingerprint
  entries := s.documents.map fun e =>
    (e.1, ⟨e.2.version, e.2.origin, diagnosticsOf root outcome e.1⟩)
  dependencies := s.readSet.map ReadEntry.uri

end Quill.DiagnosticSet
