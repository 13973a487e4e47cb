import Quill.Compile.Gather
import Quill.Query.Answer
import Quill.Store.Basic
import Quill.Value.Canonical

/-!
# Snapshots

A snapshot is a view of the world that does not change: the texts of an open document and of
everything it includes, or of everything that is open. Open documents are taken from the store, all
others from the disk. Its fingerprint stands for its contents.

## Main definitions

* `SnapshotDocument`, `Snapshot` — a document as it was read, and all of them with the settings.
* `FingerprintInput`, `Fingerprint` — what a fingerprint is computed from, and how.
* `Building` — a snapshot under way, between two reads.
* `Building.assemble` — the snapshot of what was read.
-/

namespace Quill

/-- A document as it was read. Files that are not open have version zero. -/
structure SnapshotDocument where
  uri : Uri
  text : Text
  version : Int
  contentHash : Text
  origin : Origin
  deriving DecidableEq, Repr

namespace SnapshotDocument

def ofOpen (d : Digest) (uri : Uri) (doc : OpenDocument) : SnapshotDocument :=
  ⟨uri, doc.text, doc.version, d.ofContent doc.text, .memory⟩

def ofFile (d : Digest) (uri : Uri) (text : Text) : SnapshotDocument :=
  ⟨uri, text, 0, d.ofContent text, .disk⟩

def fingerprint (d : Digest) (uri : Uri) (contentHash : Text) : Text :=
  d.ofValue (.record [("uri", .text uri), ("contentHash", .text contentHash)])

/-- A document among those that an answer was computed from. -/
def readEntry (doc : SnapshotDocument) : ReadEntry := ⟨doc.uri, doc.version, doc.origin⟩

end SnapshotDocument

/-- What the fingerprint of a snapshot is computed from: the label of its scope, its documents in
order of their uris, and the settings. -/
structure FingerprintInput where
  scope : Text
  documents : List SnapshotDocument
  settings : CompileSettings

abbrev Fingerprint := FingerprintInput → Text

namespace FingerprintInput

def settingsValue (s : CompileSettings) : Value :=
  .record [("inputs", .object (s.inputs.map fun e => (e.1, .text e.2))),
    ("fontRevision", .text s.fontRevision)]

def toValue (i : FingerprintInput) : Value :=
  .record [("scope", .text i.scope),
    ("documents", .array (i.documents.map fun d =>
      .array [.text d.uri, .int d.version, .text d.contentHash, .text d.origin.word])),
    ("config", settingsValue i.settings)]

end FingerprintInput

def Fingerprint.ofDigest (d : Digest) : Fingerprint := fun i => d.ofValue i.toValue

/-- A view of the world: the documents in the order in which they were read, and those that could
not be read, sorted. -/
structure Snapshot where
  scope : Scope
  documents : Dict Uri SnapshotDocument
  missing : List Uri
  settings : CompileSettings
  fingerprint : Text
  deriving DecidableEq, Repr

namespace Snapshot

def document? (s : Snapshot) (uri : Uri) : Option SnapshotDocument := Dict.get? s.documents uri

def entryDocument? (s : Snapshot) : Option SnapshotDocument := s.scope.entryUri?.bind s.document?

def ordered (s : Snapshot) : List SnapshotDocument :=
  Text.sortOn SnapshotDocument.uri (Dict.values s.documents)

/-- What an answer computed from the snapshot depends on: its documents in order of their uris, then
those that were absent. -/
def readSet (s : Snapshot) : List ReadEntry :=
  s.ordered.map SnapshotDocument.readEntry ++ s.missing.map fun uri => ⟨uri, 0, .absent⟩

def isGlobal (s : Snapshot) : Bool := s.scope = .workspace

def linesOf (s : Snapshot) (uri : Uri) : LineTable :=
  .ofText (((s.document? uri).map SnapshotDocument.text).getD [])

def rangeOf (s : Snapshot) (uri : Uri) (span : Span) : Range := (s.linesOf uri).rangeOf span

def offsetAt (s : Snapshot) (uri : Uri) (p : Position) : Nat := (s.linesOf uri).offsetAt p

end Snapshot

/-- A snapshot under way: the settings are those of the moment at which it was begun. -/
structure Building where
  scope : Scope
  settings : CompileSettings
  gather : Gather SnapshotDocument

namespace Building

/-- Begin a snapshot. The document it is made for must be open. -/
def start (store : Store) (settings : CompileSettings) (scope : Scope) : Except Failure Building :=
  match scope.entryUri? with
  | none => .ok ⟨scope, settings, .start store.all⟩
  | some entry =>
    if store.has entry then .ok ⟨scope, settings, .start [entry]⟩
    else .error (.unknownDocument entry)

/-- The answer to the read of `uri`. What the document includes is read next, unless one file is
all that is asked for. -/
def receive (c : Compiler) (b : Building) (uri : Uri) (doc : Option SnapshotDocument) :
    Except Failure Building :=
  match doc with
  | none => .ok { b with gather := b.gather.skip uri }
  | some d =>
    match b.scope with
    | .file _ => .ok { b with gather := b.gather.add uri d [] }
    | _ => do
      let targets ← c.targets uri d.text
      .ok { b with gather := b.gather.add uri d targets }

def assemble (f : Fingerprint) (b : Building) : Snapshot :=
  let documents := b.gather.found
  { scope := b.scope
    documents
    missing := Text.sort b.gather.missing
    settings := b.settings
    fingerprint := f
      { scope := b.scope.label
        documents := Text.sortOn SnapshotDocument.uri (Dict.values documents)
        settings := b.settings } }

end Building

end Quill
