import Quill.Cache.Basic
import Quill.Disk.Basic
import Quill.Record.Query
import Quill.Scheduler.Basic
import Quill.Snapshot.Basic

/-!
# States as data

## Main definitions

* `Cache.record`, `Scheduler.statistics`, `Scheduler.taskList` — how much of what there is.
* `Snapshot.fields`, `Store.record` — what snapshots and stores hold.
* `Store.ofVersions`, `Disk.ofRecord` — stores and files from data.
-/

namespace Quill

open Record

def EvictionPolicy.ofRecord (v : Value) : EvictionPolicy :=
  match v.word with
  | "lru" => fun c _ => .ratio c.lastUsed 1
  | "hits" => fun c _ => .ratio c.hits 1
  | "weight" => fun c _ => .ofNumber c.weight.neg
  | "cost" => fun c _ => .ratio c.cost 1
  | "kind" => fun c _ => .ratio c.kind.length 1
  | "age" => fun c generation => .ratio (c.lastUsed - generation) 1
  | "infinite" => fun _ _ => .unbounded
  | _ => .default

def Cache.record {τ ω α : Type} (c : Cache τ ω α Number) : Value :=
  obj [("hits", .nat c.counters.hits), ("misses", .nat c.counters.misses),
    ("coalesced", .nat c.counters.coalesced), ("evictions", .nat c.counters.evictions),
    ("failures", .nat c.counters.failures), ("abandoned", .nat c.counters.abandoned),
    ("size", .nat c.entries.length), ("weight", .number c.weight), ("inFlight", .nat c.inFlight)]

def Scheduler.statistics (s : Scheduler) : Value :=
  let c := s.counters
  obj [("queued", .nat (s.interactive.length + s.background.length)),
    ("running", .nat s.running.length), ("slotsInUse", .nat s.slotsInUse),
    ("submitted", .nat c.submitted), ("completed", .nat c.completed),
    ("cancelled", .nat c.cancelled), ("superseded", .nat c.superseded),
    ("restarts", .nat c.restarts), ("failed", .nat c.failed), ("demoted", .nat c.demoted)]

def Scheduler.taskList (s : Scheduler) : Value :=
  arr ((Dict.values s.tasks).map fun t =>
    arr [str t.spec.label, .nat t.id, str t.state.word, .nat t.attempts])

def SnapshotDocument.record (d : SnapshotDocument) : Value :=
  obj [("uri", str d.uri), ("version", .int d.version), ("contentHash", str d.contentHash),
    ("origin", str d.origin.word), ("length", .nat d.text.length)]

def ReadEntry.record (e : ReadEntry) : Value :=
  obj [("uri", str e.uri), ("version", .int e.version), ("origin", str e.origin.word)]

def Snapshot.fields (s : Snapshot) : List (String × Value) :=
  [("scope", s.scope.record), ("entry", orNull str s.scope.entryUri?),
    ("documents", arr ((Dict.values s.documents).map SnapshotDocument.record)),
    ("missing", arr (s.missing.map str)), ("fontRevision", str s.settings.fontRevision),
    ("fingerprint", str s.fingerprint), ("readSet", arr (s.readSet.map ReadEntry.record))]

def Store.record (s : Store) : Value :=
  arr <| s.all.filterMap fun uri => (Dict.get? s.documents uri).map fun d =>
    obj [("uri", str uri), ("version", .int d.version), ("language", str d.language),
      ("text", str d.text)]

def StoreEvent.record (e : StoreEvent) : Value :=
  obj [("kind", str e.kind.word), ("uri", str e.uri), ("version", orNull .int e.version)]

def Store.setVersion (s : Store) (uri : Uri) : Option Int → Store
  | some v => s.put uri { text := [], version := v, language := [] }
  | none => ⟨Dict.erase s.documents uri⟩

def Store.ofVersions (v : Value) : Store :=
  v.items.foldl (fun s p => s.setVersion (p.nth 0).asText (some (p.nth 1).asInt)) {}

/-- What a file holds, from data: a text, or an object with the message of the error that reading it
gives. -/
def Disk.contentOfRecord (v : Value) : Option FileContent :=
  match v with
  | .text t => some (.ok t)
  | .object _ => some (.error (v.textAt "fail"))
  | _ => none

def Disk.ofRecord (v : Value) : Disk :=
  v.items.foldl (fun d p => d.write (p.nth 0).asText (contentOfRecord (p.nth 1))) {}

end Quill
