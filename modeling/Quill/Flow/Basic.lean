import Quill.Scheduler.Task
import Quill.Snapshot.Leases

/-!
# Flows

A flow is work that comes to a stop now and then: at a safe point, until a snapshot is ready, until
a value has been computed. Between two stops nothing else happens. A flow says what it waits for and
how it goes on; whoever runs it decides when.

## Main definitions

* `Computation` — the values worth keeping, by what they are computed from.
* `Fact` — what computations and flows come back with.
* `Flow` — work with stops; `Flow.andThen` goes on behind the end of a flow, whatever it is.
* `Flow.call` — a flow within another one, which goes on one turn after the end of the first.
* `Flow.memo`, `Flow.module` — kept values.
-/

namespace Quill

/-- A value worth keeping. Those about a snapshot are computed from that snapshot alone. -/
inductive Computation where
  | parse (doc : SnapshotDocument)
  | compile (s : Snapshot)
  | fileSymbols (doc : SnapshotDocument)
  | hover (s : Snapshot) (offset : Nat)
  | completion (s : Snapshot) (offset : Nat)
  | definition (s : Snapshot) (offset : Nat)
  | references (s : Snapshot) (uri : Uri) (offset : Nat) (includeDeclaration : Bool)
  | formatting (s : Snapshot) (printWidth : Nat)
  | documentSymbols (s : Snapshot)
  deriving DecidableEq, Repr

namespace Computation

def kind : Computation → Text
  | parse _ => "parse"
  | compile _ => "compile"
  | fileSymbols _ => "file-symbols"
  | hover .. => "hover"
  | completion .. => "completion"
  | definition .. => "definition"
  | references .. => "references"
  | formatting .. => "formatting"
  | documentSymbols _ => "document-symbols"

def questionFingerprint (d : Digest) (s : Snapshot) (key : Value) : Text :=
  d.ofValue (.record [("fingerprint", .text s.fingerprint), ("key", key)])

def offsetKey (offset : Nat) : Value := .record [("offset", .nat offset)]

def fingerprint (d : Digest) : Computation → Text
  | parse doc | fileSymbols doc => SnapshotDocument.fingerprint d doc.uri doc.contentHash
  | compile s => s.fingerprint
  | hover s offset | completion s offset | definition s offset =>
    questionFingerprint d s (offsetKey offset)
  | references s uri offset includeDeclaration =>
    questionFingerprint d s (.record [("uri", .text uri), ("offset", .nat offset),
      ("includeDeclaration", .bool includeDeclaration)])
  | formatting s printWidth => questionFingerprint d s (.record [("printWidth", .nat printWidth)])
  | documentSymbols s => questionFingerprint d s .null

def weight : Computation → Nat
  | compile s => max 1 s.documents.length
  | _ => 1

end Computation

structure Answered where
  value : Answer
  fingerprint : Text
  readSet : List ReadEntry
  deriving Repr

/-- What computations and flows come back with. -/
inductive Fact where
  | module (m : Module)
  | compiled (c : Compiled)
  | symbols (symbols : List WorkspaceSymbol)
  | answer (a : Answer)
  | answered (a : Answered)
  | snapshot (s : Snapshot)
  | lease (l : Lease)
  | text (t : Text)
  deriving Repr

namespace Fact

def module? : Fact → Option Module
  | module m => some m
  | _ => none

def compiled? : Fact → Option Compiled
  | compiled c => some c
  | _ => none

def symbols? : Fact → Option (List WorkspaceSymbol)
  | symbols s => some s
  | _ => none

def answer? : Fact → Option Answer
  | answer a => some a
  | _ => none

end Fact

/-- What a flow can see of the moment: the configuration, the versions of the open documents, and
why it was asked to stop, if it was. -/
structure Moment where
  config : EngineConfig
  versionOf : Uri → Option Int
  cancelled : Option CancelReason

inductive Flow (α : Type) where
  | done (r : Except Failure α)
  /-- Let one turn pass. -/
  | pause (next : Flow α)
  /-- A safe point: let queued work run; refused if the flow was asked to stop. -/
  | checkpoint (next : Except Failure Unit → Flow α)
  /-- Wait for a value that is kept, or computed now. -/
  | compute (c : Computation) (next : Except Failure Fact → Flow α)
  /-- Wait for a snapshot and take a lease of it. -/
  | lease (scope : Scope) (next : Except Failure Lease → Flow α)
  /-- Wait for a snapshot. -/
  | build (scope : Scope) (next : Except Failure Snapshot → Flow α)
  /-- Give a lease back. -/
  | release (id : Nat) (next : Flow α)
  /-- Say what the answer will depend on. -/
  | declare (read : List ReadEntry) (scope : ReadScope) (next : Flow α)
  | look (next : Moment → Flow α)
  | trace (t : Trace) (next : Flow α)
  /-- Tell whoever watches. -/
  | say (t : Text) (next : Flow α)
  /-- Wait until the gate of the given name has been opened. -/
  | gate (name : Text) (next : Flow α)

namespace Flow

variable {α β : Type}

/-- Go on behind the end of a flow, whatever it is. -/
def andThen : Flow α → (Except Failure α → Flow β) → Flow β
  | done r, k => k r
  | pause next, k => pause (next.andThen k)
  | checkpoint next, k => checkpoint fun r => (next r).andThen k
  | compute c next, k => compute c fun r => (next r).andThen k
  | lease scope next, k => lease scope fun r => (next r).andThen k
  | build scope next, k => build scope fun r => (next r).andThen k
  | release id next, k => release id (next.andThen k)
  | declare read scope next, k => declare read scope (next.andThen k)
  | look next, k => look fun m => (next m).andThen k
  | trace t next, k => trace t (next.andThen k)
  | say t next, k => say t (next.andThen k)
  | gate name next, k => gate name (next.andThen k)

/-- Go on behind an end with a value. -/
def bind (f : Flow α) (k : α → Flow β) : Flow β :=
  f.andThen fun r =>
    match r with
    | .ok a => k a
    | .error e => done (.error e)

instance : Monad Flow where
  pure a := done (.ok a)
  bind := bind

def fail (e : Failure) : Flow α := done (.error e)

/-- A flow within another one, which goes on one turn after the end of the first. -/
def call (f : Flow α) : Flow α := f.andThen fun r => pause (done r)

def safePoint : Flow Unit := checkpoint done

def expect (part? : Fact → Option α) (fact : Fact) : Flow α :=
  match part? fact with
  | some a => done (.ok a)
  | none => fail (.error "unexpected kind of value")

def value (c : Computation) (part? : Fact → Option α) : Flow α :=
  (compute c done).bind (expect part?)

def memo (c : Computation) (part? : Fact → Option α) : Flow α :=
  (value c part?).bind fun a => safePoint.bind fun _ => done (.ok a)

def module (doc : SnapshotDocument) : Flow Module := value (.parse doc) Fact.module?

/-- Carry out `after` at the end of a flow, whatever it is. -/
def ensure (f : Flow α) (after : Flow α → Flow α) : Flow α :=
  f.andThen fun r => after (done r)

def forEach (f : β → Flow α) : List β → Flow (List α)
  | [] => done (.ok [])
  | b :: rest => (f b).bind fun a => (forEach f rest).bind fun as => done (.ok (a :: as))

@[simp] theorem andThen_done (r : Except Failure α) (k : Except Failure α → Flow β) :
    (done r).andThen k = k r := rfl

@[simp] theorem bind_ok (a : α) (k : α → Flow β) : (done (.ok a)).bind k = k a := rfl

@[simp] theorem bind_fail (e : Failure) (k : α → Flow β) : (fail e).bind k = fail e := rfl

end Flow

end Quill
