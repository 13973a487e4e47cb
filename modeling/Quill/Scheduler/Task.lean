import Quill.Engine.Config
import Quill.Engine.Trace
import Quill.Query.Answer
import Quill.Store.Basic

/-!
# Tasks

A task is a piece of work that is tried until it ends, is given up or is cancelled. While an attempt
runs, the task knows which documents the attempt has read, so that a change of one of them makes the
attempt stale.

## Main definitions

* `TaskState`, `Priority` — where a task is, and how urgent.
* `Task` — a task; `Task.isAffectedBy` says whether an event makes its attempt stale.
* `Task.staleUri?` — the first document an attempt read that has moved on since.
-/

namespace Quill

/-- Interactive tasks answer somebody who waits. -/
inductive Priority where
  | interactive
  | background
  deriving DecidableEq, Repr

def Priority.word : Priority → Text
  | .interactive => "interactive"
  | .background => "background"

inductive TaskState where
  | queued
  | running
  | completed
  | cancelled
  | superseded
  | failed
  deriving DecidableEq, Repr

def TaskState.word : TaskState → Text
  | .queued => "queued"
  | .running => "running"
  | .completed => "completed"
  | .cancelled => "cancelled"
  | .superseded => "superseded"
  | .failed => "failed"

def TaskState.isTerminal : TaskState → Bool
  | .queued | .running => false
  | _ => true

/-- Whether a task depends on the documents it read alone or on everything that is open. -/
inductive ReadScope where
  | document
  | workspace
  deriving DecidableEq, Repr

/-- What is asked for when a task is submitted. The target stands in for the documents read until
they are known. -/
structure TaskSpec where
  label : Text
  priority : Priority
  target : Option Uri
  deriving DecidableEq, Repr

/-- An attempt that has not come back yet, and why its token has fired, if it has. -/
structure Attempt where
  cancelled : Option CancelReason := none
  deriving DecidableEq, Repr

structure Task where
  id : Nat
  spec : TaskSpec
  state : TaskState := .queued
  attempts : Nat := 0
  attempt : Option Attempt := none
  /-- What the attempt says it has read. -/
  readSet : Option (List ReadEntry) := none
  readScope : ReadScope := .document
  /-- The document whose change made the attempt stale. -/
  supersededBy : Option Uri := none
  holdsSlot : Bool := false
  /-- Whether the budget of the attempt is being timed. -/
  isTimed : Bool := false
  deriving DecidableEq, Repr

namespace Task

/-- Whether an event makes what the attempt has read stale. Before the attempt says what it read,
only the target counts; a newly opened document joins everything that is open. -/
def isAffectedBy (t : Task) (e : StoreEvent) : Bool :=
  match t.readSet with
  | none => t.spec.target == some e.uri
  | some read => read.any (·.uri == e.uri) || (t.readScope == .workspace && e.kind == .open)

/-- Whether a document that was read is where it was: open at the version read, or not open if it
was not read from the client. -/
def isCurrent (versionOf : Uri → Option Int) (e : ReadEntry) : Bool :=
  if e.origin = .memory then versionOf e.uri == some e.version else (versionOf e.uri).isNone

/-- The first document read that has moved on. -/
def staleUri? (t : Task) (versionOf : Uri → Option Int) : Option Uri :=
  ((t.readSet.getD []).find? fun e => !isCurrent versionOf e).map ReadEntry.uri

/-- Nothing is stale exactly when every document read is where it was. -/
theorem staleUri?_eq_none_iff {t : Task} {versionOf : Uri → Option Int} :
    t.staleUri? versionOf = none ↔
      ∀ read, t.readSet = some read → ∀ e ∈ read, isCurrent versionOf e := by
  cases h : t.readSet <;> simp [staleUri?, h]

end Task

end Quill
