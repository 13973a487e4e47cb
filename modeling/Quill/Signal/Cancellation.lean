import Quill.Data.Dict
import Quill.Failure

/-!
# Cancellation sources

A source is cancelled at most once, for one reason, and tells those who listen. A listener that
comes too late is told at once. CancelSources may be linked: a linked source is cancelled as soon as
one of its parents is.

## Main definitions

* `Listener`, `CancelState` — who listens, and a source with its listeners.
* `CancelSources` — all sources with the calls made so far.
* `CancelSources.cancel`, `CancelSources.listen`, `CancelSources.link` — the operations.
-/

namespace Quill

/-- What a listener does when it is told: note it under a name, note it and cancel another source
on behalf of the client, or hand the reason on to a linked source. -/
inductive Listener where
  | note (name : Text)
  | noteAndCancel (name source : Text)
  | handOn (source : Text)
  deriving DecidableEq, Repr

structure CancelState where
  reason : Option CancelReason := none
  listeners : List (Nat × Listener) := []
  /-- The subscriptions of a linked source: the parent and the number under which it listens. -/
  links : List (Text × Nat) := []
  deriving DecidableEq, Repr

/-- All sources by name, the number of the next subscription, and the calls made so far. -/
structure CancelSources where
  states : Dict Text CancelState := []
  nextNumber : Nat := 0
  calls : List (Text × CancelReason) := []
  deriving DecidableEq, Repr

namespace CancelSources

/-- The state of a source; one that was never made is not cancelled and has no listeners. -/
def state (s : CancelSources) (name : Text) : CancelState := (Dict.get? s.states name).getD {}

/-- Change the state of a source; nothing happens to one that was never made. -/
def modify (s : CancelSources) (name : Text) (f : CancelState → CancelState) : CancelSources :=
  match Dict.get? s.states name with
  | some st => { s with states := Dict.put s.states name (f st) }
  | none => s

def reason? (s : CancelSources) (name : Text) : Option CancelReason := (s.state name).reason

def call (s : CancelSources) (name : Text) (reason : CancelReason) : CancelSources :=
  { s with calls := s.calls ++ [(name, reason)] }

def tell (cancel : CancelSources → Text → CancelReason → CancelSources) (reason : CancelReason)
    (s : CancelSources) :
    Listener → CancelSources
  | .note name => s.call name reason
  | .noteAndCancel name source => cancel (s.call name reason) source .client
  | .handOn source => cancel s source reason

/-- Cancel a source and tell its listeners in order. A source is cancelled once, so the number of
sources bounds how deep one cancellation sets off another. -/
def cancelDeep : Nat → CancelSources → Text → CancelReason → CancelSources
  | 0, s, _, _ => s
  | depth + 1, s, name, reason =>
    match s.reason? name with
    | some _ => s
    | none =>
      let listeners := (s.state name).listeners.map Prod.snd
      let s := s.modify name fun st => { st with reason := some reason, listeners := [] }
      listeners.foldl (tell (cancelDeep depth) reason) s

def cancel (s : CancelSources) (name : Text) (reason : CancelReason) : CancelSources :=
  cancelDeep (s.states.length + 1) s name reason

def listen (s : CancelSources) (name : Text) (l : Listener) : CancelSources × Option Nat :=
  match s.reason? name with
  | some reason => (tell cancel reason s l, none)
  | none =>
    let n := s.nextNumber
    ({ s.modify name fun st => { st with listeners := st.listeners ++ [(n, l)] } with
        nextNumber := n + 1 }, some n)

def unlisten (s : CancelSources) (name : Text) (number : Nat) : CancelSources :=
  s.modify name fun st => { st with listeners := st.listeners.filter (·.1 != number) }

def make (s : CancelSources) (name : Text) : CancelSources :=
  { s with states := Dict.put s.states name {} }

def link (s : CancelSources) (name : Text) (parents : List Text) : CancelSources :=
  parents.foldl (fun s parent =>
    match s.listen parent (.handOn name) with
    | (s, some n) => s.modify name fun st => { st with links := st.links ++ [(parent, n)] }
    | (s, none) => s) (s.make name)

def unlink (s : CancelSources) (name : Text) : CancelSources :=
  ((s.state name).links.foldl (fun s l => s.unlisten l.1 l.2) s).modify name fun st =>
    { st with links := [] }

/-- A cancelled source stays cancelled for its first reason. -/
@[simp] theorem cancel_of_reason (s : CancelSources) {name : Text} {r : CancelReason}
    (h : s.reason? name = some r) (reason : CancelReason) : s.cancel name reason = s := by
  simp [cancel, cancelDeep, h]

end CancelSources

/-- Whether work may go on under a reason to stop. -/
def throwIfCancelled (reason : Option CancelReason) : Except Failure Unit :=
  match reason with
  | some r => .error (.cancelled r)
  | none => .ok ()

end Quill
