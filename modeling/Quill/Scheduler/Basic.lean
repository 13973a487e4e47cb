import Quill.Scheduler.Task

/-!
# The scheduler

Tasks run on a bounded number of worker slots, interactive ones first. A running task is superseded
when something it has read changes: its attempt stops at the next safe point, and an interactive
task is tried again while tries remain. A task that comes back is checked against the documents once
more, so an answer computed from an old version is never delivered.

An operation yields the scheduler after it and what is to be done, in order.

## Main definitions

* `Scheduler` — the tasks, their queues and the slots in use.
* `SchedulerEffect` — what an operation asks for.
* `Scheduler.submit`, `Scheduler.invalidate`, `Scheduler.settle`, `Scheduler.cancel`,
  `Scheduler.demote`, `Scheduler.idle`, `Scheduler.dispose` — the operations.
* `Scheduler.pump` — start queued tasks while there are slots.
-/

namespace Quill

structure SchedulerCounters where
  submitted : Nat := 0
  completed : Nat := 0
  cancelled : Nat := 0
  superseded : Nat := 0
  restarts : Nat := 0
  failed : Nat := 0
  demoted : Nat := 0
  deriving DecidableEq, Repr

/-- The tasks by number, the queues, the tasks that run, and who waits for all to be over. -/
structure Scheduler where
  tasks : Dict Nat Task := []
  interactive : List Nat := []
  background : List Nat := []
  running : List Nat := []
  slotsInUse : Nat := 0
  nextTask : Nat := 1
  idleWaiters : List Nat := []
  isDisposed : Bool := false
  counters : SchedulerCounters := {}
  deriving DecidableEq, Repr

/-- What an operation asks for; `α` is what tasks come back with. -/
inductive SchedulerEffect (α : Type) where
  | trace (t : Trace)
  /-- Run an attempt of a task. -/
  | begin (task attempt : Nat)
  /-- The token of the attempt under way fires. -/
  | fire (task : Nat) (reason : CancelReason)
  /-- The task has this result. -/
  | resolve (task : Nat) (value : α)
  /-- The task has no result. -/
  | reject (task : Nat) (f : Failure)
  /-- Time the budget of an attempt. -/
  | startTimer (task : Nat) (ms : Nat)
  | stopTimer (task : Nat)
  /-- Those who wait for all to be over go on. -/
  | wakeIdle (waiters : List Nat)

namespace Scheduler

variable {α : Type}

abbrev Result (α : Type) := Scheduler × List (SchedulerEffect α)

def andThen (r : Result α) (f : Scheduler → Result α) : Result α :=
  let r' := f r.1
  (r'.1, r.2 ++ r'.2)

def forEach {β : Type} (f : β → Scheduler → Result α) (items : List β) (s : Scheduler) : Result α :=
  items.foldl (fun r b => andThen r (f b)) (s, [])

def note (point : String) (t : Task) (rest : List (String × Value)) : SchedulerEffect α :=
  .trace (.debug .scheduler point ([("id", .nat t.id), ("label", .text t.spec.label)] ++ rest))

def task? (s : Scheduler) (id : Nat) : Option Task := Dict.get? s.tasks id

def put (s : Scheduler) (t : Task) : Scheduler := { s with tasks := Dict.put s.tasks t.id t }

def count (s : Scheduler) (f : SchedulerCounters → SchedulerCounters) : Scheduler :=
  { s with counters := f s.counters }

def isIdle (s : Scheduler) : Bool :=
  s.running.isEmpty && s.interactive.isEmpty && s.background.isEmpty

def checkIdle (s : Scheduler) : Result α :=
  if s.isIdle && !s.idleWaiters.isEmpty then
    ({ s with idleWaiters := [] }, [.wakeIdle s.idleWaiters])
  else (s, [])

def unqueue (s : Scheduler) (t : Task) : Scheduler :=
  match t.spec.priority with
  | .interactive => { s with interactive := s.interactive.erase t.id }
  | .background => { s with background := s.background.erase t.id }

def enqueue (s : Scheduler) (t : Task) : Scheduler :=
  match t.spec.priority with
  | .interactive => { s with interactive := s.interactive ++ [t.id] }
  | .background => { s with background := s.background ++ [t.id] }

/-- The next task to start and the scheduler without it; interactive tasks come first. -/
def dequeue? (s : Scheduler) : Option (Nat × Scheduler) :=
  match s.interactive, s.background with
  | id :: rest, _ => some (id, { s with interactive := rest })
  | [], id :: rest => some (id, { s with background := rest })
  | [], [] => none

def start (limits : Limits) (id : Nat) (s : Scheduler) : Result α :=
  match s.task? id with
  | none => (s, [])
  | some t =>
    let isTimed := t.spec.priority == .background && 0 < limits.backgroundBudgetMs
    let t := { t with
      state := .running, attempts := t.attempts + 1, attempt := some {}, readSet := none
      supersededBy := none, holdsSlot := true, isTimed := isTimed || t.isTimed }
    ({ s.put t with slotsInUse := s.slotsInUse + 1, running := s.running.erase id ++ [id] },
      (if isTimed then [.startTimer id limits.backgroundBudgetMs] else []) ++
        [note "start" t [("attempt", .nat t.attempts)], .begin id t.attempts])

def pumpAtMost (limits : Limits) : Nat → Scheduler → Result α
  | 0, s => (s, [])
  | n + 1, s =>
    if s.slotsInUse < limits.maxWorkers then
      match s.dequeue? with
      | some (id, s) => andThen (start limits id s) (pumpAtMost limits n)
      | none => (s, [])
    else (s, [])

/-- Start queued tasks while there are slots, then see whether all is over. -/
def pump (limits : Limits) (s : Scheduler) : Result α :=
  andThen (pumpAtMost limits (s.interactive.length + s.background.length) s) checkIdle

def finish (s : Scheduler) (t : Task) (state : TaskState) : Scheduler :=
  (s.put { t with state }).count fun c =>
    match state with
    | .completed => { c with completed := c.completed + 1 }
    | .cancelled => { c with cancelled := c.cancelled + 1 }
    | .superseded => { c with superseded := c.superseded + 1 }
    | .failed => { c with failed := c.failed + 1 }
    | _ => c

def fireToken (reason : CancelReason) (id : Nat) (s : Scheduler) : Result α :=
  match s.task? id with
  | some t =>
    match t.attempt with
    | some ⟨none⟩ => (s.put { t with attempt := some ⟨some reason⟩ }, [.fire id reason])
    | _ => (s, [])
  | none => (s, [])

/-- Cancel a task that is not over. Its attempt, if one is under way, stops at its next safe point
and comes back later. -/
def cancel (reason : CancelReason) (id : Nat) (s : Scheduler) : Result α :=
  match s.task? id with
  | none => (s, [])
  | some t =>
    if t.state.isTerminal then (s, [])
    else
      let s := (s.unqueue t).finish t .cancelled
      andThen (andThen (fireToken reason id s) fun s =>
        (s, [.reject id (.cancelled reason), note "cancel" t [("reason", .text reason.word)]]))
        checkIdle

/-- Submit a task; `reason` is why its caller has given up already, if it has. -/
def submit (limits : Limits) (spec : TaskSpec) (reason : Option CancelReason) (s : Scheduler) :
    Result α :=
  let t : Task := { id := s.nextTask, spec }
  let s := ({ s with nextTask := s.nextTask + 1 }.put t).count fun c =>
    { c with submitted := c.submitted + 1 }
  if s.isDisposed then cancel .disposed t.id s
  else
    let submitted : Result α :=
      (s.enqueue t, [note "submit" t [("priority", .text spec.priority.word)]])
    andThen (andThen submitted fun s =>
      match reason with
      | some r => cancel r t.id s
      | none => (s, [])) (pump limits)

def declare (id : Nat) (read : List ReadEntry) (scope : ReadScope) (s : Scheduler) : Scheduler :=
  match s.task? id with
  | some t => if t.attempt.isSome then s.put { t with readSet := some read, readScope := scope }
    else s
  | none => s

/-- An event meets a task that may be running. Closing its own target cancels it; closing a document
it includes only moves that to the disk, so the answer is still wanted. -/
def invalidateRunning (e : StoreEvent) (id : Nat) (s : Scheduler) : Result α :=
  match s.task? id with
  | none => (s, [])
  | some t =>
    if t.state ≠ .running || !t.isAffectedBy e then (s, [])
    else if e.kind = .close && t.spec.target == some e.uri then cancel .closed id s
    else
      let t := { t with supersededBy := t.supersededBy.orElse fun _ => some e.uri }
      andThen (s.put t, [note "supersede" t [("uri", .text e.uri)]]) (fireToken .superseded id)

/-- A queued task has read nothing, so only the close of its target concerns it. -/
def closeQueued (uri : Uri) (id : Nat) (s : Scheduler) : Result α :=
  match s.task? id with
  | some t => if t.spec.target = some uri then cancel .closed id s else (s, [])
  | none => (s, [])

def invalidate (e : StoreEvent) (s : Scheduler) : Result α :=
  let r := forEach (invalidateRunning e) s.running s
  if e.kind = .close then
    andThen (andThen r fun s => forEach (closeQueued e.uri) s.interactive s) fun s =>
      forEach (closeQueued e.uri) s.background s
  else r

def releaseSlot (t : Task) (s : Scheduler) : Task × Scheduler × List (SchedulerEffect α) :=
  let slots := if t.holdsSlot then s.slotsInUse - 1 else s.slotsInUse
  ({ t with holdsSlot := false, isTimed := false }, { s with slotsInUse := slots },
    if t.isTimed then [.stopTimer t.id] else [])

/-- An attempt was made stale by a change of `uri`: try again, or give up. -/
def supersede (limits : Limits) (t : Task) (uri : Uri) (s : Scheduler) : Result α :=
  if t.spec.priority = .interactive ∧ t.attempts - 1 < limits.maxRestarts ∧ !s.isDisposed then
    let s := (s.put { t with state := .queued }).count fun c =>
      { c with restarts := c.restarts + 1 }
    ({ s with interactive := t.id :: s.interactive },
      [note "restart" t [("attempt", .nat (t.attempts + 1))]])
  else
    let warning : List (SchedulerEffect α) :=
      if t.spec.priority = .interactive then
        [.trace (.log .warn ("[scheduler] " ++ t.spec.label ++ " gave up after " ++
          Text.ofNat t.attempts ++ " attempt(s); " ++ uri ++ " kept changing"))]
      else []
    (s.finish t .superseded, warning ++ [.reject t.id (.superseded uri t.attempts)])

/-- What becomes of a task that is not over when its attempt comes back. -/
def conclude (limits : Limits) (versionOf : Uri → Option Int) (t : Task)
    (outcome : Except Failure α) (s : Scheduler) : Result α :=
  match t.supersededBy, outcome with
  | some uri, _ => supersede limits t uri s
  | none, .ok value =>
    match t.staleUri? versionOf with
    | none => (s.finish t .completed, [.resolve t.id value])
    | some uri =>
      andThen (s, [note "stale-result" t [("uri", .text uri)]]) (supersede limits t uri)
  | none, .error (.cancelled reason) => (s.finish t .cancelled, [.reject t.id (.cancelled reason)])
  | none, .error e => (s.finish t .failed, [.reject t.id e])

def settle (limits : Limits) (versionOf : Uri → Option Int) (id : Nat)
    (outcome : Except Failure α) (s : Scheduler) : Result α :=
  match s.task? id with
  | none => (s, [])
  | some t =>
    let (t, s, released) := releaseSlot t s
    let t := { t with attempt := none }
    let s := { s.put t with running := s.running.erase id }
    andThen (andThen (s, released) fun s =>
      if t.state.isTerminal then (s, []) else conclude limits versionOf t outcome s) (pump limits)

/-- The budget of an attempt is used up: it runs on without a slot. -/
def demote (limits : Limits) (id : Nat) (s : Scheduler) : Result α :=
  match s.task? id with
  | none => (s, [])
  | some t =>
    let t := { t with isTimed := false }
    if t.holdsSlot && t.state == .running then
      let s := ({ s with slotsInUse := s.slotsInUse - 1 }.put { t with holdsSlot := false }).count
        fun c => { c with demoted := c.demoted + 1 }
      andThen (s, [note "demote" t []]) (pump limits)
    else (s.put t, [])

def idle (waiter : Nat) (s : Scheduler) : Result α :=
  if s.isIdle then (s, [.wakeIdle [waiter]])
  else ({ s with idleWaiters := s.idleWaiters ++ [waiter] }, [])

def dispose (s : Scheduler) : Result α :=
  if s.isDisposed then (s, [])
  else
    let s := { s with isDisposed := true }
    forEach (cancel .disposed) (s.interactive ++ s.background ++ s.running) s

/-- Why the token of the attempt under way has fired. -/
def cancelled? (s : Scheduler) (id : Nat) : Option CancelReason :=
  (s.task? id).bind fun t => t.attempt.bind Attempt.cancelled

end Scheduler

end Quill
