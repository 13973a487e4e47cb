import Quill.Proofs.Scheduler.Operations

/-!
# Runs of the scheduler

A scheduler is called by those who want tasks done, by the documents when they change, by attempts
that say what they have read and that come back, and by the timers of budgets. A run is a list of
such calls, in any order; all that is asked of them is that an attempt comes back once and that a
timer was started before it fires. What the limits and the versions of the documents are may differ
from call to call.

## Main definitions

* `Scheduler.Call`, `Call.apply`, `Call.Allowed` — the calls.
* `Scheduler.Moment` — a call, and the scheduler it met.
* `Scheduler.Reached` — a scheduler is reached by a history, the latest moment first.
* `Scheduler.play` — the history of given calls.
-/

namespace Quill.Scheduler

variable {α : Type} {s s' : Scheduler} {id : Nat} {t : Task} {limits : Limits}

inductive Call (α : Type) where
  | submit (spec : TaskSpec) (reason : Option CancelReason)
  /-- An attempt of a task says what it has read. -/
  | declare (task attempt : Nat) (read : List ReadEntry) (scope : ReadScope)
  | invalidate (e : StoreEvent)
  | cancel (reason : CancelReason) (task : Nat)
  /-- An attempt of a task comes back. -/
  | settle (task attempt : Nat) (outcome : Except Failure α)
  /-- The budget of a task is used up. -/
  | demote (task : Nat)
  | idle (waiter : Nat)
  | dispose

def underWay? (s : Scheduler) (id : Nat) : Option Nat :=
  (s.task? id).bind fun t => t.attempt.map fun _ => t.attempts

/-- Whether the budget of an attempt of a task is being timed. -/
def isTimed (s : Scheduler) (id : Nat) : Bool := (s.task? id).any Task.isTimed

/-- What a call does. An attempt that is no longer under way speaks to nobody. -/
def Call.apply (limits : Limits) (versionOf : Uri → Option Int) (s : Scheduler) :
    Call α → Result α
  | .submit spec reason => Scheduler.submit limits spec reason s
  | .declare id n read scope =>
    (if s.underWay? id = some n then s.declare id read scope else s, [])
  | .invalidate e => Scheduler.invalidate e s
  | .cancel reason id => Scheduler.cancel reason id s
  | .settle id _ outcome => Scheduler.settle limits versionOf id outcome s
  | .demote id => Scheduler.demote limits id s
  | .idle waiter => Scheduler.idle waiter s
  | .dispose => Scheduler.dispose s

/-- Only an attempt that is under way comes back, and only a timer that runs fires. -/
def Call.Allowed (s : Scheduler) : Call α → Bool
  | .settle id n _ => s.underWay? id == some n
  | .demote id => s.isTimed id
  | _ => true

theorem underWay?_eq_some_iff {n : Nat} :
    s.underWay? id = some n ↔ ∃ t, s.task? id = some t ∧ t.attempt.isSome ∧ t.attempts = n := by
  simp only [underWay?, Option.bind_eq_some_iff, Option.map_eq_some_iff, Option.isSome_iff_exists]
  grind

/-- A call, with the scheduler it met and the limits and versions it found. -/
structure Moment (α : Type) where
  limits : Limits
  versionOf : Uri → Option Int
  before : Scheduler
  call : Call α

namespace Moment

def result (m : Moment α) : Result α := m.call.apply m.limits m.versionOf m.before

def after (m : Moment α) : Scheduler := m.result.1

def effects (m : Moment α) : List (SchedulerEffect α) := m.result.2

end Moment

/-- The scheduler `s` is reached from an empty one by a history, the latest moment first. -/
inductive Reached : List (Moment α) → Scheduler → Prop where
  | start : Reached [] {}
  | step {m : Moment α} {h : List (Moment α)} (before : Reached h m.before)
      (allowed : m.call.Allowed m.before) : Reached (m :: h) m.after

/-- The history of given calls, the latest first as well, under limits and versions that stay as
they are. -/
def play (limits : Limits) (versionOf : Uri → Option Int) :
    List (Call α) → List (Moment α) × Scheduler
  | [] => ([], {})
  | c :: earlier =>
    let (h, s) := play limits versionOf earlier
    let m : Moment α := ⟨limits, versionOf, s, c⟩
    (m :: h, m.after)

/-- Calls that are all allowed when they are made make a run. -/
theorem reached_play (versionOf : Uri → Option Int) (calls : List (Call α))
    (allowed : (play limits versionOf calls).1.all fun m => m.call.Allowed m.before) :
    Reached (play limits versionOf calls).1 (play limits versionOf calls).2 := by
  induction calls with
  | nil => exact .start
  | cons c earlier ih =>
    simp only [play, List.all_cons, Bool.and_eq_true] at allowed ⊢
    exact .step (ih allowed.2) allowed.1

theorem limits_of_mem_play {versionOf : Uri → Option Int} {calls : List (Call α)} {m : Moment α}
    (hm : m ∈ (play limits versionOf calls).1) : m.limits = limits := by
  induction calls with
  | nil => simp [play] at hm
  | cons c earlier ih =>
    rcases List.mem_cons.1 hm with rfl | hm
    · rfl
    · exact ih hm

end Quill.Scheduler
