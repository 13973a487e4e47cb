/-!
# Agendas

Everything that happens is a piece of work, and pieces never overlap. What has to follow a piece of
work is done right after it, or put off: by turns, until all turns have passed, or by the clock. The
clock moves only when nothing else is left to do.

## Main definitions

* `Action` — what a piece of work asks for: more work, a timer, or something to give out.
* `Agenda` — all that is still to be done, with the clock and what has been given out.
* `Machine` — a state with its agenda; `Machine.step?` does the next thing.
* `Machine.rest` — go on until nothing is left to do now.
* `Machine.advance` — move the clock, timer by timer.
-/

namespace Quill

/-- What a piece of work asks for. Work is of type `ω`, timers are known by `κ`, and what is given
out is of type `ο`. -/
inductive Action (κ ω ο : Type) where
  /-- Do it before anything else. -/
  | now (w : ω)
  /-- Do it after all work that is waiting for its turn, and once more behind it for each of the
  turns to let pass. -/
  | later (turns : Nat) (w : ω)
  /-- Do it when no work is waiting for its turn. -/
  | soon (w : ω)
  /-- Do it when the time has passed. -/
  | setTimer (key : κ) (ms : Nat) (w : ω)
  | clearTimer (key : κ)
  /-- Give something out. -/
  | emit (o : ο)

/-- Work to be done at a moment of the clock. -/
structure Timer (κ ω : Type) where
  key : κ
  due : Nat
  work : ω

/-- What is still to be done: the actions that follow the last piece of work, the work waiting for
its turn with the turns it lets pass, the work put off until there is none, and the timers in the
order in which they were set. -/
structure Agenda (κ ω ο : Type) where
  clock : Nat := 0
  actions : List (Action κ ω ο) := []
  ready : List (Nat × ω) := []
  soon : List ω := []
  timers : List (Timer κ ω) := []
  /-- What has been given out, the latest first. -/
  given : List ο := []

namespace Agenda

variable {κ ω ο : Type} [DecidableEq κ]

def note (a : Agenda κ ω ο) : Action κ ω ο → Agenda κ ω ο
  | .now w => { a with actions := .now w :: a.actions }
  | .later turns w => { a with ready := a.ready ++ [(turns, w)] }
  | .soon w => { a with soon := a.soon ++ [w] }
  | .setTimer key ms w => { a with timers := a.timers ++ [⟨key, a.clock + ms, w⟩] }
  | .clearTimer key => { a with timers := a.timers.filter (·.key ≠ key) }
  | .emit o => { a with given := o :: a.given }

/-- The work whose turn it is, and the agenda without it. Work that lets turns pass goes to the end
of the line. -/
def turn? (a : Agenda κ ω ο) : Option (Option ω × Agenda κ ω ο) :=
  match a.ready, a.soon with
  | (0, w) :: rest, _ => some (some w, { a with ready := rest })
  | (turns + 1, w) :: rest, _ => some (none, { a with ready := rest ++ [(turns, w)] })
  | [], w :: rest => some (some w, { a with soon := rest })
  | [], [] => none

def first? (timers : List (Timer κ ω)) : Option (Timer κ ω) :=
  match timers with
  | [] => none
  | t :: rest => some (rest.foldl (fun best t => if t.due < best.due then t else best) t)

def fire? (a : Agenda κ ω ο) (time : Nat) : Option (Agenda κ ω ο) :=
  match (first? a.timers).filter (·.due ≤ time) with
  | some t =>
    some { a with
      clock := max a.clock t.due
      timers := a.timers.filter (·.key ≠ t.key)
      actions := a.actions ++ [.now t.work] }
  | none => none

def collect (a : Agenda κ ω ο) : List ο × Agenda κ ω ο := (a.given.reverse, { a with given := [] })

end Agenda

structure Machine (σ κ ω ο : Type) where
  state : σ
  agenda : Agenda κ ω ο := {}

namespace Machine

variable {σ κ ω ο : Type} [DecidableEq κ]

/-- How a piece of work changes the state at a moment of the clock, and what it asks for. -/
abbrev Perform (σ κ ω ο : Type) := Nat → ω → σ → σ × List (Action κ ω ο)

def step? (perform : Perform σ κ ω ο) (m : Machine σ κ ω ο) : Option (Machine σ κ ω ο) :=
  match m.agenda.actions with
  | .now w :: rest =>
    let (state, actions) := perform m.agenda.clock w m.state
    some ⟨state, { m.agenda with actions := actions ++ rest }⟩
  | action :: rest => some { m with agenda := ({ m.agenda with actions := rest }).note action }
  | [] =>
    m.agenda.turn?.map fun (w?, agenda) =>
      { m with agenda := { agenda with actions := w?.toList.map .now } }

def run (perform : Perform σ κ ω ο) : Nat → Machine σ κ ω ο → Machine σ κ ω ο
  | 0, m => m
  | n + 1, m =>
    match m.step? perform with
    | some m => run perform n m
    | none => m

/-- More steps than any run takes that comes to an end in reasonable time. -/
def patience : Nat := 1000000000000

def rest (perform : Perform σ κ ω ο) (m : Machine σ κ ω ο) : Machine σ κ ω ο :=
  run perform patience m

/-- Do what follows the last piece of work at once, and nothing that waits for its turn; in at most
`n` steps. -/
def settleAtMost (perform : Perform σ κ ω ο) : Nat → Machine σ κ ω ο → Machine σ κ ω ο
  | 0, m => m
  | n + 1, m =>
    if m.agenda.actions.isEmpty then m
    else
      match m.step? perform with
      | some m => settleAtMost perform n m
      | none => m

/-- Change the state from outside, and do what follows from that at once. -/
def act (perform : Perform σ κ ω ο) (state : σ) (actions : List (Action κ ω ο))
    (m : Machine σ κ ω ο) : Machine σ κ ω ο :=
  settleAtMost perform patience
    ⟨state, { m.agenda with actions := m.agenda.actions ++ actions }⟩

/-- Fire the timers that are due by `time` one after another, each followed by all that it sets off;
at most `n` timers. -/
def fireUntil (perform : Perform σ κ ω ο) (time : Nat) : Nat → Machine σ κ ω ο → Machine σ κ ω ο
  | 0, m => m
  | n + 1, m =>
    match m.agenda.fire? time with
    | some agenda => fireUntil perform time n (rest perform { m with agenda })
    | none => m

def advance (perform : Perform σ κ ω ο) (ms : Nat) (m : Machine σ κ ω ο) : Machine σ κ ω ο :=
  let time := m.agenda.clock + ms
  let m := fireUntil perform time patience m
  { m with agenda := { m.agenda with clock := max m.agenda.clock time } }

end Machine

end Quill
