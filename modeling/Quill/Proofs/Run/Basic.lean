import Quill.Engine.Session

/-!
# Runs of an engine

A run is any order of what may happen to an engine: the next piece of its own work, a timer that
runs out, the clock that moves, the end of a read that had to wait, and an operation of the client.
Only its own work interrupts the work that has to be done at once.

## Main definitions

* `Operation` — what the client and the files may do.
* `Happening` — one thing that happens.
* `Run` — a session that is reached from a new engine, with all that has happened.
-/

namespace Quill

/-- What the client of an engine may ask of it, and what may become of the files. -/
inductive Operation where
  | open (uri text : Text) (version : Int) (language : Option Text)
  | edit (uri : Text) (changes : List ContentChange) (version : Int)
  | close (uri : Text)
  | ask (ticket : Nat) (q : Query) (token : Option Text)
  | errand (ticket : Nat) (f : Flow Fact)
  | cancelToken (token : Text) (reason : CancelReason)
  | compile (ticket : Nat) (uri : Text)
  | configure (p : ConfigPatch)
  | pinMain (uri : Option Text)
  | focusMain (uri : Option Text) (source : FocusSource)
  | refresh
  | clearCache
  | settle (ticket : Nat)
  | dispose
  | openGate (name : Text)
  | write (uri : Uri) (content : Option FileContent)
  | hold (uri : Uri)
  | release (uri : Uri)

def Operation.apply (e : Engine) : Operation → Engine.Step
  | .open uri text version language =>
    let r := e.open uri text version language
    (r.engine, r.actions)
  | .edit uri changes version =>
    let r := e.edit uri changes version
    (r.engine, r.actions)
  | .close uri =>
    let r := e.close uri
    (r.engine, r.actions)
  | .ask ticket q token => e.ask ticket q token
  | .errand ticket f => e.run ticket f
  | .cancelToken token reason => e.cancelToken token reason
  | .compile ticket uri => e.compile ticket uri
  | .configure p =>
    let r := e.configure p
    (r.engine, r.actions)
  | .pinMain uri =>
    let r := e.pinMain uri
    (r.engine, r.actions)
  | .focusMain uri source =>
    let r := e.focusMain uri source
    (r.engine, r.actions)
  | .refresh => e.refresh
  | .clearCache => e.clearCache
  | .settle ticket => e.settle ticket
  | .dispose => e.dispose
  | .openGate name => e.openGate name
  | .write uri content => ({ e with disk := e.disk.write uri content }, [])
  | .hold uri => ({ e with disk := e.disk.hold uri }, [])
  | .release uri => e.releaseFile uri

inductive Happening where
  /-- The engine does the next thing. -/
  | work
  /-- The first of the timers that are due by `time` runs out. -/
  | timer (time : Nat)
  | tick (time : Nat)
  /-- The `n`-th of the readers that wait goes on. -/
  | read (n : Nat)
  | operation (o : Operation)

namespace Session

variable (s : Session)

def operate (o : Operation) : Session :=
  let r := o.apply s.state
  { state := r.1, agenda := { s.agenda with actions := s.agenda.actions ++ r.2 } }

def readOn? (n : Nat) : Option Session :=
  s.state.parked[n]?.map fun p =>
    { state := { s.state with parked := s.state.parked.eraseIdx n }
      agenda := { s.agenda with ready := s.agenda.ready ++ [(0, .lookUp p.2 p.1)] } }

end Session

def Happening.after? (s : Session) : Happening → Option Session
  | .work => Machine.step? Engine.perform s
  | .timer time =>
    if s.agenda.actions.isEmpty then
      (s.agenda.fire? time).map fun agenda => { s with agenda }
    else none
  | .tick time => some { s with agenda := { s.agenda with clock := max s.agenda.clock time } }
  | .read n => if s.agenda.actions.isEmpty then s.readOn? n else none
  | .operation o => if s.agenda.actions.isEmpty then some (s.operate o) else none

abbrev History := List (Session × Happening)

/-- The session `s` is reached from an engine without documents while `h` happens. -/
inductive Run (host : Host) (config : EngineConfig) : History → Session → Prop where
  | start : Run host config [] (.start (.start host config))
  | step {h : History} {s s' : Session} (x : Happening) (run : Run host config h s)
    (next : x.after? s = some s') : Run host config ((s, x) :: h) s'

namespace Run

variable {host : Host} {config : EngineConfig} {h : History} {s s' : Session}

/-- A history with the session it has led to, after some more has happened; what cannot happen is
passed over. -/
def play : List Happening → History × Session → History × Session
  | [], p => p
  | x :: rest, (h, s) =>
    match x.after? s with
    | some s' => play rest ((s, x) :: h, s')
    | none => play rest (h, s)

theorem of_play (run : Run host config h s) (xs : List Happening) :
    Run host config (play xs (h, s)).1 (play xs (h, s)).2 := by
  induction xs generalizing h s with
  | nil => exact run
  | cons x rest ih =>
    unfold play
    split
    next s' next => exact ih (.step x run next)
    next => exact ih run

theorem play_append (xs ys : List Happening) (p : History × Session) :
    play (xs ++ ys) p = play ys (play xs p) := by
  induction xs generalizing p with
  | nil => rfl
  | cons x rest ih =>
    obtain ⟨h, s⟩ := p
    simp only [List.cons_append, play]
    split <;> exact ih _

theorem mem_of_play {xs : List Happening} {p : Session × Happening} (mem : p ∈ (play xs (h, s)).1) :
    p ∈ h ∨ p.2 ∈ xs := by
  induction xs generalizing h s with
  | nil => exact .inl mem
  | cons x rest ih =>
    unfold play at mem
    split at mem
    next s' _ =>
      obtain before | later := ih mem
      · rcases List.mem_cons.1 before with rfl | before
        · exact .inr List.mem_cons_self
        · exact .inl before
      · exact .inr (List.mem_cons_of_mem _ later)
    next => exact (ih mem).imp_right (List.mem_cons_of_mem _)

/-- A run from a new engine that compiles the language and whose texts are their own digests. -/
def sample (xs : List Happening) : History × Session :=
  play xs ([], .start (.start (.ofCompiler .quill ⟨id⟩) .default))

/-- The engine does the next `n` things. -/
def works (n : Nat) : List Happening := List.replicate n .work

theorem sample_append (xs ys : List Happening) : sample (xs ++ ys) = play ys (sample xs) :=
  play_append xs ys _

theorem of_sample (xs : List Happening) :
    Run (.ofCompiler .quill ⟨id⟩) .default (sample xs).1 (sample xs).2 := of_play .start xs

end Run

end Quill
