import Quill.Proofs.Publisher.Pushes
import Quill.Proofs.Publisher.Starts
import Quill.Proofs.Run.Pieces

/-!
# What the publisher hears of in a run

The publisher of a session is called by the work of the engine and by its client. All calls of a
run, with what the publisher saw at the time, are a run of the publisher. What a call pushes is
given out before any other work is done, so that all pushes are given out in the order of the calls.

## Main definitions

* `Session.publication?` — the call that something that happens makes on the publisher.
* `History.publications` — all calls of a run.
* `Engine.Publishes` — a step of the engine makes a call and gives out what that pushes.

## Main statements

* `Run.publications` — the calls lead to the publisher of the session, and what they push is given
  out.
-/

namespace Quill

open PublisherEffect (push?)

def EngineWork.call? : EngineWork → Option Publisher.Call
  | .changed e => some (.hear e)
  | .timerRanOut root => some (.fire root)
  | .flush .. => some .fireAll
  | .runEnded run root r => some (.ended run root (r.map Engine.diagnosticSet?))
  | .retire run => some (.retire run)
  | _ => none

namespace Operation

/-- The call that an operation makes on the publisher, with what that sees. -/
def publication? (e : Engine) : Operation → Option Publisher.Moment
  | .refresh => some ⟨e.surroundings, e.publisher, .refresh e.store.all⟩
  | .configure p =>
    let config := e.config.patch p
    let hash (s : CompileSettings) : Text :=
      e.host.digest.ofValue (FingerprintInput.settingsValue s)
    if hash e.config.compile != hash config.compile then
      some ⟨{ e.surroundings with debounceMs := config.debounceMs }, e.publisher,
        .refresh e.store.all⟩
    else none
  | .pinMain uri => some ⟨e.surroundings, e.publisher, .pin (uri.map Uri.ofInput)⟩
  | .focusMain uri source =>
    let isRefused :=
      match source with
      | .command => false
      | .activity => e.focusedByCommand
      | .open => e.focusedByCommand || e.focusedByActivity
    if isRefused || uri.map Uri.ofInput = e.publisher.focus then none
    else some ⟨e.surroundings, e.publisher, .refocus (uri.map Uri.ofInput)⟩
  | .dispose => if e.isDisposed then none else some ⟨e.surroundings, e.publisher, .dispose⟩
  | _ => none

end Operation

/-- The call that something that happens makes on the publisher, with what that sees. -/
def Session.publication? (s : Session) : Happening → Option Publisher.Moment
  | .work =>
    match s.agenda.actions with
    | .now w :: _ => w.call?.map fun c => ⟨s.state.surroundings, s.state.publisher, c⟩
    | _ => none
  | .operation o => o.publication? s.state
  | _ => none

/-- All calls on the publisher, the latest first. -/
def History.publications (h : History) : List Publisher.Moment :=
  h.filterMap fun p => p.1.publication? p.2

/-! ## What is given out -/

def EngineOutput.pushed? : EngineOutput → Option Push
  | .push uri _ diagnostics => some (uri, diagnostics)
  | _ => none

def Action.pushed? : EngineAction → Option Push
  | .emit o => o.pushed?
  | _ => none

def pushesOf (actions : List EngineAction) : List Push := actions.filterMap Action.pushed?

def Session.pushes (s : Session) : List Push :=
  (pushesOf s.agenda.actions).reverse ++ s.agenda.given.filterMap EngineOutput.pushed?

@[simp] theorem pushesOf_nil : pushesOf [] = [] := rfl

@[simp] theorem pushesOf_cons (a : EngineAction) (rest : List EngineAction) :
    pushesOf (a :: rest) = a.pushed?.toList ++ pushesOf rest := by
  unfold pushesOf
  cases h : a.pushed? <;> simp [h]

@[simp] theorem pushesOf_append (a b : List EngineAction) :
    pushesOf (a ++ b) = pushesOf a ++ pushesOf b := by simp [pushesOf]

theorem pushesOf_eq_nil_iff {actions : List EngineAction} :
    pushesOf actions = [] ↔ ∀ a ∈ actions, a.pushed? = none := by simp [pushesOf]

theorem pushesOf_map {β : Type} {f : β → EngineAction} (quiet : ∀ b, (f b).pushed? = none)
    (l : List β) : pushesOf (l.map f) = [] := by
  rw [pushesOf_eq_nil_iff]
  intro a ha
  obtain ⟨b, -, rfl⟩ := List.mem_map.1 ha
  exact quiet b

@[simp] theorem pushesOf_traces (ts : List Trace) : pushesOf (Engine.traces ts) = [] :=
  pushesOf_map (fun _ => rfl) ts

@[simp] theorem pushesOf_scheduler (effects : List (SchedulerEffect Fact)) :
    pushesOf (effects.flatMap Engine.schedulerActions) = [] := by
  rw [pushesOf_eq_nil_iff]
  intro a ha
  obtain ⟨f, -, ha⟩ := List.mem_flatMap.1 ha
  cases f <;> simp only [Engine.schedulerActions, List.mem_singleton] at ha <;> subst ha <;> rfl

theorem pushesOf_publisher (effects : List PublisherEffect) :
    pushesOf (effects.flatMap Engine.publisherActions) = effects.filterMap push? := by
  induction effects with
  | nil => rfl
  | cons f rest ih =>
    rw [List.flatMap_cons, pushesOf_append, ih]
    cases f <;> rfl

/-- Whatever the actions push stands before all work. -/
def PushesFirst : List EngineAction → Prop
  | [] => True
  | .now _ :: rest => pushesOf rest = []
  | _ :: rest => PushesFirst rest

theorem pushesFirst_of_quiet {actions : List EngineAction} (quiet : pushesOf actions = []) :
    PushesFirst actions := by
  induction actions with
  | nil => trivial
  | cons a rest ih =>
    simp only [pushesOf_cons, List.append_eq_nil_iff] at quiet
    cases a <;> first | exact ih quiet.2 | exact quiet.2

theorem PushesFirst.append {actions rest : List EngineAction} (h : PushesFirst actions)
    (quiet : pushesOf rest = []) : PushesFirst (actions ++ rest) := by
  induction actions with
  | nil => exact pushesFirst_of_quiet quiet
  | cons a more ih =>
    cases a with
    | now w => simpa [PushesFirst, quiet] using h
    | _ => exact ih h

/-- Where no work is to be done, nothing stands before a push. -/
theorem pushesFirst_of_idle {actions : List EngineAction} (idle : ∀ a ∈ actions, ∀ w, a ≠ .now w) :
    PushesFirst actions := by
  induction actions with
  | nil => trivial
  | cons a rest ih =>
    have rest := ih fun b hb => idle b (List.mem_cons_of_mem _ hb)
    cases a with
    | now w => exact absurd rfl (idle _ List.mem_cons_self w)
    | _ => exact rest

namespace Engine

variable {e e' : Engine}

/-! ## Steps that make no call -/

theorem pushesOf_go (e : Engine) (now : Nat) (o : Owner) (f : Flow Fact) :
    pushesOf (e.go now o f).2 = [] := by
  induction f generalizing e with
  | done r => cases o <;> rfl
  | pause next ih => rfl
  | checkpoint next ih =>
    unfold go
    split <;> rfl
  | compute c next ih =>
    unfold go request
    simp only
    split
    · rfl
    · split
      · simp [Action.pushed?]
      · simp [Action.pushed?]
      · split <;> simp [Action.pushed?]
  | lease scope next ih | build scope next ih =>
    unfold go
    split <;> rfl
  | release id next ih => exact ih _
  | declare read scope next ih => exact ih _
  | look next ih => exact ih _ _
  | trace t next ih | say t next ih =>
    unfold go
    simpa [Action.pushed?, EngineOutput.pushed?] using ih e
  | gate name next ih =>
    unfold go
    split <;> rfl

/-- A step leads to the publisher after a call, if it makes one, and gives out what that pushes
before all work. -/
structure Publishes (e : Engine) (r : Step) (m : Option Publisher.Moment) : Prop where
  met : ∀ m' ∈ m, m'.before = e.publisher ∧ m'.surroundings.digest = e.host.digest ∧
    m'.surroundings.refuses = e.host.refuses
  publisher : r.1.publisher = (m.map Publisher.Moment.after).getD e.publisher
  pushes : pushesOf r.2 = (m.map Publisher.Moment.pushes).getD []
  first : PushesFirst r.2

/-- A step that makes no call and pushes nothing. -/
theorem publishes_none {r : Step} (same : r.1.publisher = e.publisher) (quiet : pushesOf r.2 = []) :
    Publishes e r none :=
  ⟨fun _ mem => by simp at mem, same, quiet, pushesFirst_of_quiet quiet⟩

theorem publishes_go (e : Engine) (now : Nat) (o : Owner) (f : Flow Fact) :
    Publishes e (e.go now o f) none := by
  obtain ⟨_, _, _, went⟩ := e.go_wentTo now o f
  exact publishes_none went.publisher (e.pushesOf_go now o f)

theorem publishes_begin (e : Engine) (now task attempt : Nat) :
    Publishes e (e.begin now task attempt) none := by
  unfold begin
  split
  · exact publishes_go e now _ _
  · exact publishes_none (publishes_go _ now _ _).publisher (pushesOf_go _ now _ _)
  · exact publishes_none rfl rfl

theorem publishes_load (e : Engine) (r : Reader) (uri : Uri) : Publishes e (e.load r uri) none := by
  unfold load
  split <;> exact publishes_none rfl rfl

theorem publishes_collect (e : Engine) (w : SnapshotWaiter) (b : Building) :
    Publishes e (e.collect w b) none := by
  unfold collect
  split
  · exact publishes_none rfl rfl
  · simp only
    split
    · exact publishes_none rfl rfl
    · exact publishes_load e _ _

@[simp] theorem pushesOf_compileEnded (ticket : Nat) (r : Except Failure Compiled) :
    pushesOf (compileEnded ticket r) = [] := by cases r <;> rfl

theorem publishes_compileNext (e : Engine) (ticket : Nat) (o : OneShot) :
    Publishes e (e.compileNext ticket o) none := by
  unfold compileNext
  split
  · exact publishes_none rfl (pushesOf_compileEnded _ _)
  · simp only
    split
    · exact publishes_none rfl rfl
    · exact publishes_load e _ _

/-! ## Steps that make a call -/

/-- A call pushes nothing, or starts no run, so that nothing is to be done before its pushes. -/
theorem pushesFirst_result (m : Publisher.Moment) :
    PushesFirst (m.result.effects.flatMap publisherActions) := by
  obtain none | quiet := m.runs_eq_nil_or_pushes_eq_nil
  · refine pushesFirst_of_idle fun a ha w eq => ?_
    obtain ⟨f, hf, ha⟩ := List.mem_flatMap.1 ha
    have silent : f.run? = .none := List.filterMap_eq_nil_iff.1 none f hf
    cases f with
    | compute run root => simp [PublisherEffect.run?] at silent
    | _ => simp [publisherActions, eq] at ha
  · exact pushesFirst_of_quiet ((pushesOf_publisher _).trans quiet)

/-- A step that asks for what a call asks for. -/
theorem publishes_call (e e' : Engine) (m : Publisher.Moment) (before : m.before = e.publisher)
    (digest : m.surroundings.digest = e.host.digest)
    (refuses : m.surroundings.refuses = e.host.refuses) (after : e'.publisher = m.after) :
    Publishes e (e', m.result.effects.flatMap publisherActions) (some m) where
  met := by
    rintro _ ⟨⟩
    exact ⟨before, digest, refuses⟩
  publisher := after
  pushes := pushesOf_publisher _
  first := pushesFirst_result m

variable {actions : List EngineAction} {m : Option Publisher.Moment}

theorem Publishes.before {front : List EngineAction} (h : Publishes e (e', actions) m)
    (quiet : pushesOf front = []) (idle : ∀ a ∈ front, ∀ w, a ≠ .now w) :
    Publishes e (e', front ++ actions) m where
  met := h.met
  publisher := h.publisher
  pushes := by simp [quiet, h.pushes]
  first := by
    have first := h.first
    clear quiet
    induction front with
    | nil => exact first
    | cons a rest ih =>
      have rest := ih fun b hb => idle b (List.mem_cons_of_mem _ hb)
      cases a with
      | now w => exact absurd rfl (idle _ List.mem_cons_self w)
      | _ => exact rest

theorem Publishes.behind {behind : List EngineAction} (h : Publishes e (e', actions) m)
    (quiet : pushesOf behind = []) : Publishes e (e', actions ++ behind) m where
  met := h.met
  publisher := h.publisher
  pushes := by simp [quiet, h.pushes]
  first := h.first.append quiet

theorem publishes_runEnded (e : Engine) (run : Nat) (root : Uri) (r : Except Failure Fact) :
    Publishes e (e.runEnded run root r)
      (some ⟨e.surroundings, e.publisher, .ended run root (r.map diagnosticSet?)⟩) := by
  unfold runEnded
  generalize r.map diagnosticSet? = found
  have called (e' : Engine) (after : e'.publisher = _) := publishes_call e e'
    ⟨e.surroundings, e.publisher, .ended run root found⟩ rfl rfl rfl after
  rcases found with f | _ | set
  · exact (called e rfl).behind rfl
  · exact (called e rfl).behind rfl
  · exact (called _ rfl).behind rfl

theorem publishes_retire (e : Engine) (run : Nat) :
    Publishes e (e.retire run) (some ⟨e.surroundings, e.publisher, .retire run⟩) := by
  have called (e' : Engine) (after : e'.publisher = _) := publishes_call e e'
    ⟨e.surroundings, e.publisher, .retire run⟩ rfl rfl rfl after
  exact (called _ rfl).behind (pushesOf_map (fun _ => rfl) _)

theorem publishes_fireAll (e : Engine) (ticket : Nat) (thenIdle : Bool) :
    Publishes e (e.fireAll ticket thenIdle) (some ⟨e.surroundings, e.publisher, .fireAll⟩) := by
  have called (e' : Engine) (after : e'.publisher = _) := publishes_call e e'
    ⟨e.surroundings, e.publisher, .fireAll⟩ rfl rfl rfl after
  unfold fireAll andThen
  simp only
  split
  · exact (called _ rfl).behind rfl
  · exact (called _ rfl).behind rfl

/-- A piece of work makes its call, if it has one. -/
theorem publishes_perform (now : Nat) (w : EngineWork) (e : Engine) : Publishes e (perform now w e)
    (w.call?.map fun c => ⟨e.surroundings, e.publisher, c⟩) := by
  have called (c : Publisher.Call) (e' : Engine) (after : e'.publisher = _) :=
    publishes_call e e' ⟨e.surroundings, e.publisher, c⟩ rfl rfl rfl after
  cases w with
  | go o f => exact publishes_go e now o f
  | begin task attempt => exact publishes_begin e now task attempt
  | collect w b => exact publishes_collect e w b
  | compileNext ticket o => exact publishes_compileNext e ticket o
  | changed event => exact called (.hear event) _ rfl
  | timerRanOut root => exact called (.fire root) _ rfl
  | runEnded run root r => exact publishes_runEnded e run root r
  | retire run => exact publishes_retire e run
  | flush ticket thenIdle => exact publishes_fireAll e ticket thenIdle
  | attemptEnded | demote | idle | submitRun => exact publishes_none rfl (pushesOf_scheduler _)
  | register | publishFlight => exact publishes_none rfl (pushesOf_traces _)
  | join | deliver | wakeIdle | settleFlight =>
    exact publishes_none rfl (pushesOf_map (fun _ => rfl) _)
  | lookUp r uri =>
    refine publishes_none rfl ?_
    change pushesOf (e.lookUp r uri) = []
    unfold lookUp
    split
    · rfl
    next w _ _ _ => cases w <;> rfl
    · rfl
  | loaded w b uri text =>
    refine publishes_none rfl ?_
    change pushesOf (e.loaded w b uri text) = []
    unfold loaded
    split <;> rfl
  | received w b uri doc =>
    refine publishes_none rfl ?_
    change pushesOf (e.received w b uri doc) = []
    unfold received
    split
    · rfl
    · cases w <;> rfl
  | assemble w b => cases w <;> exact publishes_none rfl rfl
  | intern o next s =>
    refine publishes_none rfl ?_
    change pushesOf (_ ++ _) = []
    rw [pushesOf_append, pushesOf_map fun _ => rfl]
    rfl
  | compileLoaded ticket o uri text =>
    refine publishes_none rfl ?_
    change pushesOf (e.compileLoaded ticket o uri text) = []
    unfold compileLoaded
    split
    · rfl
    · exact pushesOf_compileEnded _ _
  | fire task reason =>
    refine publishes_none rfl (pushesOf_eq_nil_iff.2 fun a ha => ?_)
    obtain ⟨c, -, ha⟩ := List.mem_flatMap.1 ha
    cases c <;> simp at ha <;> subst ha <;> rfl
  | told task r =>
    refine publishes_none rfl ?_
    change pushesOf (e.told task r) = []
    unfold told
    split <;> rfl
  | runRefused run root refused => cases refused <;> exact publishes_none rfl rfl
  | wake | recheck | verify | rested => exact publishes_none rfl rfl

theorem publishes_afterStore (e : Engine) (r : StoreResult) :
    Publishes e ((e.afterStore r).engine, (e.afterStore r).actions) none := by
  unfold afterStore
  simp only
  split
  · exact publishes_none rfl (pushesOf_traces _)
  · split
    · exact publishes_none rfl (pushesOf_traces _)
    · refine publishes_none rfl ?_
      simp [schedule, Action.pushed?]

theorem publishes_configure (e : Engine) (p : ConfigPatch) :
    Publishes e ((e.configure p).engine, (e.configure p).actions)
      (Operation.publication? e (.configure p)) := by
  have called (w : Surroundings) (digest : w.digest = e.host.digest)
      (refuses : w.refuses = e.host.refuses) (e' : Engine) (after : e'.publisher = _) :=
    publishes_call e e' ⟨w, e.publisher, .refresh e.store.all⟩ rfl digest refuses after
  unfold configure Operation.publication?
  simp only
  split
  · refine (called _ rfl rfl _ rfl).before (pushesOf_traces _) fun a ha w eq => ?_
    obtain ⟨t, -, isIt⟩ := List.mem_map.1 ha
    simp [eq] at isIt
  · exact publishes_none rfl (by simp)

theorem publishes_focusMain (e : Engine) (uri : Option Text) (source : FocusSource) :
    Publishes e ((e.focusMain uri source).engine, (e.focusMain uri source).actions)
      (Operation.publication? e (.focusMain uri source)) := by
  have called (e' : Engine) (after : e'.publisher = _) := publishes_call e e'
    ⟨e.surroundings, e.publisher, .refocus (uri.map Uri.ofInput)⟩ rfl rfl rfl after
  unfold focusMain Operation.publication?
  simp only
  have idle (t : Trace) : ∀ a ∈ [(.emit (.trace t) : EngineAction)], ∀ w, a ≠ .now w := by simp
  by_cases same : uri.map Uri.ofInput = e.publisher.focus
  · cases source <;> simp only [same, decide_true, Bool.or_true, if_true] <;> split <;>
      exact publishes_none (by simp) rfl
  · cases source <;> simp only [same, decide_false, Bool.or_false, if_false] <;> split <;>
      first
        | exact publishes_none rfl rfl
        | exact (called _ rfl).before rfl (idle _)

theorem publishes_apply (e : Engine) (o : Operation) :
    Publishes e (o.apply e) (o.publication? e) := by
  have called (c : Publisher.Call) (e' : Engine) (after : e'.publisher = _) :=
    publishes_call e e' ⟨e.surroundings, e.publisher, c⟩ rfl rfl rfl after
  cases o with
  | «open» | edit | close => exact publishes_afterStore e _
  | ask ticket q token =>
    refine publishes_none ?_ ?_ <;> unfold Operation.apply ask <;> simp only <;> split
    · rfl
    · rfl
    · rfl
    · exact pushesOf_scheduler _
  | cancelToken token reason =>
    refine publishes_none ?_ ?_ <;> unfold Operation.apply cancelToken <;> simp only <;> split
    · rfl
    · rfl
    · rfl
    · exact pushesOf_scheduler _
  | configure p => exact publishes_configure e p
  | pinMain uri => exact called (.pin (uri.map Uri.ofInput)) _ rfl
  | focusMain uri source => exact publishes_focusMain e uri source
  | refresh => exact called (.refresh e.store.all) _ rfl
  | clearCache => exact publishes_none rfl (pushesOf_traces _)
  | dispose =>
    unfold Operation.apply dispose Operation.publication?
    simp only
    split
    · exact publishes_none rfl rfl
    · have silent := called .dispose { e with publisher := e.publisher.dispose.publisher } rfl
      have none : (Publisher.dispose e.publisher).pushes = [] := by
        simp [Publisher.dispose, Publisher.Result.pushes, push?]
      have quiet : pushesOf (e.publisher.dispose.effects.flatMap publisherActions) = [] :=
        (pushesOf_publisher _).trans none
      have all :
          pushesOf (andThen ({ e with isDisposed := true }.schedule Scheduler.dispose) fun e =>
          e.publish fun _ => Publisher.dispose).2 =
            [] := by simp [andThen, schedule, publish, quiet]
      exact ⟨silent.met, rfl, all.trans none.symm, pushesFirst_of_quiet all⟩
  | openGate | release => exact publishes_none rfl (pushesOf_map (fun _ => rfl) _)
  | errand | compile | settle | write | hold => exact publishes_none rfl rfl

end Engine

/-! ## Calls of a run -/

namespace Session

variable {s s' : Session} {x : Happening}

/-- An action that is no work to be done now only gives out what it pushes. -/
theorem pushes_note {a : EngineAction} {rest : List EngineAction} (now : ∀ w, a ≠ .now w)
    (head : s.agenda.actions = a :: rest) :
    pushes { s with agenda := ({ s.agenda with actions := rest } : Agenda _ _ _).note a } =
      s.pushes := by
  cases a with
  | now w => exact absurd rfl (now w)
  | emit o => cases push : o.pushed? <;> simp [pushes, Agenda.note, head, Action.pushed?, push]
  | _ => simp [pushes, Agenda.note, head, Action.pushed?]

theorem actions_note {a : EngineAction} (agenda : Agenda TimerKey EngineWork EngineOutput)
    (now : ∀ w, a ≠ .now w) : (agenda.note a).actions = agenda.actions := by
  cases a with
  | now w => exact absurd rfl (now w)
  | _ => rfl

theorem turn_quiet {w? : Option EngineWork} {agenda : Agenda _ _ _}
    (turn : s.agenda.turn? = some (w?, agenda)) : agenda.given = s.agenda.given := by
  unfold Agenda.turn? at turn
  split at turn
  case h_4 => simp at turn
  all_goals
    obtain ⟨-, rfl⟩ : _ ∧ _ := by simpa using turn
    rfl

/-- What happens leads to the publisher after its call, and what the call pushes is given out after
all that has been pushed before. -/
structure Published (s s' : Session) (m : Option Publisher.Moment) : Prop where
  met : ∀ m' ∈ m, m'.before = s.state.publisher ∧ m'.surroundings.digest = s.state.host.digest ∧
    m'.surroundings.refuses = s.state.host.refuses
  publisher : s'.state.publisher = (m.map Publisher.Moment.after).getD s.state.publisher
  pushes : s'.pushes = (m.map fun m => m.pushes.reverse).getD [] ++ s.pushes
  first : PushesFirst s'.agenda.actions

theorem published_none (publisher : s'.state.publisher = s.state.publisher)
    (pushes : s'.pushes = s.pushes) (first : PushesFirst s'.agenda.actions) :
    Published s s' none := ⟨fun _ mem => by simp at mem, publisher, pushes, first⟩

/-- Everything that may happen makes its call, if it has one. -/
theorem published (next : x.after? s = some s') (first : PushesFirst s.agenda.actions) :
    Published s s' (s.publication? x) := by
  cases x with
  | work =>
    simp only [Happening.after?, Machine.step?] at next
    split at next
    next w rest head =>
      obtain rfl := Option.some.inj next
      obtain ⟨met, publisher, pushes, before⟩ :=
        Engine.publishes_perform s.agenda.clock w s.state
      have quiet : pushesOf rest = [] := by simpa [head, PushesFirst] using first
      simp only [publication?, head]
      refine ⟨met, publisher, ?_, before.append quiet⟩
      cases call : w.call? <;>
        simp [Session.pushes, head, quiet, pushes, call, Action.pushed?]
    next a rest now head =>
      obtain rfl := Option.some.inj next
      have now : ∀ w, a ≠ .now w := fun w eq => now w (eq ▸ rfl)
      have none : s.publication? .work = none := by
        cases a with
        | now w => exact absurd rfl (now w)
        | _ => simp [publication?, head]
      rw [none]
      refine published_none rfl (pushes_note now head) ?_
      rw [actions_note _ now]
      rw [head] at first
      cases a with
      | now w => exact absurd rfl (now w)
      | _ => exact first
    next head =>
      obtain ⟨⟨w?, agenda⟩, turn, rfl⟩ := Option.map_eq_some_iff.1 next
      have quiet : pushesOf (w?.toList.map .now) = [] := pushesOf_map (fun _ => rfl) _
      simp only [publication?, head]
      refine published_none rfl ?_ (pushesFirst_of_quiet quiet)
      simp [Session.pushes, head, quiet, turn_quiet turn]
  | timer time =>
    simp only [Happening.after?] at next
    split at next
    next idle =>
      obtain ⟨agenda, fire, rfl⟩ := Option.map_eq_some_iff.1 next
      have idle := List.isEmpty_iff.1 idle
      unfold Agenda.fire? at fire
      split at fire
      next t ht =>
        obtain rfl := Option.some.inj fire
        refine published_none rfl ?_ (by simp [idle, PushesFirst])
        simp [Session.pushes, idle, Action.pushed?]
      next => simp at fire
    next => simp at next
  | tick time =>
    obtain rfl := Option.some.inj next
    exact published_none rfl rfl first
  | read n =>
    simp only [Happening.after?] at next
    split at next
    next =>
      obtain ⟨p, -, rfl⟩ := Option.map_eq_some_iff.1 next
      exact published_none rfl rfl first
    next => simp at next
  | operation o =>
    simp only [Happening.after?] at next
    split at next
    next idle =>
      obtain rfl := Option.some.inj next
      have idle := List.isEmpty_iff.1 idle
      obtain ⟨met, publisher, pushes, before⟩ := Engine.publishes_apply s.state o
      refine ⟨met, publisher, ?_, by simpa [operate, idle] using before⟩
      cases call : o.publication? s.state <;>
        simp [Session.pushes, operate, idle, pushes, publication?, call]
    next => simp at next

end Session

namespace Run

variable {host : Host} {config : EngineConfig} {h : History} {s : Session}

/-- The host of an engine never changes. -/
theorem host_eq (run : Run host config h s) : s.state.host = host := by
  induction run with
  | start => rfl
  | step x run next ih => exact ((Happening.does next).keeps run.sound).1.trans ih

/-- The calls of a run lead to the publisher of the session, and what they push is given out, in
order. -/
theorem publications (run : Run host config h s) :
    Publisher.Reached host.digest h.publications s.state.publisher ∧
      s.pushes = Publisher.pushed h.publications ∧ PushesFirst s.agenda.actions ∧
      ∀ m ∈ h.publications, m.surroundings.refuses = host.refuses := by
  induction run with
  | start => exact ⟨.start, rfl, trivial, by simp [History.publications]⟩
  | @step h s s' x run next ih =>
    obtain ⟨reached, pushes, first, refuses⟩ := ih
    obtain ⟨met, publisher, pushes', first'⟩ := Session.published next first
    rw [publisher, pushes', pushes]
    unfold History.publications at *
    rw [List.filterMap_cons]
    cases call : s.publication? x with
    | none => exact ⟨reached, rfl, first', refuses⟩
    | some m =>
      obtain ⟨before, digest, refuses'⟩ := met m call
      rw [run.host_eq] at digest refuses'
      refine ⟨.step (before ▸ reached) digest, by simp [Publisher.pushed], first', fun m' mem => ?_⟩
      rcases List.mem_cons.1 mem with rfl | mem
      · exact refuses'
      · exact refuses m' mem

end Run

end Quill
