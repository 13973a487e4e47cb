import Quill.Proofs.Run.Pieces

/-!
# What is under way is carried on

No piece of work is lost. What waits in the engine waits on, or goes on; what is in the agenda stays
there until it is done, whatever the clock says. Timers are left out here: they may be stopped.

## Main definitions

* `sureOf`, `Session.carried` — the work that is done sooner or later, whatever the clock says.
* `EngineWork.GoesOn` — a piece stays, or it is a call that has been told something.
* `Engine.Keeps` — what waits in the engine waits on or goes on; `perform_keeps` and `apply_keeps`
  say that it always does.
* `Happening.Carries` — what happens to the pieces that do not depend on the clock.

## Main statements

* `Happening.Carries.goesOn` — whatever happens, a piece goes on, unless it is the work that is
  done.
-/

namespace Quill

/-- The work of an action that does not depend on the clock. -/
def Action.sure? {κ ω ο : Type} : Action κ ω ο → Option ω
  | .now w | .later _ w | .soon w => some w
  | _ => none

def sureOf (actions : List EngineAction) : List EngineWork := actions.filterMap Action.sure?

@[simp] theorem sureOf_nil : sureOf [] = [] := rfl

@[simp] theorem sureOf_cons (a : EngineAction) (rest : List EngineAction) :
    sureOf (a :: rest) = a.sure?.toList ++ sureOf rest := by
  unfold sureOf
  cases h : a.sure? <;> simp [h]

@[simp] theorem sureOf_append (a b : List EngineAction) :
    sureOf (a ++ b) = sureOf a ++ sureOf b := by
  simp [sureOf]

theorem mem_worksOf_of_sureOf {actions : List EngineAction}
    {x : EngineWork} (mem : x ∈ sureOf actions) :
    x ∈ worksOf actions := by
  obtain ⟨a, ha, eq⟩ := List.mem_filterMap.1 mem
  refine List.mem_filterMap.2 ⟨a, ha, ?_⟩
  cases a <;> first | exact eq | cases eq

/-- Everything under way in a session that does not depend on the clock. -/
def Session.carried (s : Session) : List EngineWork :=
  sureOf s.agenda.actions ++ (s.agenda.ready.map Prod.snd ++ (s.agenda.soon ++ s.state.held))

/-- The piece stays, or it is a call that has been told something. -/
inductive EngineWork.GoesOn : EngineWork → EngineWork → Prop where
  | stays (x : EngineWork) : GoesOn x x
  | told (id : Nat) (call : Call) (r : Except Failure Fact) :
    GoesOn (.join id call) (.go call.owner (call.next r))

theorem Session.mem_pieces_of_carried {s : Session} {x : EngineWork} (mem : x ∈ s.carried) :
    x ∈ s.pieces := by
  simp only [carried, pieces, works, List.mem_append] at mem ⊢
  rcases mem with mem | mem | mem | mem
  · exact .inl (.inl (mem_worksOf_of_sureOf mem))
  · exact .inl (.inr (.inl mem))
  · exact .inl (.inr (.inr (.inl mem)))
  · exact .inr mem

namespace Engine

variable {e e' : Engine} {x : EngineWork} {actions : List EngineAction}

/-- What is under way after a step of the engine and does not depend on the clock. -/
def carried (r : Step) : List EngineWork := sureOf r.2 ++ r.1.held

/-- What waits in the engine waits on, or goes on. -/
structure Keeps (e : Engine) (r : Step) : Prop where
  apart : e.cache.Apart → r.1.cache.Apart
  held : e.cache.Apart → ∀ x ∈ e.held, ∃ y ∈ carried r, x.GoesOn y

/-- What waits is in one of three places. -/
theorem mem_held : x ∈ e.held ↔ (∃ w ∈ e.cache.waiters, .join w.flight w.call = x) ∨
    (∃ p ∈ e.parked, .lookUp p.2 p.1 = x) ∨ ∃ w ∈ e.waiting, .go w.2.1 w.2.2 = x := by
  simp [Engine.held]

/-- Something more waits, perhaps. -/
theorem keeps_more (calls : e.cache.SameCalls e'.cache) (parked : e.parked ⊆ e'.parked)
    (waiting : e.waiting ⊆ e'.waiting) : Keeps e (e', actions) where
  apart := calls.hands.apart
  held := by
    intro _ x hx
    refine ⟨x, List.mem_append_right _ (mem_held.2 ?_), .stays x⟩
    rw [calls.waiters]
    exact (mem_held.1 hx).imp_right (Or.imp (fun ⟨p, hp, eq⟩ => ⟨p, parked hp, eq⟩)
      fun ⟨w, hw, eq⟩ => ⟨w, waiting hw, eq⟩)

theorem keeps_calls (calls : e.cache.SameCalls e'.cache) (parked : e'.parked = e.parked)
    (waiting : e'.waiting = e.waiting) : Keeps e (e', actions) :=
  keeps_more calls (parked ▸ List.Subset.refl _) (waiting ▸ List.Subset.refl _)

theorem keeps_same (cache : e'.cache = e.cache) (parked : e'.parked = e.parked)
    (waiting : e'.waiting = e.waiting) : Keeps e (e', actions) :=
  keeps_calls ⟨cache ▸ rfl, cache ▸ rfl⟩ parked waiting

/-- Calls that no longer wait go on. -/
theorem keeps_hands {c : Cache Nat Call Fact Number}
    {calls : List Call} (hands : e.cache.Hands c calls)
    (told : ∀ call ∈ calls, ∃ r, .go call.owner (call.next r) ∈ sureOf actions) :
    Keeps e ({ e with cache := c }, actions) where
  apart := hands.apart
  held := by
    intro apart x hx
    rcases mem_held.1 hx with ⟨w, hw, rfl⟩ | others
    · rcases hands.kept apart.numbered w hw with stays | goes
      · exact ⟨_, List.mem_append_right _ (mem_held.2 (.inl ⟨w, stays, rfl⟩)), .stays _⟩
      · obtain ⟨r, mem⟩ := told _ goes
        exact ⟨_, List.mem_append_left _ mem, .told w.flight w.call r⟩
    · exact ⟨x, List.mem_append_right _ (mem_held.2 (.inr others)), .stays x⟩

/-! ## Kinds of work -/

theorem request_keeps (e : Engine) (now : Nat) (o : Owner) (c : Computation)
    (next : Except Failure Fact → Flow Fact) : Keeps e (e.request now o c next) := by
  unfold request
  split
  · exact keeps_same rfl rfl rfl
  · simp only
    split <;> exact keeps_calls (Cache.sameCalls_ask _ _ _ _) rfl rfl

theorem go_keeps (e : Engine) (now : Nat) (o : Owner) (f : Flow Fact) : Keeps e (e.go now o f) := by
  induction f generalizing e with
  | done r => exact keeps_same rfl rfl rfl
  | pause next => exact keeps_same rfl rfl rfl
  | checkpoint next | lease scope next | build scope next =>
    unfold go
    split <;> exact keeps_same rfl rfl rfl
  | compute c next => exact request_keeps e now o c next
  | release id next ih =>
    have h := ih { e with leases := e.leases.release id }
    exact ⟨h.apart, h.held⟩
  | declare read scope next ih =>
    cases o with
    | attempt task =>
      have h := ih { e with scheduler := e.scheduler.declare task read scope }
      exact ⟨h.apart, h.held⟩
    | flight id | errand ticket => exact ih e
  | look next ih => exact ih _ e
  | trace t next ih | say t next ih => exact ⟨(ih e).apart, (ih e).held⟩
  | gate name next =>
    unfold go
    split
    · exact keeps_same rfl rfl rfl
    · exact keeps_more ⟨rfl, rfl⟩ (List.Subset.refl _) (List.subset_append_left _ _)

theorem load_keeps (e : Engine) (reader : Reader) (uri : Uri) : Keeps e (e.load reader uri) := by
  unfold load
  split
  · exact keeps_more ⟨rfl, rfl⟩ (List.subset_append_left _ _) (List.Subset.refl _)
  · exact keeps_same rfl rfl rfl

theorem collect_keeps (e : Engine) (w : SnapshotWaiter) (b : Building) :
    Keeps e (e.collect w b) := by
  unfold collect
  split
  · exact keeps_same rfl rfl rfl
  · simp only
    split
    · exact keeps_same rfl rfl rfl
    · exact load_keeps e _ _

theorem compileNext_keeps (e : Engine) (ticket : Nat) (o : OneShot) :
    Keeps e (e.compileNext ticket o) := by
  unfold compileNext
  split
  · exact keeps_same rfl rfl rfl
  · simp only
    split
    · exact keeps_same rfl rfl rfl
    · exact load_keeps e _ _

theorem begin_keeps (e : Engine) (now task attempt : Nat) : Keeps e (e.begin now task attempt) := by
  unfold Engine.begin
  split
  next => exact go_keeps ..
  next root _ =>
    generalize (Dict.get? e.computed root).getD 0 = n
    have h := go_keeps { e with computed := Dict.put e.computed root (n + 1) } now (.attempt task)
      (e.host.diagnose root n)
    exact ⟨h.apart, h.held⟩
  next => exact keeps_same rfl rfl rfl

theorem join_keeps (e : Engine) (id : Nat) (call : Call) : Keeps e (e.join id call) where
  apart := fun apart => apart.wait ..
  held := by
    intro _ x hx
    refine ⟨x, List.mem_append_right _ (mem_held.2 ?_), .stays x⟩
    exact (mem_held.1 hx).imp_left fun ⟨w, hw, eq⟩ => ⟨w, List.mem_append_left _ hw, eq⟩

theorem deliver_keeps (e : Engine) (waiter : Nat) (r : Except Failure Fact) :
    Keeps e (e.deliver waiter r) := by
  refine keeps_hands (Cache.deliver_hands e.cache waiter) fun call hc => ⟨r, ?_⟩
  exact List.mem_filterMap.2 ⟨_, List.mem_map.2 ⟨call, hc, rfl⟩, rfl⟩

theorem fire_keeps (e : Engine) (task : Nat) (reason : CancelReason) :
    Keeps e (e.fire task reason) := by
  refine keeps_hands (Cache.cancel_hands e.cache (.caller task) reason) fun call hc => ?_
  obtain ⟨c, mem, eq⟩ := List.mem_filterMap.1 hc
  cases c with
  | trace | abandoned => simp at eq
  | refused refused why =>
    obtain rfl := Option.some.inj eq
    refine ⟨.error (.cancelled why), List.mem_filterMap.2 ⟨.later 1 _, ?_, rfl⟩⟩
    exact List.mem_flatMap.2 ⟨.refused refused why, mem, List.mem_singleton.2 rfl⟩

/-- A piece of work takes up nothing that waits, unless it tells it something. -/
theorem perform_keeps (now : Nat) (w : EngineWork) (e : Engine) : Keeps e (perform now w e) := by
  cases w with
  | go o f => exact go_keeps e now o f
  | begin task attempt => exact begin_keeps e now task attempt
  | join id call => exact join_keeps e id call
  | deliver waiter r => exact deliver_keeps e waiter r
  | fire task reason => exact fire_keeps e task reason
  | collect w b => exact collect_keeps e w b
  | compileNext ticket o => exact compileNext_keeps e ticket o
  | register id => exact keeps_calls (Cache.sameCalls_register _ _) rfl rfl
  | publishFlight id => exact keeps_calls (Cache.sameCalls_publish _ _ _) rfl rfl
  | flush ticket thenIdle =>
    simp only [perform, fireAll, andThen]
    split <;> exact keeps_same rfl rfl rfl
  | runEnded run root r =>
    simp only [perform, runEnded]
    split <;> exact keeps_same rfl rfl rfl
  | settleFlight id r => exact keeps_calls ⟨rfl, rfl⟩ rfl rfl
  | wake | recheck | lookUp | loaded | received | assemble | intern | compileLoaded
  | attemptEnded | demote | told | wakeIdle | changed | timerRanOut | submitRun | verify
  | runRefused
  | retire | idle | rested => exact keeps_same rfl rfl rfl

/-! ## Operations -/

theorem openGate_keeps (e : Engine) (name : Text) : Keeps e (e.openGate name) where
  apart := id
  held := by
    intro _ x hx
    refine ⟨x, ?_, .stays x⟩
    simp only [carried, openGate, List.partition_eq_filter_filter, List.mem_append, mem_held]
    obtain calls | parked | ⟨w, hw, rfl⟩ := mem_held.1 hx
    · exact .inr (.inl calls)
    · exact .inr (.inr (.inl parked))
    · by_cases named : w.1 = name
      · have free : w ∈ e.waiting.filter (·.1 = name) := by simp [hw, named]
        exact .inl (List.mem_filterMap.2 ⟨_, List.mem_map.2 ⟨w, free, rfl⟩, rfl⟩)
      · exact .inr (.inr (.inr ⟨w, by simp [hw, named], rfl⟩))

theorem releaseFile_keeps (e : Engine) (uri : Uri) : Keeps e (e.releaseFile uri) where
  apart := id
  held := by
    intro _ x hx
    refine ⟨x, ?_, .stays x⟩
    simp only [carried, releaseFile, List.partition_eq_filter_filter, List.mem_append, mem_held]
    obtain calls | ⟨p, hp, rfl⟩ | waiting := mem_held.1 hx
    · exact .inr (.inl calls)
    · by_cases named : p.1 = uri
      · have free : p ∈ e.parked.filter (·.1 = uri) := by simp [hp, named]
        exact .inl (List.mem_filterMap.2
          ⟨_, List.mem_map.2 ⟨p, free, rfl⟩, by simp [Action.sure?, named]⟩)
      · exact .inr (.inr (.inl ⟨p, by simp [hp, named], rfl⟩))
    · exact .inr (.inr (.inr waiting))

theorem apply_keeps (o : Operation) (e : Engine) : Keeps e (o.apply e) := by
  cases o with
  | openGate name => exact openGate_keeps e name
  | release uri => exact releaseFile_keeps e uri
  | configure p =>
    simp only [Operation.apply, configure]
    split <;> exact keeps_calls (Cache.trims_setMaxWeight _ _).sameCalls rfl rfl
  | clearCache => exact keeps_calls (Cache.trims_clear _).sameCalls rfl rfl
  | «open» | edit | close =>
    simp only [Operation.apply, Engine.open, edit, close, afterStore]
    split
    · exact keeps_same rfl rfl rfl
    · split <;> exact keeps_same rfl rfl rfl
  | ask ticket q token =>
    simp only [Operation.apply, ask]
    split <;> exact keeps_same rfl rfl rfl
  | cancelToken token reason =>
    simp only [Operation.apply, cancelToken]
    split <;> exact keeps_same rfl rfl rfl
  | focusMain uri source =>
    cases source <;> simp only [Operation.apply, focusMain, Bool.false_eq_true, if_false] <;>
      (repeat' split) <;> exact keeps_same rfl rfl rfl
  | dispose =>
    simp only [Operation.apply, dispose]
    split <;> exact keeps_same rfl rfl rfl
  | errand | compile | pinMain | refresh | settle | write | hold => exact keeps_same rfl rfl rfl

end Engine

/-! ## Sessions -/

namespace Session

variable {s s' : Session} {y : EngineWork}

/-- An action that is no work to be done now puts its work elsewhere. -/
theorem carried_note {a : EngineAction}
    {rest : List EngineAction} (head : s.agenda.actions = a :: rest) (mem : y ∈ s.carried) :
    y ∈ carried { s with agenda := ({ s.agenda with actions := rest } : Agenda _ _ _).note a } := by
  cases a <;> simp [carried, head, Agenda.note, Action.sure?] at mem ⊢ <;> grind

/-- Whose turn it is changes the place of its work. -/
theorem carried_turn {w? : Option EngineWork} {agenda : Agenda _ _ _} (idle : s.agenda.actions = [])
    (turn : s.agenda.turn? = some (w?, agenda)) (mem : y ∈ s.carried) :
    y ∈ carried { s with agenda := { agenda with actions := w?.toList.map .now } } := by
  unfold Agenda.turn? at turn
  split at turn
  case h_4 => simp at turn
  all_goals
    obtain ⟨rfl, rfl⟩ : _ ∧ _ := by simpa using turn
    simp_all [carried, Action.sure?]
    try grind

theorem carried_fire {time : Nat} {agenda : Agenda _ _ _} (fire : s.agenda.fire? time = some agenda)
    (mem : y ∈ s.carried) : y ∈ carried { s with agenda } := by
  unfold Agenda.fire? at fire
  split at fire
  · obtain rfl := Option.some.inj fire
    simp [carried] at mem ⊢
    grind
  · simp at fire

/-- The reader that goes on is one of those that waited. -/
theorem carried_readOn {n : Nat} (read : s.readOn? n = some s') (mem : y ∈ s.carried) :
    y ∈ s'.carried := by
  obtain ⟨⟨uri, reader⟩, found, rfl⟩ := Option.map_eq_some_iff.1 read
  have stays {p : Uri × Reader} (hp : p ∈ s.state.parked) :
      p = (uri, reader) ∨ p ∈ s.state.parked.eraseIdx n := by
    obtain ⟨m, lt, eq⟩ := List.mem_iff_getElem.1 hp
    by_cases same : m = n
    · subst same
      exact .inl (Option.some.inj ((List.getElem?_eq_some_iff.2 ⟨lt, eq⟩).symm.trans found))
    · exact .inr (List.mem_eraseIdx_iff_getElem.2 ⟨m, lt, same, eq⟩)
  simp only [carried, List.mem_append, Engine.mem_held, List.map_append,
    List.map_cons, List.map_nil, List.mem_singleton] at mem ⊢
  obtain now | ready | soon | calls | ⟨p, hp, rfl⟩ | waiting := mem
  · exact .inl now
  · exact .inr (.inl (.inl ready))
  · exact .inr (.inr (.inl soon))
  · exact .inr (.inr (.inr (.inl calls)))
  · obtain rfl | hp := stays hp
    · exact .inr (.inl (.inr rfl))
    · exact .inr (.inr (.inr (.inr (.inl ⟨p, hp, rfl⟩))))
  · exact .inr (.inr (.inr (.inr (.inr waiting))))

end Session

/-- What happens to the pieces that do not depend on the clock. -/
inductive Happening.Carries (s : Session) : Happening → Session → Prop where
  /-- Work changes its place. -/
  | shuffles {x s'} (parked : List (Uri × Reader)) (state : s'.state = { s.state with parked })
    (all : ∀ y ∈ s.carried, y ∈ s'.carried) : Carries s x s'
  | performs {s' w rest} (head : s.agenda.actions = .now w :: rest)
    (state : s'.state = (Engine.perform s.agenda.clock w s.state).1)
    (new : ∀ y ∈ Engine.carried (Engine.perform s.agenda.clock w s.state), y ∈ s'.carried)
    (old : ∀ y ∈ s.carried, y = w ∨ y ∈ s.state.held ∨ y ∈ s'.carried) : Carries s .work s'
  | operates {s' o} (state : s'.state = (o.apply s.state).1)
    (new : ∀ y ∈ Engine.carried (o.apply s.state), y ∈ s'.carried)
    (old : ∀ y ∈ s.carried, y ∈ s.state.held ∨ y ∈ s'.carried) : Carries s (.operation o) s'

open Session in
theorem Happening.carries {s s' : Session} {x : Happening} (next : x.after? s = some s') :
    x.Carries s s' := by
  cases x with
  | work =>
    simp only [Happening.after?, Machine.step?] at next
    split at next
    next w rest head =>
      obtain rfl := Option.some.inj next
      refine .performs head rfl (fun y hy => ?_) fun y hy => ?_
      · simp only [carried, Engine.carried, sureOf_append, List.mem_append] at hy ⊢
        grind
      · simp only [carried, head, sureOf_cons, sureOf_append, Action.sure?, Option.toList_some,
          List.mem_append, List.mem_singleton] at hy ⊢
        grind
    next a rest now head =>
      obtain rfl := Option.some.inj next
      exact .shuffles s.state.parked rfl fun y => carried_note head
    next head =>
      obtain ⟨⟨w?, agenda⟩, turn, rfl⟩ := Option.map_eq_some_iff.1 next
      exact .shuffles s.state.parked rfl fun y => carried_turn head turn
  | timer time =>
    simp only [Happening.after?] at next
    split at next
    · obtain ⟨agenda, fire, rfl⟩ := Option.map_eq_some_iff.1 next
      exact .shuffles s.state.parked rfl fun y => carried_fire fire
    · simp at next
  | tick time =>
    obtain rfl := Option.some.inj next
    exact .shuffles s.state.parked rfl fun y => id
  | read n =>
    simp only [Happening.after?] at next
    split at next
    · obtain ⟨parked, state⟩ := (countP_readOn (fun _ => true) next).1
      exact .shuffles parked state fun y => carried_readOn next
    · simp at next
  | operation o =>
    simp only [Happening.after?] at next
    split at next
    · obtain rfl := Option.some.inj next
      refine .operates rfl (fun y hy => ?_) fun y hy => ?_
      · simp only [carried, operate, Engine.carried, sureOf_append, List.mem_append] at hy ⊢
        grind
      · simp only [carried, operate, sureOf_append, List.mem_append] at hy ⊢
        grind
    · simp at next

namespace Happening.Carries

variable {s s' : Session} {x : Happening} {y : EngineWork}

theorem apart (h : x.Carries s s') (apart : s.state.cache.Apart) : s'.state.cache.Apart := by
  cases h with
  | shuffles parked state => rwa [state]
  | performs head state => exact state ▸ (Engine.perform_keeps ..).apart apart
  | operates state => exact state ▸ (Engine.apply_keeps ..).apart apart

/-- Whatever happens, a piece goes on, unless it is the work that is done. -/
theorem goesOn (h : x.Carries s s') (apart : s.state.cache.Apart) (mem : y ∈ s.carried) :
    (∃ z ∈ s'.carried, y.GoesOn z) ∨
      s'.state = (Engine.perform s.agenda.clock y s.state).1 ∧
        ∀ z ∈ Engine.carried (Engine.perform s.agenda.clock y s.state), z ∈ s'.carried := by
  cases h with
  | shuffles _ _ all => exact .inl ⟨y, all y mem, .stays y⟩
  | @performs _ w rest head state new old =>
    obtain rfl | held | stays := old y mem
    · exact .inr ⟨state, new⟩
    · obtain ⟨z, hz, goes⟩ := (Engine.perform_keeps s.agenda.clock w s.state).held apart y held
      exact .inl ⟨z, new z hz, goes⟩
    · exact .inl ⟨y, stays, .stays y⟩
  | @operates _ o _ new old =>
    obtain held | stays := old y mem
    · obtain ⟨z, hz, goes⟩ := (Engine.apply_keeps o s.state).held apart y held
      exact .inl ⟨z, new z hz, goes⟩
    · exact .inl ⟨y, stays, .stays y⟩

end Happening.Carries

end Quill
