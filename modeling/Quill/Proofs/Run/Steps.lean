import Quill.Proofs.Run.Threads
import Quill.Proofs.Scheduler.Disposal

/-!
# What a piece of work does to the threads

A piece of work that carries a flow on is replaced by at most one other piece of that flow. What
waits stays where it is, or is told something and goes on. Beside that only new computations and new
attempts come up.

## Main definitions

* `Engine.Follows` — the piece that takes the place of another one.
* `Engine.ComesFrom` — where a piece comes from.
* `Engine.Performed` — what a piece of work has done; `perform_performed` says that it always has.
-/

namespace Quill

def SnapshotWaiter.refused (w : SnapshotWaiter) (f : Failure) : Flow Fact :=
  match w with
  | .build _ next => next (.error f)
  | .lease _ next => next (.error f)

namespace Engine

/-- The piece `x` takes the place of the piece that was done; the scheduler is `s'` then. -/
inductive Follows (e : Engine) (s' : Scheduler) : EngineWork → EngineWork → Prop where
  | go {o f leases f' x} (walks : f.Walks o e.scheduler s' f')
    (stops : Stops { e with leases, scheduler := s' } o f' x) : Follows e s' (.go o f) x
  | begin {task attempt f leases f' x}
    (body : Dict.get? e.bodies task = some (.flow f))
    (walks : (f attempt).Walks (.attempt task) e.scheduler s' f')
    (stops : Stops { e with leases, scheduler := s' } (.attempt task) f' x) :
    Follows e s' (.begin task attempt) x
  | diagnose {task attempt root n leases f' x}
    (body : Dict.get? e.bodies task = some (.diagnose root))
    (walks : (e.host.diagnose root n).Walks (.attempt task) e.scheduler s' f')
    (stops : Stops { e with leases, scheduler := s' } (.attempt task) f' x) :
    Follows e s' (.begin task attempt) x
  | wake {o next} : Follows e s' (.wake o next) (.recheck o next)
  | recheck {o next} :
    Follows e s' (.recheck o next) (.go o (next (throwIfCancelled (e.cancelled? o))))
  | join {id call} : Follows e s' (.join id call) (.join id call)
  | complete {w b} (h : b.gather.next? = none) : Follows e s' (.collect w b) (.assemble w b)
  | memory {w b uri gather doc} (h : b.gather.next? = some (uri, gather))
    (isOpen : Dict.get? e.store.documents uri = some doc) :
    Follows e s' (.collect w b)
      (.received w { b with gather } uri (some (.ofOpen e.host.digest uri doc)))
  | load {w b uri gather} (h : b.gather.next? = some (uri, gather))
    (isClosed : Dict.get? e.store.documents uri = none) :
    Follows e s' (.collect w b) (.lookUp (.building w { b with gather }) uri)
  | found {w b uri text} (h : e.disk.read uri = .ok text) :
    Follows e s' (.lookUp (.building w b) uri) (.loaded w b uri text)
  | unread {w b uri f} (h : e.disk.read uri = .error f) :
    Follows e s' (.lookUp (.building w b) uri) (.go w.owner (w.refused f))
  | absent {w b uri} : Follows e s' (.loaded w b uri none) (.received w b uri none)
  | opened {w b uri text doc} (isOpen : Dict.get? e.store.documents uri = some doc) :
    Follows e s' (.loaded w b uri (some text))
      (.received w b uri (some (.ofOpen e.host.digest uri doc)))
  | file {w b uri text} (isClosed : Dict.get? e.store.documents uri = none) :
    Follows e s' (.loaded w b uri (some text))
      (.received w b uri (some (.ofFile e.host.digest uri text)))
  | received {w b b' uri doc} (h : b.receive e.host.compiler uri doc = .ok b') :
    Follows e s' (.received w b uri doc) (.collect w b')
  | unreceived {w b uri doc f} (h : b.receive e.host.compiler uri doc = .error f) :
    Follows e s' (.received w b uri doc) (.go w.owner (w.refused f))
  | built {o next b} :
    Follows e s' (.assemble (.build o next) b) (.go o (next (.ok (b.assemble e.host.fingerprint))))
  | assembled {o next b} :
    Follows e s' (.assemble (.lease o next) b) (.intern o next (b.assemble e.host.fingerprint))
  | interned {o next s} :
    Follows e s' (.intern o next s) (.go o (next (.ok (e.leases.take s).2.1)))

/-- Where a piece comes from that is there after a piece of work. -/
inductive ComesFrom (e : Engine) (s' : Scheduler) (w : EngineWork) (begun : List (Nat × Nat)) :
    EngineWork → Prop where
  | held {x} (h : x ∈ e.held) : ComesFrom e s' w begun x
  /-- A call that waited is told the outcome. -/
  | told {id call r} (h : .join id call ∈ e.held) :
      ComesFrom e s' w begun (.go call.owner (call.next r))
  | starts {x} (h : e.Starts x) : ComesFrom e s' w begun x
  | begins {task n} (h : (task, n) ∈ begun) : ComesFrom e s' w begun (.begin task n)
  | follows {x} (h : Follows e s' w x) : ComesFrom e s' w begun x

/-- How a piece of work may change the scheduler, while attempts begin. -/
inductive Moves (e : Engine) : EngineWork → List (Nat × Nat) → Scheduler → Prop where
  | leads {w begun s'} (h : e.scheduler.Leads s' begun) (live : ∀ task r, w ≠ .attemptEnded task r)
    (stays : e.scheduler.Stays s' begun) : Moves e w begun s'
  | ended {t t' : Task} {r s effects begun s'} (h : e.scheduler.task? t.id = some t)
    (ends : Scheduler.EndsAttempt e.store.versionOf r t e.scheduler t' s effects)
    (leads : s.Leads s' begun) (stays : e.scheduler.Stays s' begun) :
    Moves e (.attemptEnded t.id r) begun s'
  | walks {o f f' s'} (h : f.Walks o e.scheduler s' f') : Moves e (.go o f) [] s'
  | begins {task attempt f f' s'} (h : Flow.Walks (.attempt task) e.scheduler f s' f') :
    Moves e (.begin task attempt) [] s'

def bornOf (o : Owner) (begun : List (Nat × Nat)) : Nat :=
  match o with
  | .attempt task => (begun.map Prod.fst).count task
  | _ => 0

/-- Every task does what it did. A task may be submitted, for work that meets the condition. -/
def Submits (e : Engine) (bodies : Dict Nat TaskBody) (fits : TaskBody → Prop) : Prop :=
  bodies = e.bodies ∨ ∃ body, fits body ∧ bodies = Dict.put e.bodies e.scheduler.nextTask body

theorem Submits.get?_eq {e : Engine} {bodies : Dict Nat TaskBody} {fits : TaskBody → Prop}
    (h : e.Submits bodies fits) {task : Nat} (lt : task < e.scheduler.nextTask) :
    Dict.get? bodies task = Dict.get? e.bodies task := by
  obtain rfl | ⟨body, -, rfl⟩ := h
  · rfl
  · exact Dict.get?_put_of_ne _ _ (Nat.ne_of_lt lt)

theorem Submits.of_get? {e : Engine} {bodies : Dict Nat TaskBody} {fits : TaskBody → Prop}
    (h : e.Submits bodies fits) {task : Nat} {body : TaskBody}
    (found : Dict.get? bodies task = some body) :
    Dict.get? e.bodies task = some body ∨ fits body := by
  obtain rfl | ⟨body', new, rfl⟩ := h
  · exact .inl found
  · rw [Dict.get?_put] at found
    split at found
    · exact .inr (Option.some.inj found ▸ new)
    · exact .inl found

structure Performed (e : Engine) (w : EngineWork) (r : Step) (begun : List (Nat × Nat)) : Prop where
  world : SameWorld e r.1
  scheduler : Moves e w begun r.1.scheduler
  mem : ∀ {x}, x ∈ after r → x.owner?.isSome → ComesFrom e r.1.scheduler w begun x
  count : ∀ o, countOf o (after r) ≤ countOf o e.held + (if w.owner? = some o then 1 else 0) +
    (if o = .flight e.cache.nextFlight then 1 else 0) + bornOf o begun
  /-- Nothing takes the place of an attempt that has ended. -/
  last : ∀ {task x}, w = .attemptEnded task x → countOf (.attempt task) (after r) ≤
    countOf (.attempt task) e.held + bornOf (.attempt task) begun
  bodies : e.Submits r.1.bodies fun body => ∃ root, body = .diagnose root
  leases : r.1.leases.LeftOf e.leases ∨
    ∃ o next s, w = .intern o next s ∧ r.1.leases = (e.leases.take s).1

/-! ## Work that the parts of the engine ask for -/

variable {e e' : Engine} {w x : EngineWork} {begun : List (Nat × Nat)}

/-- Of what the scheduler asks for, only attempts that begin carry a flow on. -/
theorem mem_worksOf_scheduler {effects : List (SchedulerEffect Fact)}
    (hx : x ∈ worksOf (effects.flatMap schedulerActions)) (own : x.owner?.isSome) :
    ∃ task n, x = .begin task n ∧ (task, n) ∈ Scheduler.begins effects := by
  obtain ⟨a, ha, hw⟩ := List.mem_filterMap.1 hx
  obtain ⟨f, hf, ha⟩ := List.mem_flatMap.1 ha
  cases f <;> simp only [schedulerActions, List.mem_singleton] at ha <;> subst ha <;>
    simp only [Action.work?, Option.some.injEq, reduceCtorEq] at hw <;> subst hw <;>
    simp only [EngineWork.owner?, Option.isSome_none, Bool.false_eq_true] at own
  exact ⟨_, _, rfl, Scheduler.mem_begins.2 hf⟩

theorem countOf_worksOf_scheduler (o : Owner) (effects : List (SchedulerEffect Fact)) :
    countOf o (worksOf (effects.flatMap schedulerActions)) =
      bornOf o (Scheduler.begins effects) := by
  induction effects with
  | nil => cases o <;> rfl
  | cons f rest ih =>
    rw [List.flatMap_cons, worksOf_append, countOf_append, ih, Scheduler.begins_cons]
    cases f <;> cases o <;>
      simp [schedulerActions, Action.work?, EngineWork.owner?, SchedulerEffect.begun?, bornOf,
        List.count_cons, Nat.add_comm]

/-- Nothing that the publisher asks for carries a flow on. -/
theorem owner?_of_publisher {effects : List PublisherEffect}
    (hx : x ∈ worksOf (effects.flatMap publisherActions)) : x.owner? = none := by
  obtain ⟨a, ha, hw⟩ := List.mem_filterMap.1 hx
  obtain ⟨f, hf, ha⟩ := List.mem_flatMap.1 ha
  cases f <;> simp only [publisherActions, List.mem_singleton] at ha <;> subst ha <;>
    simp only [Action.work?, Option.some.injEq, reduceCtorEq] at hw <;> subst hw <;> rfl

theorem countOf_eq_zero {o : Owner} {ws : List EngineWork} (h : ∀ x ∈ ws, x.owner? = none) :
    countOf o ws = 0 := by
  refine Nat.eq_zero_of_not_pos fun pos => ?_
  obtain ⟨x, hx, own⟩ := countOf_pos_iff.1 pos
  simp [h x hx] at own

/-! ## Kinds of work -/

/-- Work that leaves the scheduler alone. -/
theorem Moves.same (sound : e.scheduler.Sound) (live : ∀ task r, w ≠ .attemptEnded task r) :
    Moves e w [] e.scheduler := .leads (.refl sound) live (.refl _)

/-- Nothing changes that concerns a flow under way. -/
structure Still (e e' : Engine) : Prop where
  world : SameWorld e e'
  scheduler : e'.scheduler = e.scheduler
  held : e'.held = e.held
  bodies : e'.bodies = e.bodies
  leases : e'.leases = e.leases

theorem Still.refl (e : Engine) : Still e e := ⟨.refl e, rfl, rfl, rfl, rfl⟩

/-- Work that asks for nothing that carries a flow on, and takes up nothing that waits. -/
theorem performed_still {actions : List EngineAction} (sound : e.scheduler.Sound)
    (still : Still e e') (live : ∀ task r, w ≠ .attemptEnded task r)
    (none : ∀ x ∈ worksOf actions, x.owner? = none) : Performed e w (e', actions) [] where
  world := still.world
  scheduler := by
    rw [still.scheduler]
    exact .same sound live
  mem := by
    intro x hx own
    rw [after, still.held] at hx
    rcases List.mem_append.1 hx with hx | hx
    · simp [none x hx] at own
    · exact .held hx
  count := by
    intro o
    rw [after, countOf_append, countOf_eq_zero none, still.held]
    omega
  last := fun h => absurd h (live _ _)
  bodies := .inl still.bodies
  leases := .inl (still.leases ▸ .refl _)

/-- Work that one other piece takes the place of. -/
theorem performed_one {actions : List EngineAction} (sound : e.scheduler.Sound)
    (works : worksOf actions = [x]) (follows : Follows e e.scheduler w x)
    (own : x.owner? = w.owner?)
    (live : ∀ task r, w ≠ .attemptEnded task r) : Performed e w (e, actions) [] where
  world := .refl e
  scheduler := .same sound live
  mem := by
    intro y hy _
    rw [after, works] at hy
    rcases List.mem_append.1 hy with hy | hy
    · obtain rfl : y = x := by simpa using hy
      exact .follows follows
    · exact .held hy
  count := by
    intro o
    rw [after, works]
    simp only [countOf_append, countOf_cons, countOf_nil, own]
    omega
  last := fun h => absurd h (live _ _)
  bodies := .inl rfl
  leases := .inl (.refl _)

/-- Work that runs a flow up to its next stop. -/
theorem performed_went {o : Owner} {f f' : Flow Fact} {r : Step} {leases : Leases} {s : Scheduler}
    (h : WentTo e o f r leases s f') (own : w.owner? = some o)
    (live : ∀ task r, w ≠ .attemptEnded task r)
    (moves : ∀ s', f.Walks o e.scheduler s' f' → Moves e w [] s')
    (follows : ∀ x, Stops { e with leases, scheduler := s } o f' x → Follows e s w x) :
    Performed e w r [] where
  world := h.world
  scheduler := by
    rw [h.scheduler]
    exact moves _ h.walks
  mem := by
    intro x hx ox
    rcases h.mem hx ox with old | stops | starts
    · exact .held old
    · exact .follows (h.scheduler ▸ follows x stops)
    · exact .starts starts
  count := by
    intro o'
    have := h.count o'
    simp only [own, Option.some.injEq]
    omega
  last := fun h => absurd h (live _ _)
  bodies := .inl h.bodies
  leases := .inl (h.leases_eq ▸ h.left)

theorem performed_schedule (e e' : Engine) (f : Scheduler → Scheduler.Result Fact)
    (world : SameWorld e e') (held : e'.held = e.held) (leases : e'.leases = e.leases)
    (bodies : e.Submits e'.bodies fun body => ∃ root, body = .diagnose root)
    (moves : Moves e w (Scheduler.begins (f e'.scheduler).2) (f e'.scheduler).1) :
    Performed e w (e'.schedule f) (Scheduler.begins (f e'.scheduler).2) where
  world := ⟨world.1, world.2, world.3, world.4, world.5, world.6⟩
  scheduler := moves
  mem := by
    intro x hx own
    rcases List.mem_append.1 hx with hx | hx
    · obtain ⟨task, n, rfl, new⟩ := mem_worksOf_scheduler hx own
      exact .begins new
    · exact .held (held ▸ hx)
  count := by
    intro o
    have same : (e'.schedule f).1.held = e.held := held
    rw [after, countOf_append, same, schedule, countOf_worksOf_scheduler]
    omega
  last := by
    intro task x _
    have same : (e'.schedule f).1.held = e.held := held
    rw [after, countOf_append, same, schedule, countOf_worksOf_scheduler]
    exact Nat.le_of_eq (Nat.add_comm ..)
  bodies := bodies
  leases := .inl (leases ▸ .refl _)

/-! ## All work -/

theorem join_performed (sound : e.scheduler.Sound) (id : Nat) (call : Call) :
    Performed e (.join id call) (e.join id call) [] := by
  have held : (e.join id call).1.held =
      e.cache.waiters.map (fun w => .join w.flight w.call) ++ (.join id call ::
        (e.parked.map (fun p => .lookUp p.2 p.1) ++ e.waiting.map fun w => .go w.2.1 w.2.2)) := by
    simp [Engine.held, Engine.join, Cache.wait]
  have silent : ∀ x ∈ worksOf (e.join id call).2, x.owner? = none := by
    intro x hx
    obtain ⟨a, ha, hw⟩ := List.mem_filterMap.1 hx
    obtain ⟨r, -, rfl⟩ := List.mem_map.1 ha
    obtain rfl := Option.some.inj hw
    rfl
  refine ⟨⟨rfl, rfl, rfl, rfl, rfl, rfl⟩, .same sound (by simp), ?_, ?_, by simp,
    .inl rfl, .inl (.refl _)⟩
  · intro x hx own
    rcases List.mem_append.1 hx with hx | hx
    · simp [silent x hx] at own
    · have : x = .join id call ∨ x ∈ e.held := by
        rw [held] at hx
        simp only [Engine.held, List.mem_append, List.mem_cons] at hx ⊢
        grind
      rcases this with rfl | old
      · exact .follows .join
      · exact .held old
  · intro o
    rw [after, countOf_append, countOf_eq_zero silent, held]
    simp only [Engine.held, countOf_append, countOf_cons]
    omega

theorem countOf_waiters (o : Owner) (ws : List (Waiter Nat Call)) :
    countOf o (ws.map fun w => .join w.flight w.call) = ws.countP fun w => w.call.owner = o := by
  induction ws with
  | nil => rfl
  | cons w rest ih => simp [List.countP_cons, ih, EngineWork.owner?]

theorem performed_hands {c : Cache Nat Call Fact Number} {calls : List Call}
    {actions : List EngineAction} (sound : e.scheduler.Sound) (hands : e.cache.Hands c calls)
    (works : ∀ x ∈ worksOf actions, ∃ call ∈ calls, ∃ r, x = .go call.owner (call.next r))
    (count : ∀ o, countOf o (worksOf actions) = calls.countP fun call => call.owner = o)
    (live : ∀ task r, w ≠ .attemptEnded task r) :
    Performed e w ({ e with cache := c }, actions) [] := by
  refine ⟨⟨rfl, rfl, rfl, rfl, rfl, rfl⟩, .same sound live, ?_, ?_,
    fun h => absurd h (live _ _), .inl rfl, .inl (.refl _)⟩
  · intro x hx _
    rcases List.mem_append.1 hx with hx | hx
    · obtain ⟨call, hc, r, rfl⟩ := works x hx
      obtain ⟨v, hv, rfl⟩ := hands.handed hc
      have waits : .join v.flight v.call ∈ e.held :=
        List.mem_append_left _ (List.mem_map.2 ⟨v, hv, rfl⟩)
      exact .told waits
    · refine .held ?_
      rcases List.mem_append.1 hx with hx | hx
      · obtain ⟨v, hv, rfl⟩ := List.mem_map.1 hx
        exact List.mem_append_left _ (List.mem_map.2 ⟨v, hands.mem hv, rfl⟩)
      · exact List.mem_append_right _ hx
  · intro o
    have := hands.count fun call => call.owner = o
    simp only [after, Engine.held, countOf_append, count, countOf_waiters]
    omega

theorem deliver_performed (sound : e.scheduler.Sound) (n : Nat) (r : Except Failure Fact) :
    Performed e (.deliver n r) (e.deliver n r) [] := by
  have hands := Cache.deliver_hands e.cache n
  unfold Engine.deliver
  generalize e.cache.deliver n = p at hands ⊢
  obtain ⟨c, call⟩ := p
  refine performed_hands sound hands ?_ ?_ (by simp)
  · intro x hx
    cases call with
    | none => simp at hx
    | some call => exact ⟨call, by simp, r, by simpa [Action.work?] using hx⟩
  · intro o
    cases call with
    | none => simp
    | some call => simp [Action.work?, EngineWork.owner?]

theorem fire_performed (sound : e.scheduler.Sound) (task : Nat) (reason : CancelReason) :
    Performed e (.fire task reason) (e.fire task reason) [] := by
  have hands := Cache.cancel_hands e.cache (.caller task) reason
  unfold Engine.fire
  generalize e.cache.cancel (.caller task) reason = p at hands ⊢
  obtain ⟨c, cs⟩ := p
  refine performed_hands sound hands ?_ ?_ (by simp)
  · intro x hx
    obtain ⟨a, ha, hw⟩ := List.mem_filterMap.1 hx
    obtain ⟨c, hc, ha⟩ := List.mem_flatMap.1 ha
    cases c <;> simp only [List.mem_singleton, List.not_mem_nil] at ha <;> subst ha
    all_goals simp only [Action.work?, Option.some.injEq, reduceCtorEq] at hw
    subst hw
    next call reason => exact ⟨call, List.mem_filterMap.2 ⟨.refused call reason, hc, rfl⟩, _, rfl⟩
  · intro o
    clear hands
    induction cs with
    | nil => rfl
    | cons c rest ih =>
      rw [List.flatMap_cons, worksOf_append, countOf_append, ih]
      cases c <;> simp [Action.work?, EngineWork.owner?, List.countP_cons, Nat.add_comm]

/-- A reader waits for a file, or looks at once. -/
theorem mem_after_load_iff {reader : Reader} {uri : Uri} :
    x ∈ after (e.load reader uri) ↔ x = .lookUp reader uri ∨ x ∈ e.held := by
  unfold load
  split
  · simp [after, Engine.held, Action.work?]
    grind
  · simp [after, Action.work?]

/-- A reader of a single compile carries no flow on. -/
theorem load_performed (sound : e.scheduler.Sound) (reader : Reader) (uri : Uri)
    (follows : (EngineWork.lookUp reader uri).owner?.isSome →
      Follows e e.scheduler w (.lookUp reader uri))
    (own : (EngineWork.lookUp reader uri).owner? = w.owner?)
    (live : ∀ task r, w ≠ .attemptEnded task r) : Performed e w (e.load reader uri) [] := by
  have count_load (o : Owner) : countOf o (after (e.load reader uri)) =
      countOf o e.held + if w.owner? = some o then 1 else 0 := by
    rw [← own]
    unfold load
    split
    all_goals simp [after, Engine.held, Action.work?]
    omega
  obtain ⟨world, scheduler, bodies, leases⟩ : SameWorld e (e.load reader uri).1 ∧
      (e.load reader uri).1.scheduler = e.scheduler ∧
      (e.load reader uri).1.bodies = e.bodies ∧ (e.load reader uri).1.leases = e.leases := by
    unfold load
    split <;> exact ⟨⟨rfl, rfl, rfl, rfl, rfl, rfl⟩, rfl, rfl, rfl⟩
  refine ⟨world, ?_, ?_, ?_, fun h => absurd h (live _ _), .inl bodies,
    .inl (leases ▸ .refl _)⟩
  · rw [scheduler]
    exact .same sound live
  · intro x hx ox
    rcases mem_after_load_iff.1 hx with rfl | old
    · exact .follows (scheduler ▸ follows ox)
    · exact .held old
  · intro o
    rw [count_load]
    omega

theorem collect_performed (sound : e.scheduler.Sound) (w : SnapshotWaiter) (b : Building) :
    Performed e (.collect w b) (e.collect w b) [] := by
  unfold collect
  split
  next complete => exact performed_one sound rfl (.complete complete) rfl (by simp)
  next uri gather next =>
    split
    next doc isOpen => exact performed_one sound rfl (.memory next isOpen) rfl (by simp)
    next isClosed =>
      exact load_performed sound _ uri (fun _ => .load next isClosed) rfl (by simp)

/-- The end of a single compile is given out. -/
@[simp] theorem worksOf_compileEnded (ticket : Nat) (r : Except Failure Compiled) :
    worksOf (compileEnded ticket r) = [] := by
  cases r <;> rfl

theorem compileNext_performed (sound : e.scheduler.Sound) (ticket : Nat) (o : OneShot) :
    Performed e (.compileNext ticket o) (e.compileNext ticket o) [] := by
  unfold compileNext
  split
  next => exact performed_still sound (.refl e) (by simp) (by simp)
  next uri gather next =>
    split
    next doc isOpen =>
      refine performed_still sound (.refl e) (by simp) ?_
      simp [Action.work?, EngineWork.owner?]
    next isClosed =>
      exact load_performed sound _ uri (by simp [EngineWork.owner?]) rfl (by simp)

theorem begin_performed (sound : e.scheduler.Sound) (now task attempt : Nat) :
    Performed e (.begin task attempt) (e.begin now task attempt) [] := by
  unfold Engine.begin
  split
  next f body =>
    obtain ⟨leases, s, f', h⟩ := e.go_wentTo now (.attempt task) (f attempt)
    exact performed_went h rfl (by simp) (fun _ walks => .begins walks)
      fun x stops => .begin body h.walks stops
  next root body =>
    generalize (Dict.get? e.computed root).getD 0 = n
    obtain ⟨leases, s, f', h⟩ :=
      go_wentTo { e with computed := Dict.put e.computed root (n + 1) } now
      (.attempt task) (e.host.diagnose root n)
    have went := h.of_computed
    exact performed_went went rfl (by simp) (fun _ walks => .begins walks)
      fun x stops => .diagnose body went.walks stops
  next =>
    exact performed_still sound (.refl e) (by simp) (by simp)

theorem submit_performed (sound : e.scheduler.Sound) (spec : TaskSpec) {body : TaskBody}
    (own : ∃ root, body = .diagnose root) (watcher : Watcher) (reason : Option CancelReason)
    (live : ∀ task r, w ≠ .attemptEnded task r) :
    ∃ begun, Performed e w (e.submit spec body watcher reason) begun := by
  have moves : e.scheduler.Leads (Scheduler.submit e.config.limits spec reason e.scheduler).1 _ :=
    Scheduler.submit_leads (α := Fact) spec reason sound
  let e' : Engine := { e with
    bodies := Dict.put e.bodies e.scheduler.nextTask body
    watchers := Dict.put e.watchers e.scheduler.nextTask watcher }
  exact ⟨_, performed_schedule e e' (Scheduler.submit e.config.limits spec reason)
    ⟨rfl, rfl, rfl, rfl, rfl, rfl⟩ rfl rfl (.inr ⟨_, own, rfl⟩)
    (.leads moves live (Scheduler.stays_submit spec reason e.scheduler))⟩

theorem attemptEnded_performed (sound : e.scheduler.Sound) (task : Nat) (r : Except Failure Fact)
    (busy : e.scheduler.IsBusy task) : ∃ begun, Performed e (.attemptEnded task r)
      (e.schedule (Scheduler.settle e.config.limits e.store.versionOf task r)) begun := by
  obtain ⟨t, ht, attempt⟩ := busy
  obtain rfl := sound.id_eq ht
  obtain ⟨t', s, effects, ends, (eq : Scheduler.settle e.config.limits _ _ _ _ = _)⟩ :=
    Scheduler.settle_eq e.store.versionOf r sound ht attempt
  refine ⟨_, performed_schedule e e _ (.refl e) rfl rfl (.inl rfl) ?_⟩
  rw [eq]
  have pumped : s.Leads (Scheduler.pump e.config.limits s).1 _ :=
    Scheduler.pump_leads (α := Fact) ends.sound
  have stays : Scheduler.StaysWith _ (Scheduler.settle e.config.limits _ _ _ _) :=
    Scheduler.stays_settle e.store.versionOf t.id r e.scheduler
  rw [eq] at stays
  refine .ended ht ends ?_ stays
  simpa [Scheduler.andThen, ends.begins] using pumped

theorem told_silent (e : Engine) (task : Nat) (r : Except Failure Fact) :
    ∀ x ∈ worksOf (e.told task r), x.owner? = none := by
  unfold told
  split <;> simp [Action.work?, EngineWork.owner?]

theorem runEnded_silent (e : Engine) (run : Nat) (root : Uri) (r : Except Failure Fact) :
    ∀ x ∈ worksOf (e.runEnded run root r).2, x.owner? = none := by
  unfold runEnded
  split
  · intro x hx
    rw [worksOf_append] at hx
    rcases List.mem_append.1 hx with hx | hx
    · exact owner?_of_publisher hx
    · obtain rfl := by simpa [Action.work?] using hx
      rfl
  · simp [Action.work?, EngineWork.owner?]
  · simp [Action.work?, EngineWork.owner?]

theorem runRefused_silent (run : Nat) (root : Uri) (refused : Option Failure) :
    ∀ x ∈ worksOf (runRefused run root refused), x.owner? = none := by
  cases refused <;> simp [runRefused, Action.work?, EngineWork.owner?]

theorem runEnded_still (e : Engine) (run : Nat) (root : Uri) (r : Except Failure Fact) :
    Still e (e.runEnded run root r).1 := by
  unfold runEnded
  split <;> exact ⟨⟨rfl, rfl, rfl, rfl, rfl, rfl⟩, rfl, rfl, rfl, rfl⟩

theorem compileLoaded_silent (e : Engine) (ticket : Nat) (o : OneShot) (uri : Uri)
    (text : Except Failure (Option Text)) :
    ∀ x ∈ worksOf (e.compileLoaded ticket o uri text), x.owner? = none := by
  unfold compileLoaded
  split <;> simp [Action.work?, EngineWork.owner?]

theorem publish_performed (sound : e.scheduler.Sound)
    (f : Surroundings → Publisher → Publisher.Result) (live : ∀ task r, w ≠ .attemptEnded task r) :
    Performed e w (e.publish f) [] :=
  performed_still sound ⟨⟨rfl, rfl, rfl, rfl, rfl, rfl⟩, rfl, rfl, rfl, rfl⟩ live
    fun _ hx => owner?_of_publisher hx

theorem publisher_still (sound : e.scheduler.Sound) (p : Publisher) {flushes}
    {actions : List EngineAction} (silent : ∀ x ∈ worksOf actions, x.owner? = none)
    (live : ∀ task r, w ≠ .attemptEnded task r) :
    Performed e w ({ e with publisher := p, flushes }, actions) [] :=
  performed_still sound ⟨⟨rfl, rfl, rfl, rfl, rfl, rfl⟩, rfl, rfl, rfl, rfl⟩ live silent

theorem fireAll_performed (sound : e.scheduler.Sound) (ticket : Nat) (thenIdle : Bool) :
    Performed e (.flush ticket thenIdle) (e.fireAll ticket thenIdle) [] := by
  have silent : ∀ x ∈ worksOf (e.publish Publisher.fireAll).2, x.owner? = none :=
    fun _ hx => owner?_of_publisher hx
  unfold fireAll andThen
  simp only
  split
  · refine publisher_still sound _ ?_ (by simp)
    intro x hx
    rw [worksOf_append] at hx
    rcases List.mem_append.1 hx with hx | hx
    · exact silent x hx
    · obtain rfl : x = if thenIdle then .idle ticket else .rested ticket := by
        simpa only [worksOf_cons, worksOf_nil, Action.work?, Option.toList_some, List.append_nil,
          List.mem_singleton] using hx
      cases thenIdle <;> rfl
  · refine publisher_still sound _ ?_ (by simp)
    simpa using silent

theorem retire_performed (sound : e.scheduler.Sound) (run : Nat) :
    Performed e (.retire run) (e.retire run) [] := by
  refine publisher_still sound _ ?_ (by simp)
  intro x hx
  obtain ⟨a, ha, hw⟩ := List.mem_filterMap.1 hx
  obtain ⟨f, -, rfl⟩ := List.mem_map.1 ha
  obtain rfl := Option.some.inj hw
  rfl

/-- An operation on the cache that moves no call that waits. -/
theorem cache_still (sound : e.scheduler.Sound) (c : Cache Nat Call Fact Number)
    (waiters : c.waiters = e.cache.waiters) {actions : List EngineAction}
    (silent : ∀ x ∈ worksOf actions, x.owner? = none)
    (live : ∀ task r, w ≠ .attemptEnded task r) :
    Performed e w ({ e with cache := c }, actions) [] :=
  performed_still sound ⟨⟨rfl, rfl, rfl, rfl, rfl, rfl⟩, rfl, held_eq waiters rfl rfl, rfl, rfl⟩
    live
    silent

theorem settleFlight_performed (sound : e.scheduler.Sound) (id : Nat) (r : Except Failure Fact) :
    Performed e (.settleFlight id r) (e.settleFlight id r) [] := by
  have live : ∀ task r', EngineWork.settleFlight id r ≠ .attemptEnded task r' := by simp
  refine cache_still sound (e.cache.settle id r).1 rfl ?_ live
  intro x hx
  obtain ⟨a, ha, hw⟩ := List.mem_filterMap.1 hx
  rcases List.mem_cons.1 ha with rfl | ha
  · obtain rfl := Option.some.inj hw
    rfl
  · obtain ⟨n, -, rfl⟩ := List.mem_map.1 ha
    obtain rfl := Option.some.inj hw
    rfl

theorem lookUp_performed (sound : e.scheduler.Sound) (reader : Reader) (uri : Uri) :
    Performed e (.lookUp reader uri) (e, e.lookUp reader uri) [] := by
  unfold lookUp
  split
  next w b text h => exact performed_one sound rfl (.found h) rfl (by simp)
  next w b f h =>
    refine performed_one sound ?_ (.unread h) rfl (by simp)
    cases w <;> rfl
  next => exact performed_still sound (.refl e) (by simp) (by simp [Action.work?,
    EngineWork.owner?])

theorem loaded_performed (sound : e.scheduler.Sound) (w : SnapshotWaiter) (b : Building) (uri : Uri)
    (text : Option Text) : Performed e (.loaded w b uri text) (e, e.loaded w b uri text) [] := by
  unfold loaded
  split
  next => exact performed_one sound rfl .absent rfl (by simp)
  next text doc isOpen => exact performed_one sound rfl (.opened isOpen) rfl (by simp)
  next text isClosed => exact performed_one sound rfl (.file isClosed) rfl (by simp)

theorem received_performed (sound : e.scheduler.Sound) (w : SnapshotWaiter)
    (b : Building) (uri : Uri) (doc : Option SnapshotDocument) :
    Performed e (.received w b uri doc) (e, e.received w b uri doc) [] := by
  unfold received
  split
  next b' h => exact performed_one sound rfl (.received h) rfl (by simp)
  next f h =>
    refine performed_one sound ?_ (.unreceived h) rfl (by simp)
    cases w <;> rfl

theorem assemble_performed (sound : e.scheduler.Sound) (w : SnapshotWaiter) (b : Building) :
    Performed e (.assemble w b) (e, e.assemble w b) [] := by
  cases w with
  | build o next => exact performed_one sound rfl .built rfl (by simp)
  | lease o next => exact performed_one sound rfl .assembled rfl (by simp)

theorem intern_performed (sound : e.scheduler.Sound) (o : Owner)
    (next : Except Failure Lease → Flow Fact) (s : Snapshot) :
    Performed e (.intern o next s) (e.intern o next s) [] := by
  have works : worksOf (e.intern o next s).2 = [.go o (next (.ok (e.leases.take s).2.1))] := by
    unfold intern
    rw [worksOf_append]
    cases (e.leases.take s).2.2 <;> rfl
  refine ⟨⟨rfl, rfl, rfl, rfl, rfl, rfl⟩, .same sound (by simp), ?_, ?_, by simp,
    .inl rfl, .inr ⟨o, next, s, rfl, rfl⟩⟩
  · intro x hx _
    rw [after, works] at hx
    rcases List.mem_append.1 hx with hx | hx
    · obtain rfl := List.mem_singleton.1 hx
      exact .follows .interned
    · exact .held hx
  · intro o'
    have held : (e.intern o next s).1.held = e.held := rfl
    rw [after, works, held]
    have own : (EngineWork.go o (next (.ok (e.leases.take s).2.1))).owner? =
        (EngineWork.intern o next s).owner? := rfl
    simp only [countOf_append, countOf_cons, countOf_nil, own]
    omega

/-- What a piece of work does to the threads, provided that only attempts under way end. -/
theorem perform_performed (now : Nat) (w : EngineWork) (sound : e.scheduler.Sound)
    (busy : ∀ task r, w = .attemptEnded task r → e.scheduler.IsBusy task) :
    ∃ begun, Performed e w (perform now w e) begun := by
  have silent {actions : List EngineAction} (live : ∀ task r, w ≠ .attemptEnded task r)
      (none : ∀ x ∈ worksOf actions, x.owner? = none) : Performed e w (e, actions) [] :=
    performed_still sound (.refl e) live none
  cases w with
  | go o f =>
    obtain ⟨leases, s, f', h⟩ := e.go_wentTo now o f
    exact ⟨[], performed_went h rfl (by simp) (fun _ walks => .walks walks)
      fun x stops => .go h.walks stops⟩
  | wake o next => exact ⟨[], performed_one sound rfl .wake rfl (by simp)⟩
  | recheck o next => exact ⟨[], performed_one sound rfl .recheck rfl (by simp)⟩
  | register id => exact ⟨[],
    cache_still sound _ (Cache.sameCalls_register _ id).waiters (by simp) (by simp)⟩
  | join id call => exact ⟨[], join_performed sound id call⟩
  | settleFlight id r => exact ⟨[], settleFlight_performed sound id r⟩
  | publishFlight id =>
    exact ⟨[], cache_still sound _ (Cache.sameCalls_publish _ id now).waiters (by simp) (by simp)⟩
  | deliver waiter r => exact ⟨[], deliver_performed sound waiter r⟩
  | collect w b => exact ⟨[], collect_performed sound w b⟩
  | lookUp r uri => exact ⟨[], lookUp_performed sound r uri⟩
  | loaded w b uri text => exact ⟨[], loaded_performed sound w b uri text⟩
  | received w b uri doc => exact ⟨[], received_performed sound w b uri doc⟩
  | assemble w b => exact ⟨[], assemble_performed sound w b⟩
  | intern o next s => exact ⟨[], intern_performed sound o next s⟩
  | compileNext ticket o => exact ⟨[], compileNext_performed sound ticket o⟩
  | compileLoaded ticket o uri text =>
    exact ⟨[], silent (by simp) (compileLoaded_silent e ticket o uri text)⟩
  | begin task attempt => exact ⟨[], begin_performed sound now task attempt⟩
  | fire task reason => exact ⟨[], fire_performed sound task reason⟩
  | attemptEnded task r => exact attemptEnded_performed sound task r (busy task r rfl)
  | demote task =>
    exact ⟨_, performed_schedule e e _ (.refl e) rfl rfl (.inl rfl)
      (.leads (Scheduler.demote_leads task sound) (by simp) (Scheduler.stays_demote task _))⟩
  | told task r => exact ⟨[], silent (by simp) (told_silent e task r)⟩
  | wakeIdle tickets =>
    refine ⟨[], silent (by simp) ?_⟩
    intro x hx
    obtain ⟨a, ha, hw⟩ := List.mem_filterMap.1 hx
    obtain ⟨n, -, rfl⟩ := List.mem_map.1 ha
    obtain rfl := Option.some.inj hw
    rfl
  | changed event =>
    have live : ∀ task r, EngineWork.changed event ≠ .attemptEnded task r := by simp
    exact ⟨[], publish_performed sound (fun w p =>
      if event.kind = .close then p.forget w event.uri else p.trigger w event.uri) live⟩
  | timerRanOut root =>
    have live : ∀ task r, EngineWork.timerRanOut root ≠ .attemptEnded task r := by simp
    exact ⟨[], publish_performed sound (fun w p => p.fire w root) live⟩
  | submitRun run root =>
    have live : ∀ task r, EngineWork.submitRun run root ≠ .attemptEnded task r := by simp
    change ∃ begun, Performed e _ (e.submitRun run root) begun
    unfold submitRun
    exact submit_performed sound _ ⟨root, rfl⟩ _ _ live
  | verify ticket r => exact ⟨[], silent (by simp) (by simp [verify, Action.work?])⟩
  | runEnded run root r =>
    exact ⟨[], performed_still sound (e.runEnded_still run root r) (by simp)
      (e.runEnded_silent run root r)⟩
  | runRefused run root refused =>
    exact ⟨[], silent (by simp) (runRefused_silent run root refused)⟩
  | retire run => exact ⟨[], retire_performed sound run⟩
  | flush ticket thenIdle => exact ⟨[], fireAll_performed sound ticket thenIdle⟩
  | idle ticket =>
    exact ⟨_, performed_schedule e e _ (.refl e) rfl rfl (.inl rfl)
      (.leads (Scheduler.idle_leads ticket sound) (by simp) (Scheduler.stays_idle ticket _))⟩
  | rested ticket => exact ⟨[], silent (by simp) (by simp [Action.work?])⟩

end Engine

end Quill
