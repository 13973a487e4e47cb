import Quill.Proofs.Cache.Waiters
import Quill.Proofs.Run.Basic
import Quill.Snapshot.Leases

/-!
# The threads of a session

A flow under way is always in one place: as work in the agenda, or as a call, a reader or a flow
that waits in the engine. Each of these places is seen here as the piece of work that would put it
there, so that the whole session is a list of pieces, each of which has an owner if it carries a
flow on.

## Main definitions

* `EngineWork.owner?` — whose flow a piece of work carries on.
* `Engine.held`, `Session.pieces` — what waits in an engine, and all pieces of a session.
* `countOf` — how many pieces an owner has.
* `Flow.Walks`, `Engine.Stops` — a flow goes up to its next stop, and what stands there.
-/

namespace Quill

/-- No kind of value has a zero in it, so the values of different kinds are kept apart. -/
theorem Computation.place_eq (c : Computation) (fingerprint : Text) :
    (⟨c.kind, fingerprint⟩ : CacheKey).place = ⟨c.kind, fingerprint⟩ := by
  refine CacheKey.place_eq_self ?_
  cases c <;> simp only [kind] <;> decide +kernel

def SnapshotWaiter.owner : SnapshotWaiter → Owner
  | .build o _ | .lease o _ => o

/-- Whose flow a piece of work carries on. -/
def EngineWork.owner? : EngineWork → Option Owner
  | .go o _ | .wake o _ | .recheck o _ | .intern o _ _ => some o
  | .join _ call => some call.owner
  | .settleFlight id _ => some (.flight id)
  | .collect w _ | .loaded w _ _ _ | .received w _ _ _ | .assemble w _ => some w.owner
  | .lookUp (.building w _) _ => some w.owner
  | .begin task _ | .attemptEnded task _ => some (.attempt task)
  | _ => none

def Engine.held (e : Engine) : List EngineWork :=
  e.cache.waiters.map (fun w => .join w.flight w.call) ++
    (e.parked.map (fun p => .lookUp p.2 p.1) ++ e.waiting.map fun w => .go w.2.1 w.2.2)

def Action.work? {κ ω ο : Type} : Action κ ω ο → Option ω
  | .now w | .later _ w | .soon w | .setTimer _ _ w => some w
  | _ => none

def worksOf (actions : List EngineAction) : List EngineWork := actions.filterMap Action.work?

namespace Session

def works (s : Session) : List EngineWork :=
  worksOf s.agenda.actions ++
    (s.agenda.ready.map Prod.snd ++ (s.agenda.soon ++ s.agenda.timers.map Timer.work))

def pieces (s : Session) : List EngineWork := s.works ++ s.state.held

end Session

def countOf (o : Owner) (ws : List EngineWork) : Nat := ws.countP fun w => w.owner? = some o

@[simp] theorem worksOf_nil : worksOf [] = [] := rfl

@[simp] theorem worksOf_cons (a : EngineAction) (rest : List EngineAction) :
    worksOf (a :: rest) = a.work?.toList ++ worksOf rest := by
  unfold worksOf
  cases h : a.work? <;> simp [h]

@[simp] theorem worksOf_append (a b : List EngineAction) :
    worksOf (a ++ b) = worksOf a ++ worksOf b := by simp [worksOf]

@[simp] theorem worksOf_traces (ts : List Trace) : worksOf (Engine.traces ts) = [] := by
  simp [worksOf, Engine.traces, Action.work?]

@[simp] theorem countOf_nil (o : Owner) : countOf o [] = 0 := rfl

@[simp] theorem countOf_cons (o : Owner) (w : EngineWork) (ws : List EngineWork) :
    countOf o (w :: ws) = countOf o ws + if w.owner? = some o then 1 else 0 := by
  simp [countOf, List.countP_cons]

@[simp] theorem countOf_append (o : Owner) (a b : List EngineWork) :
    countOf o (a ++ b) = countOf o a + countOf o b := by simp [countOf]

theorem countOf_pos_iff {o : Owner} {ws : List EngineWork} :
    0 < countOf o ws ↔ ∃ w ∈ ws, w.owner? = some o := by simp [countOf, List.countP_pos_iff]

/-- What is under way after a step of the engine, beside what was in the agenda already. -/
def Engine.after (r : Engine.Step) : List EngineWork := worksOf r.2 ++ r.1.held

/-- What an attempt says it has read is noted; other flows say nothing that counts. -/
def Scheduler.declareFor (s : Scheduler) (o : Owner) (read : List ReadEntry) (scope : ReadScope) :
    Scheduler :=
  match o with
  | .attempt task => s.declare task read scope
  | _ => s

/-- The flow goes on without a stop; what it says it has read is noted. -/
inductive Flow.Walks (o : Owner) : Scheduler → Flow Fact → Scheduler → Flow Fact → Prop where
  | refl {s f} : Walks o s f s f
  | release {s s' id next f} (h : Walks o s next s' f) : Walks o s (.release id next) s' f
  | declare {s s' read scope next f} (h : Walks o (s.declareFor o read scope) next s' f) :
    Walks o s (.declare read scope next) s' f
  | look {s s' next f} (m : Moment) (h : Walks o s (next m) s' f) : Walks o s (.look next) s' f
  | trace {s s' t next f} (h : Walks o s next s' f) : Walks o s (.trace t next) s' f
  | say {s s' t next f} (h : Walks o s next s' f) : Walks o s (.say t next) s' f

/-- The piece that stands for a flow at its stop, if that does not start a computation of its
own. -/
inductive Engine.Stops (e : Engine) : Owner → Flow Fact → EngineWork → Prop where
  | attemptDone (task : Nat) (r) : Stops e (.attempt task) (.done r) (.attemptEnded task r)
  | flightDone (id : Nat) (r) : Stops e (.flight id) (.done r) (.settleFlight id r)
  | pause (o next) : Stops e o (.pause next) (.go o next)
  | refused (o next reason) (h : e.cancelled? o = some reason) :
    Stops e o (.checkpoint next) (.go o (next (.error (.cancelled reason))))
  | safe (o next) (h : e.cancelled? o = none) : Stops e o (.checkpoint next) (.wake o next)
  | dropped (o c next reason) (h : e.cancelled? o = some reason) :
    Stops e o (.compute c next) (.go o (next (.error (.cancelled reason))))
  | hit (o c next entry)
    (h : Dict.get? e.cache.entries ⟨c.kind, c.fingerprint e.host.digest⟩ = some entry) :
    Stops e o (.compute c next) (.go o (next (.ok entry.value)))
  | joined (o c next id)
    (h : (∃ f, e.cache.running? ⟨c.kind, c.fingerprint e.host.digest⟩ = some f ∧ f.id = id) ∨
      id = e.cache.nextFlight) : Stops e o (.compute c next) (.join id ⟨o, next⟩)
  | lease (o scope next b) (h : Building.start e.store e.settings scope = .ok b) :
    Stops e o (.lease scope next) (.collect (.lease o next) b)
  | noLease (o scope next f) (h : Building.start e.store e.settings scope = .error f) :
    Stops e o (.lease scope next) (.go o (next (.error f)))
  | build (o scope next b) (h : Building.start e.store e.settings scope = .ok b) :
    Stops e o (.build scope next) (.collect (.build o next) b)
  | noBuild (o scope next f) (h : Building.start e.store e.settings scope = .error f) :
    Stops e o (.build scope next) (.go o (next (.error f)))
  | gate (o name next) : Stops e o (.gate name next) (.go o next)

/-- The piece is the beginning of a computation that is not under way yet. -/
def Engine.Starts (e : Engine) (x : EngineWork) : Prop :=
  ∃ c : Computation, x = .go (.flight e.cache.nextFlight) (c.body e.host.compiler) ∨
    ∃ r, c.body e.host.compiler = .done r ∧ x = .settleFlight e.cache.nextFlight r

namespace Engine

variable {e e' e'' : Engine} {now : Nat} {o : Owner} {x : EngineWork}

/-- What work of the engine never changes: only the client and the files do. -/
structure SameWorld (e e' : Engine) : Prop where
  host : e'.host = e.host
  config : e'.config = e.config
  settings : e'.settings = e.settings
  store : e'.store = e.store
  disk : e'.disk = e.disk
  isDisposed : e'.isDisposed = e.isDisposed

theorem SameWorld.refl (e : Engine) : SameWorld e e := ⟨rfl, rfl, rfl, rfl, rfl, rfl⟩

theorem held_eq (h : e'.cache.waiters = e.cache.waiters) (parked : e'.parked = e.parked)
    (waiting : e'.waiting = e.waiting) : e'.held = e.held := by simp [held, h, parked, waiting]

/-- A call finds a value that is kept, or a computation to join, or one that it has to start. -/
theorem ask_cases (c : Cache Nat Call Fact Number) {key : CacheKey} (own : key.place = key)
    (weight : Number) (now : Int) :
    (∃ entry, Dict.get? c.entries key = some entry ∧
        (c.ask key weight now).2.1 = .hit entry.value) ∨
      (∃ f, c.running? key = some f ∧ (c.ask key weight now).2.1 = .join f.id) ∨
      (c.ask key weight now).2.1 = .start c.nextFlight := by
  rw [Cache.ask, own]
  split
  next entry h => exact .inl ⟨entry, h, rfl⟩
  next =>
    split
    next f h => exact .inr (.inl ⟨f, h, rfl⟩)
    next => exact .inr (.inr rfl)

structure WentTo (e : Engine) (o : Owner) (f : Flow Fact) (r : Step) (leases : Leases)
    (s : Scheduler) (f' : Flow Fact) : Prop where
  walks : f.Walks o e.scheduler s f'
  world : SameWorld e r.1
  scheduler : r.1.scheduler = s
  publisher : r.1.publisher = e.publisher
  bodies : r.1.bodies = e.bodies
  leases_eq : r.1.leases = leases
  left : leases.LeftOf e.leases
  mem : ∀ {x}, x ∈ after r → x.owner?.isSome →
    x ∈ e.held ∨ Stops { e with leases, scheduler := s } o f' x ∨ e.Starts x
  count : ∀ o', countOf o' (after r) ≤ countOf o' e.held + (if o = o' then 1 else 0) +
    if o' = .flight e.cache.nextFlight then 1 else 0

/-- How often diagnostics have been computed does not matter to a flow. -/
theorem WentTo.of_computed {d : Dict Uri Nat} {f f' : Flow Fact} {r : Step} {leases : Leases}
    {s : Scheduler} (h : WentTo { e with computed := d } o f r leases s f') :
    WentTo e o f r leases s f' where
  walks := h.walks
  world := ⟨h.world.1, h.world.2, h.world.3, h.world.4, h.world.5, h.world.6⟩
  scheduler := h.scheduler
  publisher := h.publisher
  bodies := h.bodies
  leases_eq := h.leases_eq
  left := h.left
  mem := by
    intro x hx own
    rcases h.mem hx own with old | stops | starts
    · exact .inl old
    · refine .inr (.inl ?_)
      cases stops <;> constructor <;> assumption
    · exact .inr (.inr starts)
  count := h.count

/-- Most stops leave the engine alone and put one piece into the agenda. -/
theorem wentTo_one {f : Flow Fact} {actions : List EngineAction} (works : worksOf actions = [x])
    (stop : Stops e o f x) (own : x.owner? = some o) :
    WentTo e o f (e, actions) e.leases e.scheduler f where
  walks := .refl
  world := .refl e
  scheduler := rfl
  publisher := rfl
  bodies := rfl
  leases_eq := rfl
  left := .refl _
  mem := by
    intro y hy _
    rw [after, works] at hy
    rcases List.mem_append.1 hy with hy | hy
    · obtain rfl : y = x := by simpa using hy
      exact .inr (.inl stop)
    · exact .inl hy
  count := by
    intro o'
    rw [after, works]
    simp only [countOf_append, countOf_cons, countOf_nil, own, Option.some.injEq]
    omega

/-- A flow that asks for a kept value. -/
theorem request_wentTo (e : Engine) (now : Nat) (o : Owner) (c : Computation)
    (next : Except Failure Fact → Flow Fact) :
    WentTo e o (.compute c next) (e.request now o c next) e.leases e.scheduler
      (.compute c next) := by
  unfold request
  split
  next reason cancelled => exact wentTo_one rfl (.dropped o c next reason cancelled) rfl
  next =>
    have held : ({ e with cache := (e.cache.ask ⟨c.kind, c.fingerprint e.host.digest⟩
        (.ofNat c.weight) now).1 } : Engine).held =
          e.held := held_eq (Cache.sameCalls_ask _ _ _ _).waiters rfl rfl
    -- The engine changes in its cache alone, where no call that waits is moved.
    have went {actions : List EngineAction}
        (mem : ∀ x ∈ worksOf actions, x.owner?.isSome →
          Stops e o (.compute c next) x ∨ e.Starts x)
        (count : ∀ o', countOf o' (worksOf actions) ≤ (if o = o' then 1 else 0) +
          if o' = .flight e.cache.nextFlight then 1 else 0) :
        WentTo e o (.compute c next) ({ e with cache := (e.cache.ask ⟨c.kind, c.fingerprint
          e.host.digest⟩ (.ofNat c.weight) now).1 }, actions) e.leases e.scheduler
            (.compute c next) := by
      refine ⟨.refl, ⟨rfl, rfl, rfl, rfl, rfl, rfl⟩, rfl, rfl, rfl, rfl, .refl _, ?_, ?_⟩
      · intro x hx own
        rw [after, held] at hx
        rcases List.mem_append.1 hx with hx | hx
        · exact .inr (mem x hx own)
        · exact .inl hx
      · intro o'
        have := count o'
        rw [after, held, countOf_append]
        dsimp only
        omega
    simp only
    obtain ⟨entry, h, eq⟩ | ⟨f, h, eq⟩ | eq :=
      ask_cases e.cache (c.place_eq (c.fingerprint e.host.digest)) (.ofNat c.weight) now
    · simp only [eq]
      refine went ?_ ?_
      · intro x hx _
        obtain rfl : x = .go o (next (.ok entry.value)) := by simpa [Action.work?] using hx
        exact .inl (.hit o c next entry h)
      · intro o'
        simp [Action.work?, EngineWork.owner?]
    · simp only [eq]
      refine went ?_ ?_
      · intro x hx _
        obtain rfl : x = .join f.id ⟨o, next⟩ := by simpa [Action.work?] using hx
        exact .inl (.joined o c next f.id (.inl ⟨f, h, rfl⟩))
      · intro o'
        simp [Action.work?, EngineWork.owner?]
    · simp only [eq]
      have joined : Stops e o (.compute c next) (.join e.cache.nextFlight ⟨o, next⟩) :=
        .joined o c next _ (.inr rfl)
      split
      next r _ body =>
        refine went ?_ ?_
        · intro x hx own
          obtain rfl | rfl | rfl : x = .register e.cache.nextFlight ∨
              x = .settleFlight e.cache.nextFlight r ∨ x = .join e.cache.nextFlight ⟨o, next⟩ := by
            simpa [Action.work?] using hx
          · simp [EngineWork.owner?] at own
          · exact .inr ⟨c, .inr ⟨r, body, rfl⟩⟩
          · exact .inl joined
        · intro o'
          simp [Action.work?, EngineWork.owner?, eq_comm]
      next =>
        refine went ?_ ?_
        · intro x hx own
          obtain rfl | rfl | rfl : x = .go (.flight e.cache.nextFlight) (c.body e.host.compiler) ∨
              x = .register e.cache.nextFlight ∨ x = .join e.cache.nextFlight ⟨o, next⟩ := by
            simpa [Action.work?] using hx
          · exact .inr ⟨c, .inl rfl⟩
          · simp [EngineWork.owner?] at own
          · exact .inl joined
        · intro o'
          simp [Action.work?, EngineWork.owner?, eq_comm]

theorem go_wentTo (e : Engine) (now : Nat) (o : Owner) (f : Flow Fact) :
    ∃ leases s f', WentTo e o f (e.go now o f) leases s f' := by
  induction f generalizing e with
  | done r =>
    refine ⟨e.leases, e.scheduler, .done r, ?_⟩
    cases o with
    | attempt task => exact wentTo_one rfl (.attemptDone task r) rfl
    | flight id => exact wentTo_one rfl (.flightDone id r) rfl
    | errand ticket =>
      refine ⟨.refl, .refl e, rfl, rfl, rfl, rfl, .refl _, fun hx _ => .inl ?_, fun o' => ?_⟩
      · simpa [go, ended, after, Action.work?] using hx
      · simp only [go, ended, after, worksOf_cons, Action.work?, worksOf_nil,
          Option.toList_none, List.nil_append]
        omega
  | pause next ih => exact ⟨_, _, .pause next, wentTo_one rfl (.pause o next) rfl⟩
  | checkpoint next ih =>
    refine ⟨e.leases, e.scheduler, .checkpoint next, ?_⟩
    unfold go
    split
    next reason cancelled => exact wentTo_one rfl (.refused o next reason cancelled) rfl
    next cancelled => exact wentTo_one rfl (.safe o next cancelled) rfl
  | compute c next ih => exact ⟨_, _, _, request_wentTo e now o c next⟩
  | lease scope next ih =>
    refine ⟨e.leases, e.scheduler, .lease scope next, ?_⟩
    unfold go
    split
    next b hb => exact wentTo_one rfl (.lease o scope next b hb) rfl
    next f hf => exact wentTo_one rfl (.noLease o scope next f hf) rfl
  | build scope next ih =>
    refine ⟨e.leases, e.scheduler, .build scope next, ?_⟩
    unfold go
    split
    next b hb => exact wentTo_one rfl (.build o scope next b hb) rfl
    next f hf => exact wentTo_one rfl (.noBuild o scope next f hf) rfl
  | release id next ih =>
    obtain ⟨leases, s, f', h⟩ := ih { e with leases := e.leases.release id }
    exact ⟨leases, s, f', .release h.walks, ⟨h.world.1, h.world.2, h.world.3, h.world.4, h.world.5,
      h.world.6⟩, h.scheduler, h.publisher, h.bodies, h.leases_eq,
      .release id h.left, h.mem, h.count⟩
  | declare read scope next ih =>
    obtain ⟨leases, s, f', h⟩ := ih { e with scheduler := e.scheduler.declareFor o read scope }
    have eq : e.go now o (.declare read scope next) =
        go { e with scheduler := e.scheduler.declareFor o read scope } now o next := by
      cases o <;> rfl
    rw [eq]
    exact ⟨leases, s, f', .declare h.walks, ⟨h.world.1, h.world.2, h.world.3, h.world.4, h.world.5,
      h.world.6⟩, h.scheduler, h.publisher, h.bodies, h.leases_eq, h.left, h.mem, h.count⟩
  | look next ih =>
    obtain ⟨leases, s, f', h⟩ := ih (e.moment o) e
    exact ⟨leases, s, f', .look _ h.walks, h.world, h.scheduler, h.publisher, h.bodies, h.leases_eq,
      h.left, h.mem, h.count⟩
  | trace t next ih =>
    obtain ⟨leases, s, f', h⟩ := ih e
    exact ⟨leases, s, f', .trace h.walks, h.world, h.scheduler, h.publisher, h.bodies, h.leases_eq,
      h.left, h.mem, h.count⟩
  | say t next ih =>
    obtain ⟨leases, s, f', h⟩ := ih e
    exact ⟨leases, s, f', .say h.walks, h.world, h.scheduler, h.publisher, h.bodies, h.leases_eq,
      h.left, h.mem, h.count⟩
  | gate name next ih =>
    refine ⟨e.leases, e.scheduler, .gate name next, ?_⟩
    unfold go
    split
    · exact wentTo_one rfl (.gate o name next) rfl
    · refine ⟨.refl, ⟨rfl, rfl, rfl, rfl, rfl, rfl⟩, rfl, rfl, rfl, rfl, .refl _, ?_, ?_⟩
      · intro y hy _
        have : y ∈ e.held ∨ y = .go o next := by
          simp only [after, held, worksOf_nil, List.nil_append, List.map_append, List.map_cons,
            List.map_nil, List.mem_append, List.mem_singleton] at hy ⊢
          grind
        rcases this with old | rfl
        · exact .inl old
        · exact .inr (.inl (.gate o name next))
      · intro o'
        simp [after, held, EngineWork.owner?]
        omega

end Engine

end Quill
