import Quill.Proofs.Cache.Moves

/-!
# The table of computations

Computations stand in the table until their outcome is known, and the calls that wait are counted
there.

## Main definitions

* `Cache.Scene.Table` — the table of computations agrees with what is known of them.
* `Cache.Scene.Queue` — the calls that wait, wait for computations in the table or known.

## Main statements

* `Cache.Move.sound` — every move keeps this.
* `Cache.Act.moves` — an orderly act is a row of moves.
-/

namespace Quill.Cache

variable {τ ω α W : Type} [Weight W]

/-- A change of a computation that keeps its number keeps all numbers. -/
theorem ids_modifyFlight (c : Cache τ ω α W) (id : Nat) {u : Flight α W → Flight α W}
    (keeps : ∀ f, (u f).id = f.id) :
    (c.modifyFlight id u).flights.map Flight.id = c.flights.map Flight.id := by
  simp only [modifyFlight, List.map_map]
  refine List.map_congr_left fun f _ => ?_
  simp only [Function.comp_apply]
  split <;> simp [keeps]

namespace Scene

structure Table (s : Scene τ α W) : Prop where
  distinct : (s.cache.flights.map Flight.id).Nodup
  /-- A computation is in the table until its outcome is known. -/
  place : ∀ id, id ∈ s.cache.flights.map Flight.id ∨ Dict.has s.known id ↔ id < s.cache.nextFlight
  unknown : ∀ f ∈ s.cache.flights, Dict.has s.known f.id = false
  apart : (s.beginnings.map Beginning.flight).Nodup
  beginning : ∀ b ∈ s.beginnings,
    ∃ f ∈ s.cache.flights, f.id = b.flight ∧ f.key = b.key ∧ f.state = .starting
  starting : ∀ f ∈ s.cache.flights, f.state = .starting →
    f.outcome = none ∧ f.id ∈ s.beginnings.map Beginning.flight
  alone : ∀ f ∈ s.cache.flights, f.state ≠ .abandoned →
    ∀ g ∈ s.cache.flights, g.state ≠ .abandoned → f.key = g.key → f.id = g.id
  missing : ∀ f ∈ s.cache.flights, f.state ≠ .abandoned → s.cache.peek? f.key = none
  abandoned : ∀ f ∈ s.cache.flights, f.state = .abandoned ↔ f.id ∈ s.abandoned
  abandoned_lt : ∀ id ∈ s.abandoned, id < s.cache.nextFlight
  undisplaced : ∀ f ∈ s.cache.flights, f.state ≠ .displaced

/-- The calls that wait, wait for computations that are under way or known. -/
structure Queue (s : Scene τ α W) : Prop where
  numbered : s.cache.Numbered
  waiter_lt : ∀ w ∈ s.cache.waiters, w.id < s.cache.nextWaiter
  waiting_lt : ∀ w ∈ s.cache.waiters, w.flight < s.cache.nextFlight
  waiters : ∀ f ∈ s.cache.flights, f.waiters = s.cache.waiters.countP (·.flight == f.id)
  idle : ∀ f ∈ s.cache.flights, f.state ≠ .running → f.waiters = 0

namespace Table

variable {s : Scene τ α W}

theorem eq_of_id_eq (h : s.Table) {f g : Flight α W} (hf : f ∈ s.cache.flights)
    (hg : g ∈ s.cache.flights) (same : f.id = g.id) : f = g :=
  List.inj_on_of_nodup_map h.distinct hf hg same

/-- A computation is changed, but neither its number, its key nor its state. -/
theorem modify (h : s.Table) {id : Nat} {u : Flight α W → Flight α W} (ids : ∀ f, (u f).id = f.id)
    (keys : ∀ f, (u f).key = f.key) (states : ∀ f, (u f).state = f.state)
    (begun : ∀ f ∈ s.cache.flights, f.id = id → f.state = .starting → (u f).outcome = none) :
    Table { s with cache := s.cache.modifyFlight id u } := by
  have place := ids_modifyFlight s.cache id ids
  have id_eq (f : Flight α W) : (if f.id = id then u f else f).id = f.id := by split <;> simp [ids]
  have key_eq (f : Flight α W) : (if f.id = id then u f else f).key = f.key := by
    split <;> simp [keys]
  have state_eq (f : Flight α W) : (if f.id = id then u f else f).state = f.state := by
    split <;> simp [states]
  constructor
  case distinct => exact place ▸ h.distinct
  case place => exact place ▸ h.place
  case apart => exact h.apart
  case beginning => simpa [modifyFlight, id_eq, key_eq, state_eq] using h.beginning
  case abandoned_lt => exact h.abandoned_lt
  all_goals simp only [modifyFlight, List.forall_mem_map, id_eq, key_eq, state_eq]
  case unknown => exact h.unknown
  case starting =>
    intro f mem state
    obtain ⟨none, first⟩ := h.starting f mem state
    refine ⟨?_, first⟩
    split
    next same => exact begun f mem same state
    next => exact none
  case alone => exact h.alone
  case missing => exact h.missing
  case abandoned => exact h.abandoned
  case undisplaced => exact h.undisplaced

/-- Only the number of calls that wait for a computation changes. -/
theorem recount (h : s.Table) {id : Nat} (n : Nat → Nat) :
    Table { s with cache := s.cache.modifyFlight id fun f => { f with waiters := n f.waiters } } :=
  h.modify (fun _ => rfl) (fun _ => rfl) (fun _ => rfl) fun f hf _ state =>
    (h.starting f hf state).1

theorem wait (h : s.Table) (id : Nat) (token : Option (Token τ)) (call : Nat) :
    Table { s with cache := (s.cache.wait id token call).1 } :=
  { h.recount (· + 1) with }

theorem dropWaiter (h : s.Table) (w : Waiter τ Nat) :
    Table { s with cache := s.cache.dropWaiter w } :=
  { h.recount (· - 1) with }

/-- The first part of the latest computation is over. -/
theorem register (h : s.Table) {b : Beginning τ} {rest : List (Beginning τ)}
    (first : s.beginnings = b :: rest) :
    Table { s with
      cache := s.cache.modifyFlight b.flight fun f => { f with state := .running }
      beginnings := rest } := by
  have place := ids_modifyFlight s.cache b.flight
    (u := fun f => { f with state := .running }) fun _ => rfl
  have id_eq (f : Flight α W) : (if f.id = b.flight then { f with state := .running } else f).id =
      f.id := by
    split <;> rfl
  have key_eq (f : Flight α W) :
      (if f.id = b.flight then { f with state := .running } else f).key = f.key := by
    split <;> rfl
  have apart := h.apart
  have beginning := h.beginning
  simp only [first, List.map_cons, List.nodup_cons, List.forall_mem_cons] at apart beginning
  obtain ⟨⟨f, mem, id, key, state⟩, beginning⟩ := beginning
  have now (g : Flight α W) (hg : g ∈ s.cache.flights)
      (state : (if g.id = b.flight then { g with state := .running } else g).state ≠ .abandoned) :
      g.state ≠ .abandoned := by
    split at state
    next same => rw [h.eq_of_id_eq hg mem (same.trans id.symm)]; simp [*]
    next => exact state
  constructor
  case distinct => exact place ▸ h.distinct
  case place => exact place ▸ h.place
  case apart => exact apart.2
  case beginning =>
    intro b' mem'
    obtain ⟨g, hg, id', key', state'⟩ := beginning b' mem'
    refine ⟨g, ?_, id', key', state'⟩
    have other : g.id ≠ b.flight := fun same =>
      apart.1 (List.mem_map.2 ⟨b', mem', by rw [← id', same]⟩)
    simp only [modifyFlight, List.mem_map]
    exact ⟨g, hg, if_neg other⟩
  case abandoned_lt => exact h.abandoned_lt
  all_goals simp only [modifyFlight, List.forall_mem_map, id_eq, key_eq]
  case unknown => exact h.unknown
  case starting =>
    intro g hg
    have := h.starting g hg
    simp [first] at this
    split
    · simp
    · simp_all
  case alone => exact fun f hf sf g hg sg => h.alone f hf (now f hf sf) g hg (now g hg sg)
  case missing => exact fun f hf sf => h.missing f hf (now f hf sf)
  case abandoned =>
    intro g hg
    have := h.abandoned g hg
    split
    next same =>
      rw [h.eq_of_id_eq hg mem (same.trans id.symm)] at this ⊢
      simp [state] at this ⊢
      exact this
    next => exact this
  case undisplaced =>
    intro g hg
    have := h.undisplaced g hg
    split <;> simp [this]

/-- No computation under way is for the key of one that begins. -/
theorem displace_eq_self (h : s.Table) {f : Flight α W} (mem : f ∈ s.cache.flights)
    (state : f.state = .starting) :
    s.cache.displace f.key = s.cache := by
  have same : s.cache.flights.map (fun g =>
      if g.key = f.key && g.state == .running then { g with state := .displaced } else g) =
        s.cache.flights := by
    refine (List.map_congr_left fun g hg => ?_).trans (List.map_id _)
    refine if_neg fun other => ?_
    simp only [Bool.and_eq_true, decide_eq_true_eq, beq_iff_eq] at other
    have id := h.alone g hg (by simp [other.2]) f mem (by simp [state]) other.1
    rw [h.eq_of_id_eq hg mem id, state] at other
    cases other.2
  rw [displace, same]

/-- A computation whose first part is over is in the table. -/
theorem register_eq (h : s.Table) {b : Beginning τ} {rest : List (Beginning τ)}
    (first : s.beginnings = b :: rest) : (s.cache.register b.flight).1 =
      s.cache.modifyFlight b.flight fun f => { f with state := .running } := by
  obtain ⟨f, hf, id, -, state⟩ := h.beginning b (by simp [first])
  have found := flight?_of_mem h.distinct hf
  rw [id] at found
  simp [Cache.register, found, h.displace_eq_self hf state]

/-- Stored values may go. -/
theorem trim (h : s.Table) {cache : Cache τ Nat α W} (trims : s.cache.Trims cache) :
    Table { s with cache } := by
  have missing (f : Flight α W) (mem : f ∈ s.cache.flights) (state : f.state ≠ .abandoned) :=
    trims.peek?_eq_none (h.missing f mem state)
  obtain ⟨flights, nextFlight, -, -, -⟩ := trims
  constructor <;> simp only [flights, nextFlight]
  exacts [h.distinct, h.place, h.unknown, h.apart, h.beginning, h.starting, h.alone,
    missing, h.abandoned, h.abandoned_lt, h.undisplaced]

theorem start (h : s.Table) {key : CacheKey} {kind : Text} {weight : W} {now : Int} {call : Nat}
    {token : Option (Token τ)} (missing : s.cache.peek? key = none)
    (alone : ∀ f ∈ s.cache.flights, f.state ≠ .abandoned → f.key ≠ key) :
    Table { s with
      cache := { s.cache with
        flights := s.cache.flights ++
          [⟨s.cache.nextFlight, key, kind, weight, now, .starting, 0, none⟩]
        nextFlight := s.cache.nextFlight + 1 }
      nextCall := s.nextCall + 1
      beginnings := ⟨s.cache.nextFlight, key, call, token⟩ :: s.beginnings } := by
  have placed (f : Flight α W) (mem : f ∈ s.cache.flights) : f.id < s.cache.nextFlight :=
    (h.place f.id).1 (.inl (List.mem_map_of_mem mem))
  have fresh : s.cache.nextFlight ∉ s.cache.flights.map Flight.id := fun mem =>
    Nat.lt_irrefl _ ((h.place _).1 (.inl mem))
  constructor
  case distinct =>
    simp only [List.map_append, List.map_cons, List.map_nil]
    exact h.distinct.append (by simp) (by simpa using fresh)
  case place =>
    intro id
    have := h.place id
    simp only [List.map_append, List.mem_append, List.map_cons, List.map_nil, List.mem_singleton]
    grind
  case unknown =>
    have := h.place s.cache.nextFlight
    have := h.unknown
    simp
    grind
  case apart =>
    refine List.nodup_cons.2 ⟨fun mem => ?_, h.apart⟩
    obtain ⟨b, hb, same⟩ := List.mem_map.1 mem
    obtain ⟨f, hf, id, -⟩ := h.beginning b hb
    exact fresh (List.mem_map.2 ⟨f, hf, id.trans same⟩)
  case beginning =>
    have new := List.mem_append_right s.cache.flights (List.mem_singleton_self
      (⟨s.cache.nextFlight, key, kind, weight, now, .starting, 0, none⟩ : Flight α W))
    refine List.forall_mem_cons.2 ⟨⟨_, new, rfl, rfl, rfl⟩, ?_⟩
    intro b hb
    obtain ⟨f, hf, facts⟩ := h.beginning b hb
    exact ⟨f, List.mem_append_left _ hf, facts⟩
  case starting =>
    have := h.starting
    grind
  case alone =>
    have := h.alone
    grind
  case missing =>
    have := h.missing
    simp only [peek?] at *
    grind
  case abandoned =>
    have := h.abandoned
    have := h.abandoned_lt s.cache.nextFlight
    grind
  case abandoned_lt => exact fun id mem => Nat.lt_succ_of_lt (h.abandoned_lt id mem)
  case undisplaced => exact List.forall_mem_append.2 ⟨h.undisplaced, by simp⟩

theorem publish (h : s.Table) {f : Flight α W} {r : Except Failure α} {cache : Cache τ Nat α W}
    (mem : f ∈ s.cache.flights) (ended : f.outcome = some r)
    (flights : cache.flights = s.cache.flights.filter (·.id != f.id))
    (nextFlight : cache.nextFlight = s.cache.nextFlight)
    (stored : ∀ {key v}, cache.peek? key = some v → s.cache.peek? key = some v ∨
      f.key = key ∧ r = .ok v ∧ f.state ≠ .abandoned) :
    Table { s with cache, known := Dict.put s.known f.id r } := by
  have kept {g : Flight α W} : g ∈ cache.flights ↔ g ∈ s.cache.flights ∧ g.id ≠ f.id := by
    simp [flights]
  constructor <;> simp only [nextFlight]
  case distinct =>
    rw [flights]
    exact h.distinct.sublist (List.filter_sublist.map _)
  case place =>
    intro id
    have := h.place id
    have := h.place f.id
    simp only [flights, Dict.has, Dict.get?_put, List.mem_map, List.mem_filter,
      bne_iff_ne, ne_eq] at *
    grind
  case unknown =>
    intro g hg
    have := h.unknown g (kept.1 hg).1
    rwa [Dict.has, Dict.get?_put_of_ne _ _ (kept.1 hg).2]
  case apart => exact h.apart
  case beginning =>
    intro b hb
    obtain ⟨g, hg, id, key, state⟩ := h.beginning b hb
    refine ⟨g, kept.2 ⟨hg, fun same => ?_⟩, id, key, state⟩
    have none := (h.starting g hg state).1
    rw [h.eq_of_id_eq hg mem same, ended] at none
    cases none
  case starting => exact fun g hg => h.starting g (kept.1 hg).1
  case alone => exact fun g hg sg g' hg' => h.alone g (kept.1 hg).1 sg g' (kept.1 hg').1
  case missing =>
    intro g hg sg
    refine Option.eq_none_iff_forall_ne_some.2 fun v at_key => ?_
    obtain there | ⟨key, -, sf⟩ := stored at_key
    · simp [h.missing g (kept.1 hg).1 sg] at there
    · exact (kept.1 hg).2 (h.alone g (kept.1 hg).1 sg f mem sf key.symm)
  case abandoned => exact fun g hg => h.abandoned g (kept.1 hg).1
  case abandoned_lt => exact h.abandoned_lt
  case undisplaced => exact fun g hg => h.undisplaced g (kept.1 hg).1

theorem abandon (h : s.Table) {f : Flight α W} (mem : f ∈ s.cache.flights)
    (running : f.state = .running) :
    Table { s with cache := s.cache.abandon f.id, abandoned := s.abandoned ++ [f.id] } := by
  have place := ids_modifyFlight s.cache f.id
    (u := fun f => { f with state := .abandoned }) fun _ => rfl
  have id_eq (g : Flight α W) : (if g.id = f.id then { g with state := .abandoned } else g).id =
      g.id := by
    split <;> rfl
  have key_eq (g : Flight α W) : (if g.id = f.id then { g with state := .abandoned } else g).key =
      g.key := by
    split <;> rfl
  have before {g : Flight α W} {state : FlightState} (other : state ≠ .abandoned)
      (now : (if g.id = f.id then { g with state := .abandoned } else g).state = state) :
      g.state = state := by
    split at now
    · exact absurd now.symm other
    · exact now
  have before' {g : Flight α W}
      (now : (if g.id = f.id then { g with state := .abandoned } else g).state ≠
      .abandoned) : g.state ≠ .abandoned := by
    split at now
    · exact absurd rfl now
    · exact now
  constructor
  case distinct => exact place ▸ h.distinct
  case place => exact place ▸ h.place
  case apart => exact h.apart
  case beginning =>
    intro b hb
    obtain ⟨g, hg, id, key, state⟩ := h.beginning b hb
    have other : g.id ≠ f.id := fun same => by
      rw [h.eq_of_id_eq hg mem same, running] at state
      cases state
    exact ⟨g, List.mem_map.2 ⟨g, hg, if_neg other⟩, id, key, state⟩
  case abandoned_lt =>
    intro id at_end
    obtain there | same := List.mem_append.1 at_end
    · exact h.abandoned_lt id there
    · rw [List.mem_singleton.1 same]
      exact (h.place f.id).1 (.inl (List.mem_map_of_mem mem))
  all_goals simp only [Cache.abandon, count, modifyFlight, List.forall_mem_map, id_eq, key_eq]
  case unknown => exact h.unknown
  case starting =>
    intro g hg state
    have := h.starting g hg (before (by simp) state)
    split <;> exact this
  case alone => exact fun g hg sg g' hg' sg' => h.alone g hg (before' sg) g' hg' (before' sg')
  case missing => exact fun g hg sg => h.missing g hg (before' sg)
  case abandoned =>
    intro g hg
    have := h.abandoned g hg
    split
    next same => simp [same]
    next other => simp [this, other]
  case undisplaced =>
    intro g hg
    have := h.undisplaced g hg
    split <;> simp [this]

/-- Where no computation can be joined and none begins, there is none but abandoned ones. -/
theorem alone_of_running? (sound : s.Table) {key : CacheKey} (none : s.cache.running? key = none)
    (begun : ∀ b ∈ s.beginnings, b.key ≠ key) :
    ∀ f ∈ s.cache.flights, f.state ≠ .abandoned → f.key ≠ key := by
  intro f hf state same
  have := List.find?_eq_none.1 none f hf
  cases running : f.state with
  | starting =>
    obtain ⟨b, hb, id⟩ := List.mem_map.1 (sound.starting f hf running).2
    obtain ⟨g, hg, id', key', -⟩ := sound.beginning b hb
    rw [sound.eq_of_id_eq hg hf (id'.trans id)] at key'
    exact begun b hb (key'.symm.trans same)
  | running => simp [same, running] at this
  | abandoned => exact state running
  | displaced => exact sound.undisplaced f hf running

end Table

namespace Queue

variable {s s' : Scene τ α W}

/-- Computations are changed, but not for the calls that wait. -/
theorem of_flights (h : s.Queue) (waiters : s'.cache.waiters = s.cache.waiters)
    (nextWaiter : s'.cache.nextWaiter = s.cache.nextWaiter)
    (nextFlight : s.cache.nextFlight ≤ s'.cache.nextFlight)
    (flights : ∀ g ∈ s'.cache.flights, (∃ f ∈ s.cache.flights,
      f.id = g.id ∧ f.waiters = g.waiters ∧
        (f.state = .running → g.state = .running ∨ f.waiters = 0)) ∨
      g.id = s.cache.nextFlight ∧ g.waiters = 0) : s'.Queue := by
  constructor
  case numbered =>
    rw [Numbered, waiters]
    exact h.numbered
  case waiter_lt => exact waiters ▸ nextWaiter ▸ h.waiter_lt
  case waiting_lt => exact fun w hw => Nat.lt_of_lt_of_le (h.waiting_lt w (waiters ▸ hw)) nextFlight
  case waiters =>
    intro g hg
    obtain ⟨f, hf, id, same, -⟩ | ⟨id, none⟩ := flights g hg
    · rw [← same, ← id, waiters, h.waiters f hf]
    · rw [none, eq_comm, List.countP_eq_zero, waiters]
      intro w hw
      have := h.waiting_lt w hw
      simp
      omega
  case idle =>
    intro g hg state
    obtain ⟨f, hf, -, same, running⟩ | ⟨-, none⟩ := flights g hg
    · rw [← same]
      by_cases before : f.state = .running
      · exact (running before).resolve_left state
      · exact h.idle f hf before
    · exact none

theorem trim (h : s.Queue) {cache : Cache τ Nat α W} (trims : s.cache.Trims cache) :
    Queue { s with cache } :=
  h.of_flights trims.waiters trims.nextWaiter (Nat.le_of_eq trims.nextFlight.symm) (by
    rw [trims.flights]
    exact fun f hf => .inl ⟨f, hf, rfl, rfl, .inl⟩)

theorem wait (h : s.Queue) (table : s.Table) {f : Flight α W} (mem : f ∈ s.cache.flights)
    (running : f.state = .running) (token : Option (Token τ)) (call : Nat) :
    Queue { s with cache := (s.cache.wait f.id token call).1 } := by
  constructor <;> simp only [Cache.wait]
  case numbered =>
    have := h.waiter_lt
    have := h.numbered
    simp [Numbered, List.nodup_append] at *
    grind
  case waiter_lt =>
    have := h.waiter_lt
    grind
  case waiting_lt =>
    have := h.waiting_lt
    have := (table.place f.id).1 (.inl (List.mem_map_of_mem mem))
    simp [modifyFlight]
    grind
  all_goals simp only [modifyFlight, List.forall_mem_map]
  case waiters =>
    intro g hg
    have := h.waiters g hg
    simp [List.countP_append, List.countP_cons]
    grind
  case idle =>
    intro g hg
    have := h.idle g hg
    split
    next same => simp [table.eq_of_id_eq hg mem same, running]
    next => exact this

/-- A call no longer waits. -/
theorem dropWaiter (h : s.Queue) {w : Waiter τ Nat} (mem : w ∈ s.cache.waiters) :
    Queue { s with cache := s.cache.dropWaiter w } := by
  constructor <;> simp only [Cache.dropWaiter]
  case numbered => exact h.numbered.dropWaiter w
  case waiter_lt => exact fun v hv => h.waiter_lt v (List.mem_filter.1 hv).1
  case waiting_lt => exact fun v hv => h.waiting_lt v (List.mem_filter.1 hv).1
  all_goals simp only [modifyFlight, List.forall_mem_map]
  case waiters =>
    intro g hg
    have := h.waiters g hg
    have := h.numbered.countP_dropWaiter mem (·.flight == g.id)
    simp only [Cache.dropWaiter] at this
    grind
  case idle =>
    intro g hg
    have := h.idle g hg
    split <;> simp <;> grind

end Queue

/-- The table and the calls that wait agree with what is known. -/
structure Sound (s : Scene τ α W) : Prop extends s.Table, s.Queue

theorem Sound.start (policy : EvictionPolicy) (maxWeight : W) :
    Scene.Sound ({ cache := { policy, maxWeight } } : Scene τ α W) := by
  constructor <;> constructor <;> simp [Dict.has, Numbered]

end Scene

variable [DecidableEq τ] {s s' : Scene τ α W} {hs : List (Happening τ α)}

/-! ## Moves -/

open Scene in
theorem Move.sound (h : s.Sound) (move : Move s hs s') : s'.Sound := by
  cases move with
  | refuse fired => exact ⟨{ h.toTable with }, { h.toQueue with }⟩
  | hit stored trims => exact ⟨{ h.toTable.trim trims with }, { h.toQueue.trim trims with }⟩
  | join mem running free =>
    exact ⟨{ h.toTable.wait _ _ _ with }, { h.toQueue.wait h.toTable mem running _ _ with }⟩
  | @start key token kind weight now cache missing alone trims =>
    refine ⟨(h.toTable.start missing alone).trim trims, Queue.trim (s := { s with
      cache := { s.cache with
        flights := s.cache.flights ++
          [⟨s.cache.nextFlight, key, kind, weight, now, .starting, 0, none⟩]
        nextFlight := s.cache.nextFlight + 1 }
      nextCall := s.nextCall + 1
      beginnings := ⟨s.cache.nextFlight, key, s.nextCall, token⟩ :: s.beginnings }) ?_ trims⟩
    refine h.toQueue.of_flights rfl rfl (Nat.le_succ _) fun g hg => ?_
    obtain there | new := List.mem_append.1 hg
    · exact .inl ⟨g, there, rfl, rfl, .inl⟩
    · rw [List.mem_singleton.1 new]
      exact .inr ⟨rfl, rfl⟩
  | @enter b rest first =>
    obtain ⟨f, hf, id, key, state⟩ := h.beginning b (by simp [first])
    have registered := h.toTable.register first
    have queue : Queue { s with
        cache := s.cache.modifyFlight b.flight fun f => { f with state := .running }
        beginnings := rest } := h.toQueue.of_flights rfl rfl (Nat.le_refl _) (by
      simp only [modifyFlight, List.forall_mem_map]
      intro f hf
      refine .inl ⟨f, hf, ?_⟩
      split <;> simp +contextual)
    let f' : Flight α W := { f with state := .running }
    have mem : f' ∈ (s.cache.modifyFlight b.flight fun f => { f with state := .running }).flights :=
      List.mem_map.2 ⟨f, hf, if_pos id⟩
    have waiting := queue.wait registered mem rfl b.token b.call
    rw [show f'.id = b.flight from id] at waiting
    exact ⟨registered.wait _ _ _, waiting⟩
  | settle mem begun going r =>
    refine ⟨h.toTable.modify (fun _ => rfl) (fun _ => rfl) (fun _ => rfl) fun g hg same state => ?_,
      h.toQueue.of_flights rfl rfl (Nat.le_refl _) ?_⟩
    · rw [h.eq_of_id_eq hg mem same] at state
      exact absurd state begun
    · simp only [modifyFlight, List.forall_mem_map]
      intro g hg
      refine .inl ⟨g, hg, ?_⟩
      split <;> simp +contextual
  | publish mem ended flights nextFlight waiters nextWaiter stored =>
    refine ⟨h.toTable.publish mem ended flights nextFlight stored,
      h.toQueue.of_flights waiters nextWaiter (Nat.le_of_eq nextFlight.symm) fun g hg => ?_⟩
    rw [flights] at hg
    exact .inl ⟨g, (List.mem_filter.1 hg).1, rfl, rfl, .inl⟩
  | tell mem known => exact ⟨h.toTable.dropWaiter _, h.toQueue.dropWaiter mem⟩
  | leave mem under fired => exact ⟨h.toTable.dropWaiter _, h.toQueue.dropWaiter mem⟩
  | desert mem running deserted =>
    refine ⟨h.toTable.abandon mem running, h.toQueue.of_flights rfl rfl (Nat.le_refl _) ?_⟩
    simp only [desert_cache, Cache.abandon, count, modifyFlight, List.forall_mem_map]
    intro g hg
    refine .inl ⟨g, hg, ?_⟩
    split
    next same => simp [h.eq_of_id_eq hg mem same, deserted]
    next => simp +contextual
  | fire new reason => exact ⟨{ h.toTable with }, { h.toQueue with }⟩
  | trim trims => exact ⟨h.toTable.trim trims, h.toQueue.trim trims⟩

theorem Moves.sound (h : s.Sound) (moves : Moves s hs s') : s'.Sound := by
  induction moves with
  | refl => exact h
  | cons first _ ih => exact ih (first.sound h)

/-! ## Acts -/

theorem moves_cancel (sound : s.Sound) (token : Token τ) (reason : CancelReason)
    (fired : s.reason? token = some reason) :
    ∃ hs, Moves s hs (s.cancel token reason).1 ∧ hs.Perm (s.cancel token reason).2 :=
  moves_cancelDeep _ s token reason sound.numbered fired

/-- A call that does not clash is for a place, and no computation for it is running its first
part. -/
theorem Act.place_eq_of_orderly {key : CacheKey} {weight : W} {now : Int} {token : Option (Token τ)}
    (orderly : (Act.call key weight now token : Act τ α W).Orderly s) :
    key.place = key ∧ ∀ b ∈ s.beginnings, b.key ≠ key := by
  simpa [Act.Orderly, Act.Clashes, Act.Allowed] using And.right (Bool.and_eq_true_iff.1 orderly)

theorem Act.moves (sound : s.Sound) (a : Act τ α W) (orderly : a.Orderly s) :
    ∃ hs, Moves s hs (a.apply s).1 ∧ hs.Perm (a.apply s).2 := by
  have allowed := (Bool.and_eq_true_iff.1 orderly).1
  cases a with
  | call key weight now token =>
    obtain ⟨own, apart⟩ := Act.place_eq_of_orderly orderly
    have asked := ask_cases s.cache key weight now
    rw [own] at asked
    simp only [Act.apply, own]
    split
    next reason fired =>
      obtain ⟨t, rfl, fired⟩ := Option.bind_eq_some_iff.1 fired
      exact ⟨_, (Move.refuse fired).moves, .refl _⟩
    next free =>
      have free (t : Token τ) (under : token = some t) : s.reason? t = none := by
        simpa [under] using free
      obtain ⟨cache, v, ts, asks, stored, trims⟩ | ⟨cache, f, ts, asks, mem, running, trims⟩ |
        ⟨cache, ts, asks, missing, none, trims⟩ := asked
      · rw [asks]
        exact ⟨_, (Move.hit stored trims).moves, .refl _⟩
      · rw [asks]
        obtain ⟨mem, rfl⟩ := mem
        have join : Move { s with cache } _ _ := .join (trims.flights ▸ mem) running free
        exact ⟨_, (Move.trim trims).moves.trans join.moves, .refl _⟩
      · rw [asks]
        have alone := sound.alone_of_running? none apart
        exact ⟨_, (Move.start missing alone trims).moves, .refl _⟩
  | pause =>
    cases first : s.beginnings with
    | nil => simp [Act.Allowed, first] at allowed
    | cons b rest =>
      have registered := sound.register_eq first
      have enter := Move.enter first
      simp only [Act.apply, first, registered]
      split
      next => exact ⟨_, enter.moves, .refl _⟩
      next token _ =>
        split
        next => exact ⟨_, enter.moves, .refl _⟩
        next reason fired =>
          obtain ⟨hs, moves, perm⟩ := moves_cancel (enter.sound sound) token reason fired
          exact ⟨_, enter.moves.trans moves, perm.cons _⟩
  | settle id r =>
    obtain ⟨f, found, facts⟩ := (Option.any_eq_true _ _).1 allowed
    obtain ⟨mem, rfl⟩ := mem_of_flight? found
    simp only [Bool.and_eq_true, bne_iff_ne, ne_eq, Option.isNone_iff_eq_none] at facts
    exact ⟨_, (Move.settle mem facts.1 facts.2 r).moves, .refl _⟩
  | publish id now =>
    obtain ⟨f, found, ended⟩ := (Option.any_eq_true _ _).1 allowed
    obtain ⟨r, ended⟩ := Option.isSome_iff_exists.1 ended
    obtain ⟨mem, rfl⟩ := mem_of_flight? found
    have known : (s.cache.flight? f.id).bind Flight.outcome = some r := by simp [found, ended]
    obtain ⟨flights, nextFlight, waiters, nextWaiter, stored⟩ := publish_eq found ended now
    simp only [Act.apply, known]
    refine ⟨_, (Move.publish mem ended flights nextFlight waiters nextWaiter fun there => ?_).moves,
      .refl _⟩
    obtain old | ⟨key, ok, running⟩ := stored there
    · exact .inl old
    · exact .inr ⟨key, ok, by simp [running]⟩
  | deliver waiter =>
    obtain ⟨w, found, known⟩ := (Option.any_eq_true _ _).1 allowed
    obtain ⟨r, known⟩ := Option.isSome_iff_exists.1 known
    simp only [Act.apply, Cache.deliver, found, Option.bind_some, known]
    exact ⟨_, (Move.tell (mem_of_waiter? found).1 known).moves, .refl _⟩
  | fire token reason =>
    have fire : Move s [] { s with fired := Dict.put s.fired token reason } :=
      .fire (by simpa [Act.Allowed, Dict.has] using allowed) reason
    obtain ⟨hs, moves, perm⟩ := moves_cancel (fire.sound sound) (.caller token) reason
      (by simp [Scene.reason?])
    exact ⟨_, fire.moves.trans moves, perm⟩
  | clear => exact ⟨_, (Move.trim (trims_clear _)).moves, .refl _⟩
  | invalidateKind kind => exact ⟨_, (Move.trim (trims_invalidateKind _ kind)).moves, .refl _⟩
  | setMaxWeight maxWeight => exact ⟨_, (Move.trim (trims_setMaxWeight _ maxWeight)).moves, .refl _⟩

end Quill.Cache
