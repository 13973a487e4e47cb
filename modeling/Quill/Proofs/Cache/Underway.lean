import Quill.Proofs.Cache.Moves
import Quill.Proofs.Data.Dict

/-!
# What is stored is not under way

There is a table of stored values and one of computations. Calls, ends of computations,
cancellations and what removes values follow one another in any order, and computations may even
call for their own values. Throughout, there is at most one computation for a key that can be
joined, and then no value is stored under the key.

## Main definitions

* `Cache.Act.Timely` — when an act may be done.
* `Cache.Keeps`, `Cache.Settles` — computations have changed, and no value is stored that was not.
* `Cache.Scene.Disjoint` — stored values are not under way.

## Main statements

* `Cache.keeps_cancelDeep` — a cancellation touches no stored value.
* `Cache.Act.disjoint` — every act keeps stored values and computations apart.
-/

namespace Quill.Cache

variable {τ ω α W : Type} [Weight W]

/-- A computation is over once, behind its first part. What is not over is not made known, and
nothing is made known while the first part of a computation for the same key is running. -/
def Act.Timely [DecidableEq τ] (s : Scene τ α W) : Act τ α W → Bool
  | .call .. => true
  | .publish id _ => (s.cache.flight? id).any fun f =>
      f.outcome.isSome && s.beginnings.all (·.key ≠ f.key)
  | a => a.Allowed s

/-- A computation whose value is going to be stored when it becomes known. -/
def Scene.yields? (s : Scene τ α W) (id : Nat) : Option (Flight α W) :=
  (s.cache.flight? id).filter fun f => f.state == .running && f.outcome.any Except.isOk

/-- The value of a computation is stored exactly if it was computed while the computation was under
way. -/
theorem yields?_eq_some_iff {s : Scene τ α W} {id : Nat} {f : Flight α W} : s.yields? id = some f ↔
    s.cache.flight? id = some f ∧ f.state = .running ∧ ∃ value, f.outcome = some (.ok value) := by
  have isOk (outcome : Option (Except Failure α)) :
      outcome.any Except.isOk = true ↔ ∃ value, outcome = some (.ok value) := by
    rcases outcome with - | - | value <;> simp [Except.isOk, Except.toBool]
  simp [Scene.yields?, Option.filter_eq_some_iff, isOk]

/-! ## Computations that change -/

/-- The computations of `c'` are those of `c`; some were abandoned, some are over, and calls have
come or gone. -/
structure Keeps (c c' : Cache τ ω α W) : Prop where
  entries : c'.entries = c.entries
  weight : c'.weight = c.weight
  maxWeight : c'.maxWeight = c.maxWeight
  policy : c'.policy = c.policy
  nextFlight : c'.nextFlight = c.nextFlight
  ids : c'.flights.map Flight.id = c.flights.map Flight.id
  flights : ∀ g ∈ c'.flights, ∃ f ∈ c.flights, f.id = g.id ∧ f.key = g.key ∧ f.weight = g.weight ∧
    (f.state = g.state ∨ f.state = .running ∧ g.state = .abandoned) ∧
    (f.state = .starting → g.outcome = f.outcome)

variable {c c' c'' : Cache τ ω α W}

theorem Keeps.refl (c : Cache τ ω α W) : c.Keeps c :=
  ⟨rfl, rfl, rfl, rfl, rfl, rfl, fun f mem => ⟨f, mem, rfl, rfl, rfl, .inl rfl, fun _ => rfl⟩⟩

theorem Keeps.trans (h : c.Keeps c') (g : c'.Keeps c'') : c.Keeps c'' where
  entries := g.entries.trans h.entries
  weight := g.weight.trans h.weight
  maxWeight := g.maxWeight.trans h.maxWeight
  policy := g.policy.trans h.policy
  nextFlight := g.nextFlight.trans h.nextFlight
  ids := g.ids.trans h.ids
  flights := by
    intro x hx
    obtain ⟨y, hy, id, key, weight, state, outcome⟩ := g.flights x hx
    obtain ⟨z, hz, id', key', weight', state', outcome'⟩ := h.flights y hy
    refine ⟨z, hz, id'.trans id, key'.trans key, weight'.trans weight, ?_, ?_⟩
    · grind
    · grind

/-- A computation is changed, but neither its number, its key nor its weight. -/
theorem keeps_modifyFlight (c : Cache τ ω α W) (id : Nat) {u : Flight α W → Flight α W}
    (same : ∀ f, (u f).id = f.id ∧ (u f).key = f.key ∧ (u f).weight = f.weight)
    (state : ∀ f ∈ c.flights, f.id = id →
      f.state = (u f).state ∨ f.state = .running ∧ (u f).state = .abandoned)
    (outcome : ∀ f ∈ c.flights, f.id = id → f.state = .starting → (u f).outcome = f.outcome) :
    c.Keeps (c.modifyFlight id u) where
  entries := rfl
  weight := rfl
  maxWeight := rfl
  policy := rfl
  nextFlight := rfl
  ids := by
    simp only [modifyFlight, List.map_map]
    refine List.map_congr_left fun f _ => ?_
    simp only [Function.comp_apply]
    split <;> simp [same]
  flights := by
    simp only [modifyFlight, List.forall_mem_map]
    intro f mem
    refine ⟨f, mem, ?_⟩
    split
    next own =>
      obtain ⟨id, key, weight⟩ := same f
      exact ⟨id.symm, key.symm, weight.symm, state f mem own, outcome f mem own⟩
    next => exact ⟨rfl, rfl, rfl, .inl rfl, fun _ => rfl⟩

theorem keeps_wait (c : Cache τ ω α W) (id : Nat) (token : Option (Token τ)) (call : ω) :
    c.Keeps (c.wait id token call).1 := by
  have kept := keeps_modifyFlight c id (u := fun f => { f with waiters := f.waiters + 1 })
    (fun _ => ⟨rfl, rfl, rfl⟩) (fun _ _ _ => .inl rfl) fun _ _ _ _ => rfl
  exact { kept with }

theorem keeps_dropWaiter (c : Cache τ ω α W) (w : Waiter τ ω) : c.Keeps (c.dropWaiter w) := by
  have kept := keeps_modifyFlight c w.flight (u := fun f => { f with waiters := f.waiters - 1 })
    (fun _ => ⟨rfl, rfl, rfl⟩) (fun _ _ _ => .inl rfl) fun _ _ _ _ => rfl
  exact { kept with }

theorem keeps_abandon (distinct : (c.flights.map Flight.id).Nodup)
    {f : Flight α W} (mem : f ∈ c.flights)
    (running : f.state = .running) : c.Keeps (c.abandon f.id) := by
  have only {g : Flight α W} (hg : g ∈ c.flights) (same : g.id = f.id) : g.state = .running :=
    List.inj_on_of_nodup_map distinct hg mem same ▸ running
  have kept := keeps_modifyFlight c f.id (u := fun f => { f with state := .abandoned })
    (fun _ => ⟨rfl, rfl, rfl⟩) (fun g hg same => .inr ⟨only hg same, rfl⟩)
    fun g hg same state => by simp [only hg same] at state
  exact { kept with }

section

variable [DecidableEq τ] {s : Scene τ α W}

/-- A cancellation abandons computations that are under way. -/
theorem keeps_cancelDeep (depth : Nat) (s : Scene τ α W)
    (distinct : (s.cache.flights.map Flight.id).Nodup) (token : Token τ) (reason : CancelReason) :
    s.cache.Keeps (cancelDeep depth s.cache token reason).1 := by
  induction depth generalizing s token reason with
  | zero => exact .refl _
  | succ depth ih =>
    have gives (s : Scene τ α W) (distinct : (s.cache.flights.map Flight.id).Nodup)
        (w : Waiter τ Nat) :
        s.cache.Keeps (giveUp (cancelDeep depth) reason s.cache w).1 := by
      obtain ⟨-, eq⟩ | ⟨v, -, -, -, eq⟩ | ⟨v, -, -, ⟨f, hf, id, running, -⟩, r, hr, t, eq⟩ :=
        giveUp_cases (cancelDeep depth) reason s w
      · exact eq ▸ .refl _
      · exact eq ▸ keeps_dropWaiter s.cache v
      · have dropped := keeps_dropWaiter s.cache v
        have deserted := keeps_abandon (dropped.ids ▸ distinct) hf running
        have left := dropped.trans deserted
        rw [id] at left
        rw [eq, hr]
        exact left.trans (ih ((s.drop v).desert v.flight) (left.ids ▸ distinct) _ _)
    rw [cancelDeep_succ]
    -- one call after another gives up
    suffices all : ∀ (ws : List (Waiter τ Nat)) (acc : Cache τ Nat α W × List (Consequence Nat)),
        s.cache.Keeps acc.1 → s.cache.Keeps (ws.foldl (fun acc w =>
          ((giveUp (cancelDeep depth) reason acc.1 w).1,
            acc.2 ++ (giveUp (cancelDeep depth) reason acc.1 w).2)) acc).1 from all _ _ (.refl _)
    intro ws
    induction ws with
    | nil => exact fun _ kept => kept
    | cons w ws ih =>
      intro acc kept
      exact ih _ (kept.trans (gives (s.take acc) (kept.ids ▸ distinct) w))

end

theorem has_eq_false_iff_peek? {key : CacheKey} : c.has key = false ↔ c.peek? key = none := by
  simp [Cache.has, Dict.has, peek?]

/-- The computations of `c'` are those of `c` as well, and no value is stored in it that is not in
`c`. -/
structure Settles (c c' : Cache τ ω α W) : Prop where
  nextFlight : c'.nextFlight = c.nextFlight
  ids : c'.flights.map Flight.id = c.flights.map Flight.id
  flights : ∀ g ∈ c'.flights, ∃ f ∈ c.flights, f.id = g.id ∧ f.key = g.key ∧
    (f.state = g.state ∨ f.state = .running ∧ g.state = .abandoned) ∧
    (f.state = .starting → g.outcome = f.outcome)
  missing : ∀ key, c.peek? key = none → c'.peek? key = none

theorem Keeps.settles (kept : c.Keeps c') : c.Settles c' where
  nextFlight := kept.nextFlight
  ids := kept.ids
  flights := by
    intro g hg
    obtain ⟨f, hf, id, key, -, state, outcome⟩ := kept.flights g hg
    exact ⟨f, hf, id, key, state, outcome⟩
  missing := fun key none => by rwa [peek?, kept.entries]

theorem Trims.settles (trims : c.Trims c') : c.Settles c' where
  nextFlight := trims.nextFlight
  ids := congrArg _ trims.flights
  flights := trims.flights ▸ fun f hf => ⟨f, hf, rfl, rfl, .inl rfl, fun _ => rfl⟩
  missing := fun _ none => trims.peek?_eq_none none

/-! ## Two tables -/

namespace Scene

/-- No value is stored for which a computation has begun or is under way, and of those under way
there is one for a key. The computations that run their first part are those that have begun. -/
structure Disjoint (s : Scene τ α W) : Prop where
  distinct : (s.cache.flights.map Flight.id).Nodup
  place : ∀ f ∈ s.cache.flights, f.id < s.cache.nextFlight
  apart : (s.beginnings.map Beginning.flight).Nodup
  beginning : ∀ b ∈ s.beginnings,
    ∃ f ∈ s.cache.flights, f.id = b.flight ∧ f.key = b.key ∧ f.state = .starting
  starting : ∀ f ∈ s.cache.flights, f.state = .starting →
    f.outcome = none ∧ f.id ∈ s.beginnings.map Beginning.flight
  alone : ∀ f ∈ s.cache.flights, f.state = .running →
    ∀ g ∈ s.cache.flights, g.state = .running → f.key = g.key → f.id = g.id
  missing : ∀ f ∈ s.cache.flights, f.state = .starting ∨ f.state = .running →
  s.cache.peek? f.key = none

theorem Disjoint.start (policy : EvictionPolicy) (maxWeight : W) :
    Disjoint ({ cache := { policy, maxWeight } } : Scene τ α W) := by
  constructor <;> simp

namespace Disjoint

variable {s s' : Scene τ α W}

theorem eq_of_id_eq (h : s.Disjoint) {f g : Flight α W} (hf : f ∈ s.cache.flights)
    (hg : g ∈ s.cache.flights) (same : f.id = g.id) : f = g :=
  List.inj_on_of_nodup_map h.distinct hf hg same

/-- Computations are abandoned or over, and values go. -/
theorem settle (h : s.Disjoint) (settles : s.cache.Settles s'.cache)
    (beginnings : s'.beginnings = s.beginnings) :
    s'.Disjoint := by
  have before {g : Flight α W} (hg : g ∈ s'.cache.flights) := settles.flights g hg
  constructor
  case distinct => exact settles.ids ▸ h.distinct
  case apart => exact beginnings ▸ h.apart
  case place =>
    intro g hg
    obtain ⟨f, hf, id, -⟩ := before hg
    exact id ▸ settles.nextFlight ▸ h.place f hf
  case beginning =>
    intro b hb
    obtain ⟨f, hf, id, key, state⟩ := h.beginning b (beginnings ▸ hb)
    obtain ⟨g, hg, same⟩ :=
      List.mem_map.1 (settles.ids ▸ List.mem_map_of_mem hf : f.id ∈ s'.cache.flights.map Flight.id)
    obtain ⟨f', hf', id', key', state', -⟩ := before hg
    obtain rfl := h.eq_of_id_eq hf' hf (id'.trans same)
    exact ⟨g, hg, same.trans id, key'.symm.trans key, by grind⟩
  case starting =>
    intro g hg state
    obtain ⟨f, hf, id, -, state', outcome⟩ := before hg
    have begun : f.state = .starting := by grind
    obtain ⟨none, first⟩ := h.starting f hf begun
    exact ⟨(outcome begun).trans none, id ▸ beginnings ▸ first⟩
  case alone =>
    intro f hf running g hg running' same
    obtain ⟨f₀, hf₀, id, key, state, -⟩ := before hf
    obtain ⟨g₀, hg₀, id', key', state', -⟩ := before hg
    rw [← id, ← id']
    exact h.alone f₀ hf₀ (by grind) g₀ hg₀ (by grind) (by rw [key, key', same])
  case missing =>
    intro g hg begun
    obtain ⟨f, hf, -, key, state, -⟩ := before hg
    rw [← key]
    exact settles.missing _ (h.missing f hf (by grind))

theorem begin (h : s.Disjoint) {key : CacheKey} (missing : s.cache.peek? key = none) (kind : Text)
    (weight : W) (now : Int) (call : Nat) (token : Option (Token τ)) :
    Disjoint { s with
      cache := { s.cache with
        flights := s.cache.flights ++
          [⟨s.cache.nextFlight, key, kind, weight, now, .starting, 0, none⟩]
        nextFlight := s.cache.nextFlight + 1 }
      beginnings := ⟨s.cache.nextFlight, key, call, token⟩ :: s.beginnings } := by
  have fresh : s.cache.nextFlight ∉ s.cache.flights.map Flight.id := fun mem => by
    obtain ⟨f, hf, id⟩ := List.mem_map.1 mem
    exact Nat.lt_irrefl _ (id ▸ h.place f hf)
  constructor
  case distinct =>
    simp only [List.map_append, List.map_cons, List.map_nil]
    exact h.distinct.append (by simp) (by simpa using fresh)
  case place =>
    exact List.forall_mem_append.2 ⟨fun f hf => Nat.lt_succ_of_lt (h.place f hf), by simp⟩
  case apart =>
    refine List.nodup_cons.2 ⟨fun mem => ?_, h.apart⟩
    obtain ⟨b, hb, same⟩ := List.mem_map.1 mem
    obtain ⟨f, hf, id, -⟩ := h.beginning b hb
    exact fresh (List.mem_map.2 ⟨f, hf, id.trans same⟩)
  case beginning =>
    refine List.forall_mem_cons.2
      ⟨⟨_, List.mem_append_right _ (List.mem_singleton_self _), rfl, rfl, rfl⟩, ?_⟩
    intro b hb
    obtain ⟨f, hf, facts⟩ := h.beginning b hb
    exact ⟨f, List.mem_append_left _ hf, facts⟩
  case starting =>
    refine List.forall_mem_append.2 ⟨fun f hf state => ?_, by simp⟩
    exact (h.starting f hf state).imp_right (List.mem_cons_of_mem _)
  case alone =>
    have := h.alone
    grind
  case missing => exact List.forall_mem_append.2 ⟨h.missing,
    List.forall_mem_singleton.2 fun _ => missing⟩

/-- The first part of the latest computation is over. It takes the place of one for the same key. -/
theorem register (h : s.Disjoint) {b : Beginning τ} {rest : List (Beginning τ)}
    (first : s.beginnings = b :: rest) :
    Disjoint { s with cache := (s.cache.register b.flight).1, beginnings := rest } := by
  have apart := h.apart
  have beginning := h.beginning
  simp only [first, List.map_cons, List.nodup_cons, List.forall_mem_cons] at apart beginning
  obtain ⟨⟨f, mem, id, key, state⟩, beginning⟩ := beginning
  have found := flight?_of_mem h.distinct mem
  rw [id] at found
  -- what becomes of a computation
  let u (g : Flight α W) : Flight α W :=
    if g.id = b.flight then { g with state := .running }
    else if g.key = f.key && g.state == .running then { g with state := .displaced } else g
  have registered : (s.cache.register b.flight).1 =
      { s.cache with flights := s.cache.flights.map u } := by
    simp only [Cache.register, found, modifyFlight, displace, List.map_map]
    congr 1
    refine List.map_congr_left fun g _ => ?_
    simp only [Function.comp_apply, u]
    grind
  have same (g : Flight α W) : (u g).id = g.id ∧ (u g).key = g.key ∧ (u g).outcome = g.outcome := by
    grind
  have starting (g : Flight α W) : (u g).state = .starting ↔ g.state = .starting ∧
      g.id ≠ b.flight := by grind
  have running (g : Flight α W) : (u g).state = .running ↔ g.id = b.flight ∨ g.state = .running ∧
      g.key ≠ f.key := by
    grind
  have own {g : Flight α W} (hg : g ∈ s.cache.flights) (same : g.id = b.flight) : g = f :=
    h.eq_of_id_eq hg mem (same.trans id.symm)
  rw [registered]
  constructor
  case distinct =>
    rw [List.map_map]
    exact (List.map_congr_left fun g _ => (same g).1 : s.cache.flights.map (Flight.id ∘ u) = _) ▸
      h.distinct
  case apart => exact apart.2
  case beginning =>
    intro b' mem'
    obtain ⟨g, hg, id', key', state'⟩ := beginning b' mem'
    have other : g.id ≠ b.flight := fun eq => apart.1 (List.mem_map.2 ⟨b', mem', by rw [← id', eq]⟩)
    exact ⟨u g, List.mem_map_of_mem hg, (same g).1.trans id', (same g).2.1.trans key',
      (starting g).2 ⟨state', other⟩⟩
  all_goals simp only [List.forall_mem_map, same, starting, running]
  case place => exact h.place
  case starting =>
    intro g hg state
    obtain ⟨none, there⟩ := h.starting g hg state.1
    rw [first] at there
    exact ⟨none, (List.mem_cons.1 there).resolve_left state.2⟩
  case alone =>
    have := h.alone
    grind
  case missing =>
    intro g hg begun
    obtain ⟨begun, -⟩ | eq | ⟨going, -⟩ := begun
    · exact h.missing g hg (.inl begun)
    · exact own hg eq ▸ h.missing f mem (.inl state)
    · exact h.missing g hg (.inr going)

/-- The outcome of a computation becomes known, and if the computation is under way its value may be
stored. -/
theorem publish (h : s.Disjoint) {f : Flight α W} {r : Except Failure α} (mem : f ∈ s.cache.flights)
    (ended : f.outcome = some r) (free : ∀ b ∈ s.beginnings, b.key ≠ f.key)
    (flights : s'.cache.flights = s.cache.flights.filter (·.id != f.id))
    (nextFlight : s'.cache.nextFlight = s.cache.nextFlight)
    (beginnings : s'.beginnings = s.beginnings)
    (stored : ∀ {key v}, s'.cache.peek? key = some v → s.cache.peek? key = some v ∨ f.key = key ∧
      f.state = .running) :
    s'.Disjoint := by
  have others {g : Flight α W} (hg : g ∈ s'.cache.flights) : g ∈ s.cache.flights ∧ g.id ≠ f.id := by
    simpa [flights] using hg
  constructor
  case distinct => exact flights ▸ h.distinct.sublist (List.filter_sublist.map _)
  case place => exact fun g hg => nextFlight ▸ h.place g (others hg).1
  case apart => exact beginnings ▸ h.apart
  case beginning =>
    intro b hb
    obtain ⟨g, hg, id, key, state⟩ := h.beginning b (beginnings ▸ hb)
    have other : g.id ≠ f.id := by
      intro same
      rw [h.eq_of_id_eq hg mem same] at state
      simp [(h.starting f mem state).1] at ended
    exact ⟨g, flights ▸ List.mem_filter.2 ⟨hg, by simpa using other⟩, id, key, state⟩
  case starting => exact fun g hg state => beginnings ▸ h.starting g (others hg).1 state
  case alone => exact fun g hg running g' hg' => h.alone g (others hg).1 running g' (others hg').1
  case missing =>
    intro g hg begun
    obtain ⟨hg, other⟩ := others hg
    refine Option.eq_none_iff_forall_ne_some.2 fun v there => ?_
    obtain old | ⟨same, running⟩ := stored there
    · simp [h.missing g hg begun] at old
    · obtain starts | going := begun
      · obtain ⟨b, hb, id⟩ := List.mem_map.1 (h.starting g hg starts).2
        obtain ⟨g', hg', id', key', -⟩ := h.beginning b hb
        obtain rfl := h.eq_of_id_eq hg' hg (id'.trans id)
        exact free b hb (key'.symm.trans same.symm)
      · exact other (h.alone g hg going f mem running same.symm)

end Disjoint

end Scene

/-! ## Acts -/

variable [DecidableEq τ] {s : Scene τ α W}

open Scene

theorem keeps_cancel (h : s.Disjoint) (token : Token τ) (reason : CancelReason) :
    s.cache.Keeps (s.cancel token reason).1.cache := keeps_cancelDeep _ s h.distinct token reason

theorem disjoint_cancel (h : s.Disjoint) (token : Token τ) (reason : CancelReason) :
    (s.cancel token reason).1.Disjoint := h.settle (keeps_cancel h token reason).settles rfl

/-- Every act that comes in time keeps stored values and computations apart. -/
theorem Act.disjoint (h : s.Disjoint) (a : Act τ α W) (timely : a.Timely s) :
    (a.apply s).1.Disjoint := by
  have same {s' : Scene τ α W} (trims : s.cache.Trims s'.cache)
      (beginnings : s'.beginnings = s.beginnings) :
      s'.Disjoint := h.settle trims.settles beginnings
  cases a with
  | call key weight now token =>
    simp only [Act.apply]
    split
    next => exact same (.refl _) rfl
    next =>
      obtain ⟨cache, v, ts, asks, -, trims⟩ | ⟨cache, f, ts, asks, -, -, trims⟩ |
        ⟨cache, ts, asks, missing, -, trims⟩ := ask_cases s.cache key weight now
      · rw [asks]
        exact same trims rfl
      · rw [asks]
        have asked : Disjoint { s with cache } := same trims rfl
        exact asked.settle (keeps_wait cache f.id token s.nextCall).settles rfl
      · rw [asks]
        exact (h.begin missing key.kind weight now s.nextCall token).settle trims.settles rfl
  | pause =>
    cases first : s.beginnings with
    | nil => simp [Act.Timely, Act.Allowed, first] at timely
    | cons b rest =>
      have joined : Disjoint { s with
          cache := ((s.cache.register b.flight).1.wait b.flight b.token b.call).1, beginnings :=
            rest } :=
        (h.register first).settle (keeps_wait _ b.flight b.token b.call).settles rfl
      simp only [Act.apply, first]
      split
      next => exact joined
      next token _ =>
        split
        next => exact joined
        next reason _ => exact disjoint_cancel joined token reason
  | settle id r =>
    obtain ⟨f, found, facts⟩ := (Option.any_eq_true _ _).1 timely
    obtain ⟨mem, rfl⟩ := mem_of_flight? found
    simp only [Bool.and_eq_true, bne_iff_ne, ne_eq] at facts
    have kept := keeps_modifyFlight s.cache f.id (u := fun f => { f with outcome := some r })
      (fun _ => ⟨rfl, rfl, rfl⟩) (fun _ _ _ => .inl rfl)
      fun g hg same state => absurd (h.eq_of_id_eq hg mem same ▸ state) facts.1
    exact h.settle kept.settles rfl
  | publish id now =>
    obtain ⟨f, found, facts⟩ := (Option.any_eq_true _ _).1 timely
    obtain ⟨mem, rfl⟩ := mem_of_flight? found
    simp only [Bool.and_eq_true, List.all_eq_true, decide_eq_true_eq] at facts
    obtain ⟨ended, free⟩ := facts
    obtain ⟨r, ended⟩ := Option.isSome_iff_exists.1 ended
    obtain ⟨flights, nextFlight, -, -, stored⟩ := publish_eq found ended now
    simp only [Act.apply, found, Option.bind_some, ended]
    exact h.publish mem ended free flights nextFlight rfl fun there =>
      (stored there).imp_right fun new => ⟨new.1, new.2.2⟩
  | deliver waiter =>
    simp only [Act.apply]
    split
    next => exact h
    next =>
      unfold Cache.deliver
      split
      next w _ => exact h.settle (keeps_dropWaiter s.cache w).settles rfl
      next => exact h
  | fire token reason =>
    have fired : Disjoint { s with fired := Dict.put s.fired token reason } := same (.refl _) rfl
    exact disjoint_cancel fired (.caller token) reason
  | clear => exact same (trims_clear _) rfl
  | invalidateKind kind => exact same (trims_invalidateKind _ kind) rfl
  | setMaxWeight maxWeight => exact same (trims_setMaxWeight _ maxWeight) rfl

end Quill.Cache
