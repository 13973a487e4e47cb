import Quill.Proofs.Cache.Rest

/-!
# Single flight

However calls, cancellations, ends of computations and evictions follow one another, there is at
most one computation under way for a key; every call is answered once, by a stored value, by the
computation it joined or by its own token; a computation is abandoned if and only if everybody who
joined it has given up; and only the value of a computation that was not abandoned is stored.

## Main definitions

* `Cache.UnderWay` — a computation is under way.
* `Cache.GaveUp` — a call gave up before the outcome of its computation was known.
* `Cache.SingleFlight` — all of the above.

## Main statements

* `Cache.Reached.single_flight` — it holds in every run without calls that clash.
* `Cache.not_single_flight` — a computation that is begun twice, and a value under the wrong key.
-/

namespace Quill.Cache

variable {τ α W : Type} [Weight W] [DecidableEq τ]

/-- A computation for a key has started, is not over and was not abandoned. -/
structure UnderWay (h : List (Moment τ α W)) (s : Scene τ α W) (id : Nat) (key : CacheKey) :
    Prop where
  started : .started id key ∈ logOf h
  going : ∀ r, .ended id r ∉ logOf h
  kept : s.reason? (.flight id) = none

/-- A call gave up before the outcome of a computation was known. -/
def GaveUp (h : List (Moment τ α W)) (call flight : Nat) : Prop :=
  ∃ m ∈ h, (∃ reason, .refused call reason ∈ m.happenings) ∧ Dict.has m.before.known flight = false

/-- What a call may be answered: the value it found, which was computed for its key, the outcome of
the computation for its key that it joined, or the reason for which its token has fired. -/
inductive Fitting (h : List (Moment τ α W)) (s : Scene τ α W) (call : Nat) (key : CacheKey)
    (token : Option (Token τ)) : Except Failure α → Prop where
  | stored {m v id} (mem : m ∈ h) (called : .called call key token ∈ m.happenings)
    (found : m.before.cache.peek? key = some v) (started : .started id key ∈ logOf h)
    (ended : .ended id (.ok v) ∈ logOf h) : Fitting h s call key token (.ok v)
  | computed {id r} (joined : .joined call id ∈ logOf h) (started : .started id key ∈ logOf h)
    (ended : .ended id r ∈ logOf h) : Fitting h s call key token r
  | cancelled {t reason} (under : token = some t) (fired : s.reason? t = some reason) :
    Fitting h s call key token (.error (.cancelled reason))

/-- What a call that has not been answered waits for: that the computation it started comes to its
first pause, that the computation it joined is over, that the outcome is made known, or that it is
told. -/
inductive Awaiting (h : List (Moment τ α W)) (s : Scene τ α W) (call : Nat) : Prop where
  | pause {b} (mem : b ∈ s.beginnings) (of_call : b.call = call)
  | settle {id} (joined : .joined call id ∈ logOf h) (going : ∀ r, .ended id r ∉ logOf h)
  | publish {id} (joined : .joined call id ∈ logOf h) (may : ∀ now, (Act.publish id now).Allowed s)
  | deliver {waiter r} (may : (Act.deliver waiter).Allowed s)
    (told : .told call r ∈ ((Act.deliver waiter).apply s).2)

/-- A moment makes the value of the computation under way for a key known, and stores it. -/
structure Stores (h : List (Moment τ α W)) (m : Moment τ α W) (key : CacheKey) (v : α)
    (f : Flight α W) :
    Prop where
  act : ∃ now, m.act = .publish f.id now
  running : m.before.cache.running? key = some f
  outcome : f.outcome = some (.ok v)
  started : .started f.id key ∈ logOf h
  ended : .ended f.id (.ok v) ∈ logOf h

/-- At most one computation for a key, on behalf of everybody who calls for it. -/
structure SingleFlight (h : List (Moment τ α W)) (s : Scene τ α W) : Prop where
  /-- While a computation is under way there is no other one for its key. -/
  alone : ∀ {id id' key}, UnderWay h s id key → UnderWay h s id' key → id = id'
  /-- While a computation is under way there is no stored value for its key. -/
  missing : ∀ {id key}, UnderWay h s id key → s.cache.has key = false
  once : ∀ {n key token}, .called n key token ∈ logOf h → (answersOf (logOf h) n).length ≤ 1
  answered : ∀ {n key token r}, .called n key token ∈ logOf h → r ∈ answersOf (logOf h) n →
    Fitting h s n key token r
  /-- A call that has not been answered will be, and if its token has fired it has been. -/
  unanswered : ∀ {n key token}, .called n key token ∈ logOf h → answersOf (logOf h) n = [] →
    Awaiting h s n ∧
      ((∃ b ∈ s.beginnings, b.call = n) ∨ ∀ t, token = some t → s.reason? t = none)
  abandoned_iff : ∀ {id}, (s.reason? (.flight id)).isSome ↔
    (∃ n, .joined n id ∈ logOf h) ∧ ∀ n, .joined n id ∈ logOf h → GaveUp h n id
  /-- A call whose token has not fired keeps its computation from being abandoned. -/
  undisturbed : ∀ {n key token id}, .called n key token ∈ logOf h → .joined n id ∈ logOf h →
    (∀ t, token = some t → s.reason? t = none) → s.reason? (.flight id) = none
  /-- What is stored is the value of the computation under way for its key, made known just then. -/
  stored : ∀ {m key v}, m ∈ h → m.after.cache.peek? key = some v →
    m.before.cache.peek? key ≠ some v →
    ∃ f, Stores h m key v f ∧ s.reason? (.flight f.id) = none

variable {h : List (Moment τ α W)} {s : Scene τ α W}

/-! ## Computations under way -/

theorem UnderWay.flight (ledger : Ledger (logOf h) s) {id : Nat} {key : CacheKey}
    (way : UnderWay h s id key) :
    ∃ f ∈ s.cache.flights, f.id = id ∧ f.key = key ∧ f.state ≠ .abandoned := by
  obtain ⟨f, hf, rfl, rfl⟩ | known := ledger.flights.started way.started
  · refine ⟨f, hf, rfl, rfl, fun state => ?_⟩
    have kept := way.kept
    simp [Scene.reason?, (ledger.sound.abandoned f hf).1 state] at kept
  · obtain ⟨r, known⟩ := Option.isSome_iff_exists.1 known
    exact absurd (ledger.flights.ended.2 (.inr known)) (way.going r)

theorem UnderWay.missing (ledger : Ledger (logOf h) s) {id : Nat} {key : CacheKey}
    (way : UnderWay h s id key) : s.cache.has key = false := by
  obtain ⟨f, hf, -, rfl, state⟩ := way.flight ledger
  have := ledger.sound.missing f hf state
  simpa [peek?, has, Dict.has] using this

theorem UnderWay.alone (ledger : Ledger (logOf h) s) {id id' : Nat} {key : CacheKey}
    (way : UnderWay h s id key) (way' : UnderWay h s id' key) : id = id' := by
  obtain ⟨f, hf, rfl, same, state⟩ := way.flight ledger
  obtain ⟨g, hg, rfl, same', state'⟩ := way'.flight ledger
  exact ledger.sound.alone f hf state g hg state' (same.trans same'.symm)

/-! ## Answers -/

omit [DecidableEq τ] in
theorem hit_not_mem_happeningsOf (cs : List (Consequence Nat)) (n : Nat) (v : α) :
    (.hit n v : Happening τ α) ∉ happeningsOf cs := by
  simp only [happeningsOf, List.mem_filterMap, not_exists, not_and]
  intro c _
  cases c <;> simp

/-- A call that finds a value finds it as it is made. -/
theorem Moment.hit {m : Moment τ α W} (orderly : m.act.Orderly m.before) {n : Nat} {v : α}
    (there : .hit n v ∈ m.happenings) :
    ∃ key token, .called n key token ∈ m.happenings ∧ m.before.cache.peek? key = some v := by
  obtain ⟨s, a⟩ := m
  simp only [Moment.happenings] at orderly there ⊢
  cases a with
  | call key weight now token =>
    have own := (Act.place_eq_of_orderly orderly).1
    simp only [Act.apply] at there ⊢
    split at there
    next => simp at there
    next =>
      obtain ⟨cache, v, ts, asks, stored, -⟩ | ⟨cache, f, ts, asks, -⟩ | ⟨cache, ts, asks, -⟩ :=
        ask_cases s.cache key weight now
      · simp only [asks] at there ⊢
        obtain ⟨rfl, rfl⟩ : n = s.nextCall ∧ _ := by simpa using there
        exact ⟨key, token, by simp, own ▸ stored⟩
      · simp [asks] at there
      · simp [asks] at there
  | pause =>
    simp only [Act.apply] at there
    split at there
    next => simp at there
    next =>
      split at there
      next => simp at there
      next =>
        split at there
        next => simp at there
        next =>
          have later := (List.mem_cons.1 there).resolve_left (by simp)
          exact absurd later (hit_not_mem_happeningsOf _ n v)
  | fire token reason => exact absurd there (hit_not_mem_happeningsOf _ n v)
  | publish id now =>
    simp only [Act.apply] at there
    split at there <;> simp at there
  | deliver waiter =>
    simp only [Act.apply] at there
    split at there <;> simp at there
  | settle | clear | invalidateKind | setMaxWeight => simp [Act.apply] at there

theorem told_of_known (sound : s.Sound) {w : Waiter τ Nat} (mem : w ∈ s.cache.waiters)
    {r : Except Failure α} (known : Dict.get? s.known w.flight = some r) :
    (Act.deliver w.id).Allowed s ∧ .told w.call r ∈ ((Act.deliver w.id).apply s).2 := by
  have found := waiter?_of_mem sound.numbered mem
  simp [Act.Allowed, Act.apply, Cache.deliver, found, known, Dict.has]

theorem awaiting (ledger : Ledger (logOf h) s) (rested : Scene.Rested [] s) {n : Nat}
    {key : CacheKey} {token : Option (Token τ)} (called : .called n key token ∈ logOf h)
    (unanswered : answersOf (logOf h) n = []) :
    Awaiting h s n ∧ ((∃ b ∈ s.beginnings, b.call = n) ∨ ∀ t, token = some t →
      s.reason? t = none) := by
  have once := ledger.calls.once n
  simp only [unanswered, ledger.calls.called_lt called, if_true, List.length_nil, Nat.zero_add,
    Scene.waits] at once
  by_cases first : ∃ b ∈ s.beginnings, b.call = n
  · obtain ⟨b, hb, of_call⟩ := first
    exact ⟨.pause hb of_call, .inl ⟨b, hb, of_call⟩⟩
  · have none : s.beginnings.countP (·.call == n) = 0 := by
      simpa [List.countP_eq_zero] using first
    obtain ⟨w, hw, rfl⟩ : ∃ w ∈ s.cache.waiters, w.call = n := by
      have : 0 < s.cache.waiters.countP (·.call == n) := by omega
      simpa using List.countP_pos_iff.1 this
    obtain ⟨joined, key', called'⟩ := ledger.calls.waiting w hw
    obtain ⟨rfl, rfl⟩ := ledger.calls.called_once called' called
    refine ⟨?_, .inr fun t under => (rested.unfired w hw t under).resolve_right (by simp)⟩
    obtain there | known := (ledger.sound.place w.flight).2 (ledger.sound.waiting_lt w hw)
    · obtain ⟨f, hf, id⟩ := List.mem_map.1 there
      cases outcome : f.outcome with
      | none =>
        refine .settle joined fun r ended => ?_
        obtain ⟨g, hg, same, out⟩ | known := ledger.flights.ended.1 ended
        · rw [ledger.sound.eq_of_id_eq hg hf (same.trans id.symm), outcome] at out
          cases out
        · have := ledger.sound.unknown f hf
          simp [Dict.has, id, known] at this
      | some r =>
        have found := flight?_of_mem ledger.sound.distinct hf
        rw [id] at found
        exact .publish joined fun now => by simp [Act.Allowed, found, outcome]
    · obtain ⟨r, known⟩ := Option.isSome_iff_exists.1 known
      exact .deliver (told_of_known ledger.sound hw known).1 (told_of_known ledger.sound hw known).2

/-! ## Giving up -/

/-- What is known grows only when an outcome is made known. -/
theorem Moment.known_after (m : Moment τ α W) : m.after.known = m.before.known ∨
    m.after.abandoned = m.before.abandoned ∧
      ∃ id now, m.act = .publish id now ∧ m.happenings = [.known id] := by
  obtain ⟨s, a⟩ := m
  simp only [Moment.after, Moment.happenings]
  cases a with
  | call key weight now token =>
    left
    simp only [Act.apply]
    split
    · rfl
    · split <;> rfl
  | pause =>
    left
    simp only [Act.apply]
    split
    · rfl
    · split
      · rfl
      · split <;> rfl
  | publish id now =>
    simp only [Act.apply]
    split
    · exact .inl rfl
    · exact .inr ⟨rfl, id, now, rfl, rfl⟩
  | deliver waiter =>
    left
    simp only [Act.apply]
    split <;> rfl
  | settle | fire | clear | invalidateKind | setMaxWeight => exact .inl rfl

/-- A computation whose outcome is known is not abandoned, and nobody joins it, any more. -/
theorem Move.frozen {s s' : Scene τ α W} {hs : List (Happening τ α)} (sound : s.Sound)
    (move : Move s hs s') {id : Nat} (known : Dict.has s.known id) :
    (id ∈ s'.abandoned ↔ id ∈ s.abandoned) ∧ ∀ n, .joined n id ∉ hs := by
  have gone : ∀ f ∈ s.cache.flights, id ≠ f.id := by
    rintro f hf rfl
    simp [sound.unknown f hf] at known
  cases move with
  | join mem => simpa using gone _ mem
  | @enter b rest first =>
    obtain ⟨f, hf, id, -⟩ := sound.beginning b (by simp [first])
    simpa [← id] using gone f hf
  | desert mem => simp [Scene.desert, gone _ mem]
  | refuse | hit | start | settle | publish | tell | leave | fire | trim => simp [Scene.drop]

theorem Moves.frozen {s s' : Scene τ α W} {hs : List (Happening τ α)} (sound : s.Sound)
    (moves : Moves s hs s') {id : Nat} (known : Dict.has s.known id) :
    (id ∈ s'.abandoned ↔ id ∈ s.abandoned) ∧ ∀ n, .joined n id ∉ hs := by
  induction moves with
  | refl => simp
  | cons first _ ih =>
    obtain ⟨abandoned, joined⟩ := first.frozen sound known
    obtain ⟨abandoned', joined'⟩ := ih (first.sound sound) ((first.grows sound).has_known known)
    exact ⟨abandoned'.trans abandoned,
      fun n there => (List.mem_append.1 there).elim (joined n) (joined' n)⟩

theorem Runs.frozen {m : Moment τ α W} (before : Runs h m.before) (orderly : m.act.Orderly m.before)
    {id : Nat} (known : Dict.has m.after.known id) :
    (id ∈ m.after.abandoned ↔ id ∈ m.before.abandoned) ∧ (∀ n, .joined n id ∉ m.happenings) ∧
      (Dict.has m.before.known id ∨ ∀ n reason, .refused n reason ∉ m.happenings) := by
  obtain same | ⟨abandoned, id', now, -, eq⟩ := m.known_after
  · rw [same] at known
    obtain ⟨hs, moves, perm⟩ := m.act.moves before.ledger.sound orderly
    obtain ⟨abandoned, joined⟩ := moves.frozen before.ledger.sound known
    exact ⟨abandoned, fun n there => joined n (perm.mem_iff.2 there), .inl known⟩
  · simp [abandoned, eq]

/-- Before its outcome is known a computation is abandoned as soon as nobody waits for it. -/
theorem abandoned_iff_of_unknown (runs : Runs h s) {id : Nat}
    (unknown : Dict.has s.known id = false) : id ∈ s.abandoned ↔
      (∃ n, .joined n id ∈ logOf h) ∧ ∀ n, .joined n id ∈ logOf h → GaveUp h n id := by
  have ledger := runs.ledger
  have flight (lt : id < s.cache.nextFlight) : ∃ f ∈ s.cache.flights, f.id = id := by
    obtain there | known := (ledger.sound.place id).2 lt
    · exact List.mem_map.1 there
    · simp [unknown] at known
  constructor
  · intro abandoned
    obtain ⟨f, hf, rfl⟩ := flight (ledger.sound.abandoned_lt id abandoned)
    have state := (ledger.sound.abandoned f hf).2 abandoned
    refine ⟨(ledger.flights.began f hf).1 (by simp [state]), fun n joined => ?_⟩
    obtain ⟨w, hw, -, waits⟩ | ⟨r, answered⟩ := ledger.calls.joined joined
    · have none := ledger.sound.idle f hf (by simp [state])
      rw [ledger.sound.waiters f hf, List.countP_eq_zero] at none
      exact absurd (by simp [waits]) (none w hw)
    · obtain ⟨x, there, answer⟩ := List.mem_filterMap.1 answered
      cases x with
      | hit n' v =>
        obtain ⟨rfl, -⟩ : n' = n ∧ _ := by simpa [Happening.answer?] using answer
        exact absurd joined (ledger.calls.hit there)
      | told n' r' =>
        obtain ⟨rfl, -⟩ : n' = n ∧ _ := by simpa [Happening.answer?] using answer
        obtain ⟨id', joined', known⟩ := ledger.calls.told there
        rw [ledger.calls.joined_once joined joined', Dict.has, known] at unknown
        cases unknown
      | refused n' reason =>
        obtain ⟨rfl, -⟩ : n' = n ∧ _ := by simpa [Happening.answer?] using answer
        obtain ⟨m, mem, there⟩ := List.mem_flatMap.1 there
        refine ⟨m, mem, ⟨reason, there⟩, Bool.eq_false_iff.2 fun known => ?_⟩
        rw [(runs.grows mem).has_known known] at unknown
        cases unknown
      | called | started | joined | ended | known | abandoned => simp [Happening.answer?] at answer
  · rintro ⟨⟨n, joined⟩, all⟩
    obtain ⟨f, hf, rfl⟩ := flight (ledger.flights.joined_lt ledger.sound.toTable joined)
    rw [← ledger.sound.abandoned f hf]
    cases state : f.state with
    | abandoned => rfl
    | starting => exact absurd state ((ledger.flights.began f hf).2 ⟨n, joined⟩)
    | displaced => exact absurd state (ledger.sound.undisplaced f hf)
    | running =>
      -- somebody waits for it, and has not given up
      have wanted := runs.rested.wanted f hf state
      rw [ledger.sound.waiters f hf] at wanted
      obtain ⟨w, hw, waits⟩ := List.countP_pos_iff.1 wanted
      rw [← beq_iff_eq.1 waits] at all
      obtain ⟨m, mem, ⟨reason, refused⟩, -⟩ := all w.call (ledger.calls.waiting w hw).1
      have answered : .error (.cancelled reason) ∈ answersOf (logOf h) w.call :=
        List.mem_filterMap.2 ⟨_, List.mem_flatMap.2 ⟨m, mem, refused⟩, by simp [Happening.answer?]⟩
      simp [(ledger.calls.waiter_unanswered hw).1] at answered

/-- A computation is abandoned if and only if all who joined it have given up in time. -/
theorem Runs.mem_abandoned_iff (runs : Runs h s) {id : Nat} :
    id ∈ s.abandoned ↔
      (∃ n, .joined n id ∈ logOf h) ∧ ∀ n, .joined n id ∈ logOf h → GaveUp h n id := by
  cases known : Dict.has s.known id with
  | false => exact abandoned_iff_of_unknown runs known
  | true =>
    induction runs with
    | start => simp [Dict.has] at known
    | @step m h before orderly ih =>
      obtain ⟨abandoned, joined, refused⟩ := before.frozen orderly known
      have joined_iff (n : Nat) : .joined n id ∈ logOf (m :: h) ↔ .joined n id ∈ logOf h := by
        simp [joined n]
      have gaveUp_iff (n : Nat) : GaveUp (m :: h) n id ↔ GaveUp h n id := by
        simp only [GaveUp, List.exists_mem_cons_iff]
        obtain known | none := refused
        · simp [known]
        · simp [none]
      simp only [abandoned, joined_iff, gaveUp_iff]
      cases known' : Dict.has m.before.known id with
      | false => exact abandoned_iff_of_unknown before known'
      | true => exact ih known'

theorem Scene.reason?_flight {s : Scene τ α W} {id : Nat} :
    (s.reason? (.flight id)).isSome ↔ id ∈ s.abandoned := by
  simp only [Scene.reason?]
  split <;> simp [*]

theorem undisturbed (runs : Runs h s) {n id : Nat} {key : CacheKey} {token : Option (Token τ)}
    (called : .called n key token ∈ logOf h) (joined : .joined n id ∈ logOf h)
    (unfired : ∀ t, token = some t → s.reason? t = none) : s.reason? (.flight id) = none := by
  refine Option.not_isSome_iff_eq_none.1 fun abandoned => ?_
  obtain ⟨m, mem, ⟨reason, refused⟩, -⟩ :=
    (runs.mem_abandoned_iff.1 (Scene.reason?_flight.1 abandoned)).2 n joined
  obtain ⟨key', t, called', fired⟩ :=
    runs.ledger.calls.refused (List.mem_flatMap.2 ⟨m, mem, refused⟩)
  obtain ⟨-, rfl⟩ := runs.ledger.calls.called_once called' called
  simp [unfired t rfl] at fired

/-! ## Stored values -/

/-- A value is stored only as an outcome is made known. -/
theorem Move.stored {s s' : Scene τ α W} {hs : List (Happening τ α)} (sound : s.Sound)
    (move : Move s hs s') {key : CacheKey} {v : α} (there : s'.cache.peek? key = some v) :
    s.cache.peek? key = some v ∨ ∃ id, Dict.has s.known id = false ∧ Dict.has s'.known id := by
  cases move with
  | hit _ trims | trim trims => exact .inl (trims.stored there)
  | start _ _ trims => exact .inl (trims.stored there)
  | publish mem => exact .inr ⟨_, sound.unknown _ mem, by simp [Dict.has]⟩
  | refuse | join | enter | settle | tell | leave | desert | fire => exact .inl there

theorem Moves.stored {s s' : Scene τ α W} {hs : List (Happening τ α)} (sound : s.Sound)
    (moves : Moves s hs s') {key : CacheKey} {v : α} (there : s'.cache.peek? key = some v) :
    s.cache.peek? key = some v ∨ ∃ id, Dict.has s.known id = false ∧ Dict.has s'.known id := by
  induction moves with
  | refl => exact .inl there
  | cons first rest ih =>
    obtain there | ⟨id, unknown, known⟩ := ih (first.sound sound) there
    · refine (first.stored sound there).imp_right ?_
      rintro ⟨id, unknown, known⟩
      exact ⟨id, unknown, (rest.grows (first.sound sound)).has_known known⟩
    · refine .inr ⟨id, Bool.eq_false_iff.2 fun known' => ?_, known⟩
      rw [(first.grows sound).has_known known'] at unknown
      cases unknown

omit [DecidableEq τ] in
/-- The computation under way for a key is the only one. -/
theorem running?_of_mem {s : Scene τ α W} (table : s.Table)
    {f : Flight α W} (mem : f ∈ s.cache.flights)
    (running : f.state = .running) : s.cache.running? f.key = some f := by
  cases found : s.cache.running? f.key with
  | none => simpa [running] using List.find?_eq_none.1 found f mem
  | some g =>
    have hg := List.mem_of_find?_eq_some found
    have facts := List.find?_some found
    simp only [Bool.and_eq_true, decide_eq_true_eq, beq_iff_eq] at facts
    rw [table.eq_of_id_eq hg mem
      (table.alone g hg (by simp [facts.2]) f mem (by simp [running]) facts.1)]

/-- The value that is stored in a moment is that of the computation made known in it. -/
theorem Runs.stored_now {m : Moment τ α W} (before : Runs h m.before)
    (orderly : m.act.Orderly m.before)
    {key : CacheKey} {v : α} (there : m.after.cache.peek? key = some v)
    (new : m.before.cache.peek? key ≠ some v) :
    ∃ f, Stores h m key v f ∧ Dict.has m.after.known f.id ∧ f.id ∉ m.after.abandoned := by
  have ledger := before.ledger
  obtain ⟨hs, moves, -⟩ := m.act.moves ledger.sound orderly
  obtain ⟨id, unknown, known⟩ := (moves.stored ledger.sound there).resolve_left new
  obtain same | ⟨same, id, now, act, -⟩ := m.known_after
  · rw [Moment.after] at same
    rw [same, unknown] at known
    cases known
  · obtain ⟨s, a⟩ := m
    subst act
    obtain ⟨f, found, ended⟩ := (Option.any_eq_true _ _).1 (Bool.and_eq_true_iff.1 orderly).1
    obtain ⟨r, ended⟩ := Option.isSome_iff_exists.1 ended
    obtain ⟨mem, rfl⟩ := mem_of_flight? found
    simp only [Moment.after, Act.apply, found, Option.bind_some, ended] at there same ⊢
    obtain ⟨-, -, -, -, stored⟩ := publish_eq found ended now
    obtain ⟨rfl, rfl, running⟩ := (stored there).resolve_left new
    refine ⟨f, ⟨⟨now, rfl⟩, running?_of_mem ledger.sound.toTable mem running, ended,
      ledger.flights.table f mem, ledger.flights.ended.2 (.inl ⟨f, mem, rfl, ended⟩)⟩,
      by simp [Dict.has], fun kept => ?_⟩
    rw [(ledger.sound.abandoned f mem).2 kept] at running
    cases running

theorem Stores.cons {m' m : Moment τ α W} {key : CacheKey} {v : α} {f : Flight α W}
    (stores : Stores h m key v f) : Stores (m' :: h) m key v f :=
  { stores with
    started := List.mem_append_right _ stores.started
    ended := List.mem_append_right _ stores.ended }

theorem stored (runs : Runs h s) {m : Moment τ α W} {key : CacheKey} {v : α} (mem : m ∈ h)
    (there : m.after.cache.peek? key = some v) (new : m.before.cache.peek? key ≠ some v) :
    ∃ f, Stores h m key v f ∧ Dict.has s.known f.id ∧ f.id ∉ s.abandoned := by
  induction runs with
  | start => cases mem
  | step before orderly ih =>
    obtain rfl | mem := List.mem_cons.1 mem
    · obtain ⟨f, stores, known, kept⟩ := before.stored_now orderly there new
      exact ⟨f, stores.cons, known, kept⟩
    · obtain ⟨f, stores, known, kept⟩ := ih mem
      have known' := (before.grows_step orderly).has_known known
      exact ⟨f, stores.cons, known', by rwa [(before.frozen orderly known').1]⟩

/-- A value that is found was computed for its key. -/
theorem Runs.computed (runs : Runs h s) {key : CacheKey}
    {v : α} (there : s.cache.peek? key = some v) :
    ∃ id, .started id key ∈ logOf h ∧ .ended id (.ok v) ∈ logOf h := by
  induction runs with
  | start => simp [peek?] at there
  | @step m h before orderly ih =>
    by_cases old : m.before.cache.peek? key = some v
    · obtain ⟨id, started, ended⟩ := ih old
      exact ⟨id, List.mem_append_right _ started, List.mem_append_right _ ended⟩
    · obtain ⟨f, stores, -⟩ := before.stored_now orderly there old
      exact ⟨f.id, stores.cons.started, stores.cons.ended⟩

/-! ## What calls are answered -/

theorem subset_logOf {h' : List (Moment τ α W)} (part : h' ⊆ h) : logOf h' ⊆ logOf h := by
  intro x there
  obtain ⟨m, mem, there⟩ := List.mem_flatMap.1 there
  exact List.mem_flatMap.2 ⟨m, part mem, there⟩

theorem Runs.before_of_mem (runs : Runs h s) {m : Moment τ α W} (mem : m ∈ h) :
    ∃ earlier ⊆ h, Runs earlier m.before ∧ m.act.Orderly m.before := by
  induction runs with
  | start => cases mem
  | @step m' h before orderly ih =>
    obtain rfl | mem := List.mem_cons.1 mem
    · exact ⟨h, List.subset_cons_self _ _, before, orderly⟩
    · obtain ⟨earlier, part, runs, orderly⟩ := ih mem
      exact ⟨earlier, List.Subset.trans part (List.subset_cons_self _ _), runs, orderly⟩

theorem fitting (runs : Runs h s) {n : Nat} {key : CacheKey} {token : Option (Token τ)}
    {r : Except Failure α} (called : .called n key token ∈ logOf h)
    (answered : r ∈ answersOf (logOf h) n) :
    Fitting h s n key token r := by
  have ledger := runs.ledger
  obtain ⟨x, there, answer⟩ := List.mem_filterMap.1 answered
  cases x with
  | hit n' v =>
    obtain ⟨rfl, rfl⟩ : n' = n ∧ .ok v = r := by simpa [Happening.answer?] using answer
    obtain ⟨m, mem, there⟩ := List.mem_flatMap.1 there
    obtain ⟨earlier, part, before, orderly⟩ := runs.before_of_mem mem
    obtain ⟨key', token', called', found⟩ := m.hit orderly there
    obtain ⟨rfl, rfl⟩ := ledger.calls.called_once (List.mem_flatMap.2 ⟨m, mem, called'⟩) called
    obtain ⟨id, started, ended⟩ := before.computed found
    exact .stored mem called' found (subset_logOf part started)
      (subset_logOf part ended)
  | told n' r' =>
    obtain ⟨rfl, rfl⟩ : n' = n ∧ r' = r := by simpa [Happening.answer?] using answer
    obtain ⟨id, joined, known⟩ := ledger.calls.told there
    obtain ⟨key', token', called', started⟩ := ledger.flights.joined joined
    obtain ⟨rfl, rfl⟩ := ledger.calls.called_once called' called
    exact .computed joined started (ledger.flights.ended.2 (.inr known))
  | refused n' reason =>
    obtain ⟨rfl, rfl⟩ : n' = n ∧ .error (.cancelled reason) = r := by
      simpa [Happening.answer?] using answer
    obtain ⟨key', t, called', fired⟩ := ledger.calls.refused there
    obtain ⟨rfl, rfl⟩ := ledger.calls.called_once called' called
    exact .cancelled rfl fired
  | called | started | joined | ended | known | abandoned => simp [Happening.answer?] at answer

/-! ## Runs -/

theorem Runs.singleFlight (runs : Runs h s) : SingleFlight h s where
  alone := UnderWay.alone runs.ledger
  missing := UnderWay.missing runs.ledger
  once {n key token} called := by
    have := runs.ledger.calls.once n
    split at this <;> omega
  answered := fitting runs
  unanswered := awaiting runs.ledger runs.rested
  abandoned_iff := Scene.reason?_flight.trans runs.mem_abandoned_iff
  undisturbed := undisturbed runs
  stored mem there new := by
    obtain ⟨f, stores, -, kept⟩ := stored runs mem there new
    exact ⟨f, stores, by simpa [Scene.reason?] using kept⟩

/-- However calls, cancellations, ends of computations and evictions follow one another,
computations that do not call for their own values are single as long as no call clashes: no kind
has a zero in it, and no computation that runs its first part is called for by those it has
started. -/
theorem Reached.single_flight (reached : Reached h s)
    (apart : h.all fun m => !m.act.Clashes m.before) : SingleFlight h s :=
  (reached.runs apart).singleFlight

/-- Two calls share a computation. The token of the first one fires, the second one is told the
value, and a third one finds it stored; the latest act comes first. -/
def sharing : List (Act Nat Nat Number) :=
  [.call ⟨[], []⟩ (.ofNat 1) 0 none, .deliver 1, .publish 0 5, .settle 0 (.ok 7), .fire 0 .client,
    .call ⟨[], []⟩ (.ofNat 1) 0 none, .pause, .call ⟨[], []⟩ (.ofNat 1) 0 (some (.caller 0))]

theorem single_flight_sharing :
    ((play .default (.ofNat 10) sharing).1.all fun m => !m.act.Clashes m.before) ∧
      SingleFlight (play .default (.ofNat 10) sharing).1 (play .default (.ofNat 10) sharing).2 ∧
      (List.range 3).map (answersOf (logOf (play .default (.ofNat 10) sharing).1)) =
        [[.error (.cancelled .client)], [.ok 7], [.ok 7]] := by
  have reached := reached_play .default (.ofNat 10) sharing (by decide +kernel)
  exact ⟨by decide +kernel, reached.single_flight (by decide +kernel), by decide +kernel⟩

/-- The computation for the first value calls, before its first pause, for a second one, and the
computation for that one calls for the first again; the latest act comes first. -/
def encircled : List (Act Nat Nat Number) :=
  [.call ⟨[0x61], []⟩ (.ofNat 1) 0 (some (.flight 1)),
    .call ⟨[0x62], []⟩ (.ofNat 1) 0 (some (.flight 0)), .call ⟨[0x61], []⟩ (.ofNat 1) 0 none]

/-- Two calls for keys with the same text: the second one finds what was computed for the first. -/
def confused : List (Act Nat Nat Number) :=
  [.call ⟨[0x61], [0x62, 0, 0x63]⟩ (.ofNat 2) 0 none, .deliver 0, .publish 0 0, .settle 0 (.ok 1),
    .pause, .call ⟨[0x61, 0, 0x62], [0x63]⟩ (.ofNat 1) 0 none]

deriving instance DecidableEq for Happening

/-- Without the condition a computation may begin while there is one for its key, and a call may be
answered what was computed for another key. -/
theorem not_single_flight :
    ((play .default (.ofNat 10) encircled).1.all fun m => m.act.Allowed m.before) ∧
      ¬ SingleFlight (play .default (.ofNat 10) encircled).1
        (play .default (.ofNat 10) encircled).2 ∧
      ((play .default (.ofNat 10) confused).1.all fun m => m.act.Allowed m.before) ∧
      ¬ SingleFlight (play .default (.ofNat 10) confused).1
        (play .default (.ofNat 10) confused).2 := by
  refine ⟨by decide +kernel, fun single => ?_, by decide +kernel, fun single => ?_⟩
  · have log : logOf (play .default (.ofNat 10) encircled).1 =
        [.called 2 ⟨[0x61], []⟩ (some (.flight 1)), .started 2 ⟨[0x61], []⟩,
          .called 1 ⟨[0x62], []⟩ (some (.flight 0)), .started 1 ⟨[0x62], []⟩,
          .called 0 ⟨[0x61], []⟩ none, .started 0 ⟨[0x61], []⟩] := by decide +kernel
    have first : UnderWay (play .default (.ofNat 10) encircled).1
        (play .default (.ofNat 10) encircled).2 0 ⟨[0x61], []⟩ :=
          ⟨by simp [log], by simp [log], rfl⟩
    have second : UnderWay (play .default (.ofNat 10) encircled).1
        (play .default (.ofNat 10) encircled).2 2 ⟨[0x61], []⟩ :=
          ⟨by simp [log], by simp [log], rfl⟩
    cases single.alone first second
  · have log : logOf (play .default (.ofNat 10) confused).1 =
        [.called 1 ⟨[0x61], [0x62, 0, 0x63]⟩ none, .hit 1 1, .told 0 (.ok 1), .known 0,
          .ended 0 (.ok 1), .joined 0 0, .called 0 ⟨[0x61, 0, 0x62], [0x63]⟩ none,
          .started 0 ⟨[0x61, 0, 0x62], [0x63]⟩] :=
      by decide +kernel
    have fitting := single.answered (n := 1) (r := .ok 1) (by rw [log]; exact .head _)
      (by simp [log, Happening.answer?])
    -- nothing was started for the key of the second call
    cases fitting with
    | stored _ _ _ started => simp [log] at started
    | computed _ started => simp [log] at started

end Quill.Cache
