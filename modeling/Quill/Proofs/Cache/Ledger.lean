import Quill.Proofs.Cache.Sound

/-!
# What has become of calls and computations

What has happened to a call and to a computation is compared with what the cache knows of them.

## Main definitions

* `Cache.answersOf` — what a call has been answered.
* `Cache.Grows` — what never goes back from one scene to a later one.
* `Cache.CallLedger`, `Cache.FlightLedger` — what has happened agrees with the scene, for calls and
  for computations.

## Main statements

* `Cache.Move.ledger` — a move keeps this.
* `Cache.Runs.ledger` — it holds in every run.
-/

namespace Quill.Cache

variable {τ α W : Type} [Weight W] {log log' : List (Happening τ α)}

def answersOf (log : List (Happening τ α)) (call : Nat) : List (Except Failure α) :=
  log.filterMap (·.answer? call)

@[simp] theorem answersOf_append (call : Nat) :
    answersOf (log ++ log') call = answersOf log call ++ answersOf log' call := by
  simp [answersOf]

@[simp] theorem answersOf_nil (call : Nat) : answersOf ([] : List (Happening τ α)) call = [] := rfl

@[simp] theorem answersOf_cons (x : Happening τ α) (call : Nat) :
    answersOf (x :: log) call = (x.answer? call).toList ++ answersOf log call := by
  cases h : x.answer? call <;> simp [answersOf, h]

theorem length_toList_ite {c : Prop} [Decidable c] (r : Except Failure α) :
    (if c then some r else none).toList.length = if c then 1 else 0 := by
  split <;> rfl

/-- How often a call waits, in the first part of the computation it started or behind it. -/
def Scene.waits (s : Scene τ α W) (call : Nat) : Nat :=
  s.beginnings.countP (·.call == call) + s.cache.waiters.countP (·.call == call)

variable [DecidableEq τ] {s s' : Scene τ α W} {hs : List (Happening τ α)}

/-- What never goes back. -/
structure Grows (s s' : Scene τ α W) : Prop where
  nextCall : s.nextCall ≤ s'.nextCall
  known : ∀ {id r}, Dict.get? s.known id = some r → Dict.get? s'.known id = some r
  reason : ∀ {t r}, s.reason? t = some r → s'.reason? t = some r
  table : ∀ {id key}, (∃ f ∈ s.cache.flights, f.id = id ∧ f.key = key) ∨ Dict.has s.known id →
    (∃ f ∈ s'.cache.flights, f.id = id ∧ f.key = key) ∨ Dict.has s'.known id

/-- Where only the computations change, and they keep their numbers and keys. -/
theorem Grows.of_flights (nextCall : s.nextCall ≤ s'.nextCall) (known : s'.known = s.known)
    (fired : s'.fired = s.fired) (abandoned : s.abandoned ⊆ s'.abandoned)
    (flights : ∀ f ∈ s.cache.flights, ∃ g ∈ s'.cache.flights, g.id = f.id ∧ g.key = f.key) :
    Grows s s' := by
  refine ⟨nextCall, known ▸ id, ?_, ?_⟩
  · rintro (t | id) r there
    · simpa [Scene.reason?, fired] using there
    · simp only [Scene.reason?] at there ⊢
      have := @abandoned id
      grind
  · rintro id key (⟨f, hf, rfl, rfl⟩ | there)
    · exact .inl (flights f hf)
    · exact .inr (known ▸ there)

omit [DecidableEq τ] in
theorem exists_modifyFlight {c : Cache τ Nat α W} {id : Nat} {u : Flight α W → Flight α W}
    (ids : ∀ f, (u f).id = f.id) (keys : ∀ f, (u f).key = f.key) :
    ∀ f ∈ c.flights, ∃ g ∈ (c.modifyFlight id u).flights, g.id = f.id ∧ g.key = f.key := by
  intro f hf
  refine ⟨_, List.mem_map_of_mem hf, ?_⟩
  split <;> simp [ids, keys]

theorem Move.grows (sound : s.Sound) (move : Move s hs s') : Grows s s' := by
  have same : ∀ f ∈ s.cache.flights, ∃ g ∈ s.cache.flights, g.id = f.id ∧ g.key = f.key :=
    fun f hf => ⟨f, hf, rfl, rfl⟩
  cases move with
  | refuse => exact .of_flights (Nat.le_succ _) rfl rfl (List.Subset.refl _) same
  | hit stored trims =>
    exact .of_flights (Nat.le_succ _) rfl rfl (List.Subset.refl _) (trims.flights ▸ same)
  | join =>
    exact .of_flights (Nat.le_succ _) rfl rfl (List.Subset.refl _)
      (exists_modifyFlight (fun _ => rfl) fun _ => rfl)
  | start missing alone trims =>
    refine .of_flights (Nat.le_succ _) rfl rfl (List.Subset.refl _) fun f hf => ⟨f, ?_, rfl, rfl⟩
    exact trims.flights ▸ List.mem_append_left _ hf
  | enter first =>
    refine .of_flights (Nat.le_refl _) rfl rfl (List.Subset.refl _) fun f hf => ?_
    obtain ⟨g, hg, id, key⟩ := exists_modifyFlight (c := s.cache)
      (u := fun f => { f with state := .running }) (fun _ => rfl) (fun _ => rfl) f hf
    obtain ⟨g', hg', id', key'⟩ := exists_modifyFlight
      (u := fun f => { f with waiters := f.waiters + 1 }) (fun _ => rfl) (fun _ => rfl) g hg
    exact ⟨g', hg', id'.trans id, key'.trans key⟩
  | settle =>
    exact .of_flights (Nat.le_refl _) rfl rfl (List.Subset.refl _)
      (exists_modifyFlight (fun _ => rfl) fun _ => rfl)
  | tell | leave =>
    exact .of_flights (Nat.le_refl _) rfl rfl (List.Subset.refl _)
      (exists_modifyFlight (fun _ => rfl) fun _ => rfl)
  | desert =>
    exact .of_flights (Nat.le_refl _) rfl rfl (List.subset_append_left _ _)
      (exists_modifyFlight (fun _ => rfl) fun _ => rfl)
  | trim trims => exact .of_flights (Nat.le_refl _) rfl rfl (List.Subset.refl _) (trims.flights ▸
    same)
  | @publish f r cache mem ended flights =>
    refine ⟨Nat.le_refl _, fun {id r'} there => ?_, fun {t r} => by cases t <;> exact id, ?_⟩
    · have new := sound.unknown f mem
      rw [Dict.get?_put_of_ne]
      · exact there
      · rintro rfl
        simp [Dict.has, there] at new
    · rintro id key (⟨g, hg, rfl, rfl⟩ | there)
      · by_cases same : g.id = f.id
        · exact .inr (by simp [Dict.has, same])
        · exact .inl ⟨g, by simp [flights, hg, same], rfl, rfl⟩
      · refine .inr ?_
        rw [Dict.has, Dict.get?_put]
        split
        · rfl
        · exact there
  | @fire token new reason =>
    refine ⟨Nat.le_refl _, id, ?_, id⟩
    rintro (t | id) r there
    · simp only [Scene.reason?] at there ⊢
      rw [Dict.get?_put_of_ne]
      · exact there
      · rintro rfl
        simp [new] at there
    · exact there

theorem Grows.refl (s : Scene τ α W) : Grows s s := ⟨Nat.le_refl _, id, id, id⟩

theorem Grows.trans {s'' : Scene τ α W} (h : Grows s s') (g : Grows s' s'') : Grows s s'' :=
  ⟨Nat.le_trans h.nextCall g.nextCall, fun k => g.known (h.known k), fun k => g.reason (h.reason k),
    fun k => g.table (h.table k)⟩

theorem Grows.has_known (h : Grows s s') {id : Nat} (known : Dict.has s.known id) :
    Dict.has s'.known id := by
  obtain ⟨r, known⟩ := Option.isSome_iff_exists.1 known
  exact Option.isSome_iff_exists.2 ⟨r, h.known known⟩

theorem Moves.grows (sound : s.Sound) (moves : Moves s hs s') : Grows s s' := by
  induction moves with
  | refl => exact .refl _
  | cons first _ ih => exact (first.grows sound).trans (ih (first.sound sound))

/-! ## Calls -/

structure CallLedger (log : List (Happening τ α)) (s : Scene τ α W) : Prop where
  /-- A call that was made waits, or is answered. -/
  once : ∀ n, (answersOf log n).length + s.waits n = if n < s.nextCall then 1 else 0
  called_lt : ∀ {n key t}, .called n key t ∈ log → n < s.nextCall
  called_once : ∀ {n key t key' t'}, .called n key t ∈ log → .called n key' t' ∈ log →
    key = key' ∧ t = t'
  beginning : ∀ b ∈ s.beginnings, .called b.call b.key b.token ∈ log
  waiting : ∀ w ∈ s.cache.waiters,
    .joined w.call w.flight ∈ log ∧ ∃ key, .called w.call key w.token ∈ log
  joined : ∀ {n id}, .joined n id ∈ log →
    (∃ w ∈ s.cache.waiters, w.call = n ∧ w.flight = id) ∨ ∃ r, r ∈ answersOf log n
  joined_once : ∀ {n id id'}, .joined n id ∈ log → .joined n id' ∈ log → id = id'
  hit : ∀ {n v id}, .hit n v ∈ log → .joined n id ∉ log
  told : ∀ {n r}, .told n r ∈ log → ∃ id, .joined n id ∈ log ∧ Dict.get? s.known id = some r
  refused : ∀ {n r}, .refused n r ∈ log →
    ∃ key t, .called n key (some t) ∈ log ∧ s.reason? t = some r

namespace CallLedger

theorem perm (h : CallLedger log s) (p : log.Perm log') : CallLedger log' s := by
  have answers (n : Nat) : (answersOf log n).Perm (answersOf log' n) := p.filterMap _
  obtain ⟨once, called_lt, called_once, beginning, waiting, joined, joined_once, hit,
    told, refused⟩ := h
  constructor <;> simp only [← p.mem_iff, ← (answers _).mem_iff, ← (answers _).length_eq] <;>
    assumption

theorem waiter_unanswered (h : CallLedger log s) {w : Waiter τ Nat} (mem : w ∈ s.cache.waiters) :
    answersOf log w.call = [] ∧ w.call < s.nextCall := by
  have once := h.once w.call
  have : 0 < s.cache.waiters.countP (·.call == w.call) := List.countP_pos_iff.2 ⟨w, mem, by simp⟩
  simp only [Scene.waits] at once
  split at once
  · exact ⟨List.length_eq_zero_iff.1 (by omega), ‹_›⟩
  · omega

/-- A call has not joined a computation that does not wait behind one and is not answered. -/
theorem not_joined (h : CallLedger log s) {n : Nat} (free : ∀ w ∈ s.cache.waiters, w.call ≠ n)
    (unanswered : answersOf log n = []) (id : Nat) : .joined n id ∉ log := by
  intro joined
  obtain ⟨w, mem, call, -⟩ | ⟨r, there⟩ := h.joined joined
  · exact free w mem call
  · simp [unanswered] at there

/-- More has happened, at most one call is made and at most one call joins. -/
theorem extend (h : CallLedger log s) (grows : Grows s s')
    (once : ∀ n, (answersOf hs n ++ answersOf log n).length + s'.waits n =
      if n < s'.nextCall then 1 else 0)
    (called : ∀ {n key t}, .called n key t ∈ hs → n = s.nextCall ∧ n < s'.nextCall)
    (called_once : ∀ {n key t key' t'}, .called n key t ∈ hs → .called n key' t' ∈ hs →
      key = key' ∧ t = t')
    (beginning : ∀ b ∈ s'.beginnings, b ∈ s.beginnings ∨ .called b.call b.key b.token ∈ hs)
    (waiting : ∀ w ∈ s'.cache.waiters, w ∈ s.cache.waiters ∨
      .joined w.call w.flight ∈ hs ∧ ∃ key, .called w.call key w.token ∈ hs ++ log)
    (kept : ∀ w ∈ s.cache.waiters, w ∈ s'.cache.waiters ∨ ∃ r, r ∈ answersOf hs w.call)
    (joined : ∀ {n id}, .joined n id ∈ hs → (∃ w ∈ s'.cache.waiters, w.call = n ∧ w.flight = id) ∧
      answersOf (hs ++ log) n = [] ∧ (∀ id', .joined n id' ∉ log) ∧
      ∀ id', .joined n id' ∈ hs → id = id')
    (hit : ∀ {n v id}, .hit n v ∈ hs → .joined n id ∉ log)
    (told : ∀ {n r}, .told n r ∈ hs → ∃ id, .joined n id ∈ log ∧ Dict.get? s.known id = some r)
    (refused : ∀ {n r}, .refused n r ∈ hs →
      ∃ key t, .called n key (some t) ∈ hs ++ log ∧ s.reason? t = some r) :
    CallLedger (hs ++ log) s' := by
  constructor
  case once => simpa using once
  case called_lt =>
    intro n key t there
    obtain new | old := List.mem_append.1 there
    · exact (called new).2
    · exact Nat.lt_of_lt_of_le (h.called_lt old) grows.nextCall
  case called_once =>
    intro n key t key' t' there there'
    obtain new | old := List.mem_append.1 there <;> obtain new' | old' := List.mem_append.1 there'
    · exact called_once new new'
    · exact absurd (h.called_lt old') (by simp [(called new).1])
    · exact absurd (h.called_lt old) (by simp [(called new').1])
    · exact h.called_once old old'
  case beginning =>
    intro b hb
    obtain old | new := beginning b hb
    · exact List.mem_append_right _ (h.beginning b old)
    · exact List.mem_append_left _ new
  case waiting =>
    intro w hw
    obtain old | ⟨new, called⟩ := waiting w hw
    · obtain ⟨joined, key, called⟩ := h.waiting w old
      exact ⟨List.mem_append_right _ joined, key, List.mem_append_right _ called⟩
    · exact ⟨List.mem_append_left _ new, called⟩
  case joined =>
    intro n id there
    simp only [answersOf_append, List.mem_append]
    obtain new | old := List.mem_append.1 there
    · exact .inl (joined new).1
    · obtain ⟨w, hw, rfl, rfl⟩ | ⟨r, answered⟩ := h.joined old
      · obtain still | ⟨r, answered⟩ := kept w hw
        · exact .inl ⟨w, still, rfl, rfl⟩
        · exact .inr ⟨r, .inl answered⟩
      · exact .inr ⟨r, .inr answered⟩
  case joined_once =>
    intro n id id' there there'
    obtain new | old := List.mem_append.1 there <;> obtain new' | old' := List.mem_append.1 there'
    · exact (joined new).2.2.2 id' new'
    · exact absurd old' ((joined new).2.2.1 id')
    · exact absurd old ((joined new').2.2.1 id)
    · exact h.joined_once old old'
  case hit =>
    intro n v id there joined'
    have answered : .ok v ∈ answersOf (hs ++ log) n :=
      List.mem_filterMap.2 ⟨_, there, by simp [Happening.answer?]⟩
    obtain new' | old' := List.mem_append.1 joined'
    · simp [(joined new').2.1] at answered
    · obtain new | old := List.mem_append.1 there
      · exact hit new old'
      · exact h.hit old old'
  case told =>
    intro n r there
    obtain new | old := List.mem_append.1 there
    · obtain ⟨id, joined, known⟩ := told new
      exact ⟨id, List.mem_append_right _ joined, grows.known known⟩
    · obtain ⟨id, joined, known⟩ := h.told old
      exact ⟨id, List.mem_append_right _ joined, grows.known known⟩
  case refused =>
    intro n r there
    obtain new | old := List.mem_append.1 there
    · obtain ⟨key, t, called, fired⟩ := refused new
      exact ⟨key, t, called, grows.reason fired⟩
    · obtain ⟨key, t, called, fired⟩ := h.refused old
      exact ⟨key, t, List.mem_append_right _ called, grows.reason fired⟩

end CallLedger

theorem Move.callLedger (sound : s.Sound) (h : CallLedger log s) (move : Move s hs s') :
    CallLedger (hs ++ log) s' := by
  have grows := move.grows sound
  have once := h.once
  simp only [Scene.waits] at once
  have fresh : answersOf log s.nextCall = [] ∧ ∀ w ∈ s.cache.waiters, w.call ≠ s.nextCall := by
    have := once s.nextCall
    simp [List.countP_eq_zero] at this
    exact ⟨this.1, this.2.2⟩
  cases move with
  | refuse fired =>
    apply h.extend grows
    case once =>
      intro n
      have := once n
      simp [Happening.answer?, length_toList_ite, Scene.waits]
      grind
    case refused =>
      rename_i key t reason
      intro n r there
      obtain ⟨rfl, rfl⟩ : n = s.nextCall ∧ r = reason := by simpa using there
      exact ⟨key, t, by simp, fired⟩
    all_goals simp +contextual
  | hit stored trims =>
    apply h.extend grows
    case once =>
      intro n
      have := once n
      simp [Happening.answer?, length_toList_ite, Scene.waits, trims.waiters]
      grind
    case hit =>
      intro n v id there
      obtain ⟨rfl, -⟩ : n = s.nextCall ∧ _ := by simpa using there
      exact h.not_joined fresh.2 fresh.1 id
    all_goals simp +contextual [trims.waiters]
  | @join f token mem running free =>
    apply h.extend grows
    case once =>
      intro n
      have := once n
      simp [Happening.answer?, Scene.waits, Cache.wait, List.countP_append, List.countP_singleton]
      grind
    case joined =>
      intro n id there
      obtain ⟨rfl, rfl⟩ : n = s.nextCall ∧ id = f.id := by simpa using there
      refine ⟨⟨_, List.mem_append_right _ (List.mem_singleton_self _), rfl, rfl⟩, ?_, ?_, by simp⟩
      · simp [Happening.answer?, fresh.1]
      · exact h.not_joined fresh.2 fresh.1
    case waiting =>
      intro w hw
      obtain old | new := List.mem_append.1 hw
      · exact .inl old
      · rw [List.mem_singleton.1 new]
        exact .inr ⟨by simp, f.key, by simp⟩
    all_goals simp +contextual [Cache.wait]
  | start missing alone trims =>
    apply h.extend grows
    case once =>
      intro n
      have := once n
      simp [Happening.answer?, Scene.waits, trims.waiters, List.countP_cons]
      grind
    all_goals simp +contextual [trims.waiters]
  | @enter b rest first =>
    have before : answersOf log b.call = [] ∧ ∀ w ∈ s.cache.waiters, w.call ≠ b.call := by
      have := once b.call
      simp only [first, List.countP_cons, beq_self_eq_true] at this
      have none : s.cache.waiters.countP (·.call == b.call) = 0 := by grind
      exact ⟨List.length_eq_zero_iff.1 (by grind), by simpa [List.countP_eq_zero] using none⟩
    have called : .called b.call b.key b.token ∈ log := h.beginning b (by simp [first])
    apply h.extend grows
    case once =>
      intro n
      have := once n
      simp [Happening.answer?, Scene.waits, Cache.wait, first, List.countP_append, List.countP_cons,
        modifyFlight] at this ⊢
      grind
    case joined =>
      intro n id there
      obtain ⟨rfl, rfl⟩ : n = b.call ∧ id = b.flight := by simpa using there
      refine ⟨⟨_, List.mem_append_right _ (List.mem_singleton_self _), rfl, rfl⟩, ?_, ?_, by simp⟩
      · simp [Happening.answer?, before.1]
      · exact h.not_joined before.2 before.1
    case waiting =>
      intro w hw
      obtain old | new := List.mem_append.1 hw
      · exact .inl old
      · rw [List.mem_singleton.1 new]
        exact .inr ⟨by simp, b.key, by simp [called]⟩
    all_goals simp +contextual [Cache.wait, first, modifyFlight]
  | @tell w r mem known =>
    apply h.extend grows
    case once =>
      intro n
      have := once n
      have := sound.numbered.countP_dropWaiter mem (·.call == n)
      simp [Happening.answer?, Scene.waits, length_toList_ite] at this ⊢
      grind
    case kept =>
      intro v hv
      obtain still | rfl := mem_dropWaiter_or_eq sound.numbered mem hv
      · exact .inl still
      · exact .inr ⟨r, by simp [Happening.answer?]⟩
    case told =>
      intro n r' there
      obtain ⟨rfl, rfl⟩ : n = w.call ∧ r' = r := by simpa using there
      exact ⟨w.flight, (h.waiting w mem).1, known⟩
    all_goals simp +contextual [Cache.dropWaiter]
  | @leave w t reason mem under fired =>
    apply h.extend grows
    case once =>
      intro n
      have := once n
      have := sound.numbered.countP_dropWaiter mem (·.call == n)
      simp [Happening.answer?, Scene.waits, length_toList_ite] at this ⊢
      grind
    case kept =>
      intro v hv
      obtain still | rfl := mem_dropWaiter_or_eq sound.numbered mem hv
      · exact .inl still
      · exact .inr ⟨.error (.cancelled reason), by simp [Happening.answer?]⟩
    case refused =>
      intro n r there
      obtain ⟨rfl, rfl⟩ : n = w.call ∧ r = reason := by simpa using there
      obtain ⟨key, called⟩ := (h.waiting w mem).2
      exact ⟨key, t, by simp [← under, called], fired⟩
    all_goals simp +contextual [Cache.dropWaiter]
  | publish mem ended flights nextFlight waiters =>
    apply h.extend grows
    case once => simpa [Happening.answer?, Scene.waits, waiters] using once
    all_goals simp +contextual [waiters]
  | trim trims =>
    apply h.extend grows
    case once => simpa [Scene.waits, trims.waiters] using once
    all_goals simp +contextual [trims.waiters]
  | settle | desert | fire =>
    apply h.extend grows
    case once =>
      simp [Happening.answer?, Scene.waits, modifyFlight, Cache.abandon, count]
      exact once
    all_goals simp +contextual [modifyFlight, Cache.abandon, count]

/-! ## Computations -/

/-- What has happened to computations agrees with the scene. -/
structure FlightLedger (log : List (Happening τ α)) (s : Scene τ α W) : Prop where
  table : ∀ f ∈ s.cache.flights, .started f.id f.key ∈ log
  started : ∀ {id key}, .started id key ∈ log →
    (∃ f ∈ s.cache.flights, f.id = id ∧ f.key = key) ∨ Dict.has s.known id
  joined : ∀ {n id}, .joined n id ∈ log → ∃ key t, .called n key t ∈ log ∧ .started id key ∈ log
  ended : ∀ {id r}, .ended id r ∈ log ↔
    (∃ f ∈ s.cache.flights, f.id = id ∧ f.outcome = some r) ∨ Dict.get? s.known id = some r
  began : ∀ f ∈ s.cache.flights, f.state ≠ .starting ↔ ∃ n, .joined n f.id ∈ log

namespace FlightLedger

omit [DecidableEq τ] in
theorem perm (h : FlightLedger log s) (p : log.Perm log') : FlightLedger log' s := by
  obtain ⟨table, started, joined, ended, began⟩ := h
  constructor <;> simp only [← p.mem_iff] <;> assumption

omit [DecidableEq τ] in
theorem joined_lt (h : FlightLedger log s) (table : s.Table)
    {n id : Nat} (joined : .joined n id ∈ log) :
    id < s.cache.nextFlight := by
  obtain ⟨key, t, -, started⟩ := h.joined joined
  refine (table.place id).1 ((h.started started).imp_left ?_)
  rintro ⟨f, hf, rfl, -⟩
  exact List.mem_map_of_mem hf

theorem extend (h : FlightLedger log s) (grows : Grows s s')
    (table : ∀ f ∈ s'.cache.flights, (∃ g ∈ s.cache.flights, g.id = f.id ∧ g.key = f.key ∧
      (f.state ≠ .starting ↔ g.state ≠ .starting ∨ ∃ n, .joined n f.id ∈ hs)) ∨
      .started f.id f.key ∈ hs ∧ f.state = .starting ∧ ∀ n, .joined n f.id ∉ hs ++ log)
    (started : ∀ {id key}, .started id key ∈ hs → ∃ f ∈ s'.cache.flights, f.id = id ∧ f.key = key)
    (joined : ∀ {n id}, .joined n id ∈ hs →
      ∃ key t, .called n key t ∈ hs ++ log ∧ .started id key ∈ log)
    (ended : ∀ {id r}, (∃ f ∈ s'.cache.flights, f.id = id ∧ f.outcome = some r) ∨
      Dict.get? s'.known id = some r ↔ .ended id r ∈ hs ∨
      (∃ f ∈ s.cache.flights, f.id = id ∧ f.outcome = some r) ∨
      Dict.get? s.known id = some r) : FlightLedger (hs ++ log) s' := by
  constructor
  case table =>
    intro f hf
    obtain ⟨g, hg, id, key, -⟩ | ⟨new, -⟩ := table f hf
    · exact List.mem_append_right _ (id ▸ key ▸ h.table g hg)
    · exact List.mem_append_left _ new
  case started =>
    intro id key there
    obtain new | old := List.mem_append.1 there
    · exact .inl (started new)
    · exact grows.table (h.started old)
  case joined =>
    intro n id there
    obtain new | old := List.mem_append.1 there
    · obtain ⟨key, t, called, started⟩ := joined new
      exact ⟨key, t, called, List.mem_append_right _ started⟩
    · obtain ⟨key, t, called, started⟩ := h.joined old
      exact ⟨key, t, List.mem_append_right _ called, List.mem_append_right _ started⟩
  case ended =>
    intro id r
    rw [ended, List.mem_append, h.ended]
  case began =>
    intro f hf
    obtain ⟨g, hg, id, -, begun⟩ | ⟨-, starting, none⟩ := table f hf
    · rw [begun, h.began g hg, id]
      simp only [List.mem_append, exists_or]
      exact or_comm
    · simp [starting] at none ⊢
      exact none

/-- Computations change, but neither in number nor in outcome. -/
theorem map (h : FlightLedger log s) (grows : Grows s s') (u : Flight α W → Flight α W)
    (flights : s'.cache.flights = s.cache.flights.map u) (known : s'.known = s.known)
    (ids : ∀ f, (u f).id = f.id) (keys : ∀ f, (u f).key = f.key)
    (outcomes : ∀ f, (u f).outcome = f.outcome)
    (begun : ∀ f ∈ s.cache.flights, (u f).state ≠ .starting ↔
      f.state ≠ .starting ∨ ∃ n, .joined n f.id ∈ hs)
    (started : ∀ id key, .started id key ∉ hs) (ended : ∀ id r, .ended id r ∉ hs)
    (joined : ∀ {n id}, .joined n id ∈ hs →
      ∃ key t, .called n key t ∈ hs ++ log ∧ .started id key ∈ log) : FlightLedger
        (hs ++ log) s' := by
  apply h.extend grows
  case table =>
    simp only [flights, List.forall_mem_map, ids, keys]
    exact fun f hf => .inl ⟨f, hf, rfl, rfl, begun f hf⟩
  case started => exact fun there => absurd there (started _ _)
  case joined => exact joined
  case ended =>
    intro id r
    simp [flights, known, ended, ids, outcomes]

end FlightLedger

/-- What happens to computations in a move is as the scene has it. -/
theorem Move.flightLedger (sound : s.Sound) (calls : CallLedger log s) (h : FlightLedger log s)
    (move : Move s hs s') : FlightLedger (hs ++ log) s' := by
  have grows := move.grows sound
  cases move with
  | refuse | fire => apply h.map grows id <;> simp +contextual
  | hit stored trims => apply h.map grows id <;> simp +contextual [trims.flights]
  | trim trims => apply h.map grows id <;> simp +contextual [trims.flights]
  | @join f token mem running =>
    apply h.map grows fun g => if g.id = f.id then { g with waiters := g.waiters + 1 } else g
    case joined =>
      intro n id there
      obtain ⟨rfl, rfl⟩ : n = s.nextCall ∧ id = f.id := by simpa using there
      exact ⟨f.key, token, by simp, h.table f mem⟩
    case ids | keys | outcomes => exact fun g => by split <;> rfl
    case begun =>
      intro g hg
      by_cases same : g.id = f.id
      · simp [sound.eq_of_id_eq hg mem same, running]
      · simp [same]
    all_goals simp [Cache.wait, modifyFlight]
  | @start key token _ _ _ _ missing alone trims =>
    apply h.extend grows
    case table =>
      intro f hf
      simp [trims.flights] at hf
      obtain old | rfl := hf
      · exact .inl ⟨f, old, rfl, rfl, by simp⟩
      · refine .inr ⟨by simp, rfl, fun n there => ?_⟩
        exact Nat.lt_irrefl _ (h.joined_lt sound.toTable (by simpa using there))
    case ended => simp [trims.flights]
    all_goals simp [trims.flights]
  | @enter b rest first =>
    obtain ⟨f, hf, id, key, -⟩ := sound.beginning b (by simp [first])
    apply h.map grows fun g =>
      if g.id = b.flight then { g with state := .running, waiters := g.waiters + 1 } else g
    case joined =>
      intro n i there
      obtain ⟨rfl, rfl⟩ : n = b.call ∧ i = b.flight := by simpa using there
      refine ⟨b.key, b.token, ?_, id ▸ key ▸ h.table f hf⟩
      exact List.mem_append_right _ (calls.beginning b (by simp [first]))
    case ids | keys | outcomes => exact fun g => by split <;> rfl
    case begun =>
      intro g _
      by_cases same : g.id = b.flight <;> simp [same]
    case flights =>
      simp only [Cache.wait, modifyFlight, List.map_map]
      refine List.map_congr_left fun g _ => ?_
      simp only [Function.comp_apply]
      split <;> simp [*]
    all_goals simp
  | @settle f mem begun going r =>
    apply h.extend grows
    case table =>
      simp only [modifyFlight, List.forall_mem_map]
      intro g hg
      refine .inl ⟨g, hg, ?_⟩
      split <;> simp +contextual
    case ended =>
      intro id r'
      simp only [modifyFlight, List.mem_map, exists_exists_and_eq_and, List.mem_singleton,
        Happening.ended.injEq]
      constructor
      · rintro (⟨g, hg, rfl, out⟩ | known)
        · split at out
          next same => exact .inl ⟨by simp [same], by simpa using out.symm⟩
          next other => exact .inr (.inl ⟨g, hg, by simp [other], out⟩)
        · exact .inr (.inr known)
      · rintro (⟨rfl, rfl⟩ | ⟨g, hg, rfl, out⟩ | known)
        · exact .inl ⟨f, mem, by simp, by simp⟩
        · have other : g.id ≠ f.id := fun same => by
            rw [sound.eq_of_id_eq hg mem same, going] at out
            cases out
          exact .inl ⟨g, hg, by simp [other], by simp [other, out]⟩
        · exact .inr known
    all_goals simp
  | @publish f r cache mem ended flights =>
    apply h.extend grows
    case table =>
      intro g hg
      rw [flights] at hg
      exact .inl ⟨g, (List.mem_filter.1 hg).1, rfl, rfl, by simp⟩
    case ended =>
      intro id r'
      simp only [flights, List.mem_filter, bne_iff_ne, Dict.get?_put, List.mem_singleton,
        reduceCtorEq, false_or]
      constructor
      · rintro (⟨g, ⟨hg, -⟩, facts⟩ | known)
        · exact .inl ⟨g, hg, facts⟩
        · split at known
          next same => exact .inl ⟨f, mem, same.symm, ended.trans known⟩
          next => exact .inr known
      · rintro (⟨g, hg, rfl, out⟩ | known)
        · by_cases same : g.id = f.id
          · rw [sound.eq_of_id_eq hg mem same, ended] at out
            exact .inr (by simp [same, out])
          · exact .inl ⟨g, ⟨hg, same⟩, rfl, out⟩
        · refine .inr ?_
          have new := sound.unknown f mem
          split
          next same => simp [← same, Dict.has, known] at new
          next => exact known
    all_goals simp
  | @tell w | @leave w =>
    apply h.map grows fun g => if g.id = w.flight then { g with waiters := g.waiters - 1 } else g
    case ids | keys | outcomes => exact fun g => by split <;> rfl
    case begun =>
      intro g _
      split <;> simp
    all_goals simp [Cache.dropWaiter, modifyFlight]
  | @desert f mem running =>
    apply h.map grows fun g => if g.id = f.id then { g with state := .abandoned } else g
    case ids | keys | outcomes => exact fun g => by split <;> rfl
    case begun =>
      intro g hg
      by_cases same : g.id = f.id
      · simp [sound.eq_of_id_eq hg mem same, running]
      · simp [same]
    all_goals simp [Cache.abandon, count, modifyFlight]

/-! ## Runs -/

/-- The table is sound, and what has happened agrees with the scene. -/
structure Ledger (log : List (Happening τ α)) (s : Scene τ α W) : Prop where
  sound : s.Sound
  calls : CallLedger log s
  flights : FlightLedger log s

theorem Ledger.perm (h : Ledger log s) (p : log.Perm log') : Ledger log' s :=
  ⟨h.sound, h.calls.perm p, h.flights.perm p⟩

theorem Move.ledger (h : Ledger log s) (move : Move s hs s') : Ledger (hs ++ log) s' :=
  ⟨move.sound h.sound, move.callLedger h.sound h.calls, move.flightLedger h.sound h.calls h.flights⟩

theorem Moves.ledger (h : Ledger log s) (moves : Moves s hs s') : Ledger (hs ++ log) s' := by
  induction moves generalizing log with
  | refl => exact h
  | @cons _ _ _ hs hs' first _ ih =>
    refine (ih (first.ledger h)).perm ?_
    rw [← List.append_assoc]
    exact List.perm_append_comm.append_right log

theorem Ledger.start (policy : EvictionPolicy) (maxWeight : W) :
    Ledger [] ({ cache := { policy, maxWeight } } : Scene τ α W) := by
  refine ⟨.start policy maxWeight, ?_, ?_⟩ <;> constructor <;> simp [Scene.waits]

/-- In every run what has happened agrees with the scene. -/
theorem Runs.ledger {h : List (Moment τ α W)} (runs : Runs h s) : Ledger (logOf h) s := by
  induction runs with
  | start policy maxWeight => exact .start policy maxWeight
  | @step m h before orderly ih =>
    obtain ⟨hs, moves, perm⟩ := m.act.moves ih.sound orderly
    exact (moves.ledger ih).perm (perm.append_right _)

variable {h : List (Moment τ α W)} {m : Moment τ α W}

theorem Runs.grows_step (before : Runs h m.before) (orderly : m.act.Orderly m.before) :
    Grows m.before m.after := by
  obtain ⟨hs, moves, -⟩ := m.act.moves before.ledger.sound orderly
  exact moves.grows before.ledger.sound

theorem Runs.grows (runs : Runs h s) (mem : m ∈ h) : Grows m.before s := by
  induction runs with
  | start => cases mem
  | step before orderly ih =>
    obtain rfl | mem := List.mem_cons.1 mem
    · exact before.grows_step orderly
    · exact (ih mem).trans (before.grows_step orderly)

end Quill.Cache
