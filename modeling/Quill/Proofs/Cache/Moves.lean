import Mathlib.Data.List.Nodup
import Quill.Proofs.Cache.Calls

/-!
# What an act is made of

An act on a scene is a row of small moves. In a cancellation one call after another gives up, and
now and then a computation is left that nobody waits for.

## Main definitions

* `Cache.Trims` — a cache that may have lost stored values, and nothing else.
* `Cache.Shrinks` — what a cancellation may do to a cache.
* `Cache.Move`, `Cache.Moves` — the moves, and rows of them.

## Main statements

* `Cache.ask_cases`, `Cache.publish_eq`, `Cache.giveUp_cases` — what the parts of an act may do.
* `Cache.moves_cancelDeep` — a cancellation is a row of moves.
-/

namespace Quill.Cache

variable {τ ω α W : Type} [Weight W]

/-! ## Stored values -/

/-- The cache `c'` has the computations of `c` and the calls that wait, and no stored value that `c`
does not have. -/
structure Trims (c c' : Cache τ ω α W) : Prop where
  flights : c'.flights = c.flights
  nextFlight : c'.nextFlight = c.nextFlight
  waiters : c'.waiters = c.waiters
  nextWaiter : c'.nextWaiter = c.nextWaiter
  stored : ∀ {key v}, c'.peek? key = some v → c.peek? key = some v

variable {c c' c'' : Cache τ ω α W} {key : CacheKey}

theorem Trims.refl (c : Cache τ ω α W) : c.Trims c := ⟨rfl, rfl, rfl, rfl, id⟩

theorem Trims.trans (h : c.Trims c') (g : c'.Trims c'') : c.Trims c'' :=
  ⟨g.flights.trans h.flights, g.nextFlight.trans h.nextFlight, g.waiters.trans h.waiters,
    g.nextWaiter.trans h.nextWaiter, fun stored => h.stored (g.stored stored)⟩

theorem Trims.peek?_eq_none (h : c.Trims c') (missing : c.peek? key = none) : c'.peek? key = none :=
  Option.eq_none_iff_forall_ne_some.2 fun v stored => by simp [h.stored stored] at missing

theorem trims_count (c : Cache τ ω α W) (f : CacheCounters → CacheCounters) : c.Trims (c.count f) :=
  ⟨rfl, rfl, rfl, rfl, id⟩

theorem trims_remove (c : Cache τ ω α W) (key : CacheKey) (e : CacheEntry α W) :
    c.Trims (c.remove key e) := by
  refine ⟨rfl, rfl, rfl, rfl, fun {key' v} stored => ?_⟩
  by_cases same : key' = key
  · simp [peek?, remove, same] at stored
  · simpa [peek?, remove, Dict.get?_erase_of_ne _ same] using stored

theorem trims_pruneAtMost (keep : Option CacheKey) (n : Nat) (c : Cache τ ω α W) :
    c.Trims (pruneAtMost keep n c).1 := by
  induction n generalizing c with
  | zero => exact .refl c
  | succ n ih =>
    rw [pruneAtMost]
    split
    · split
      · exact .refl c
      · exact ((trims_remove c _ _).trans (trims_count _ _)).trans (ih _)
    · exact .refl c

theorem trims_invalidateKind (c : Cache τ ω α W) (kind : Text) :
    c.Trims (c.invalidateKind kind).1 := by
  have all (gone : List (CacheKey × CacheEntry α W)) (c : Cache τ ω α W) :
      c.Trims (gone.foldl (fun c e => c.remove e.1 e.2) c) := by
    induction gone generalizing c with
    | nil => exact .refl c
    | cons e gone ih => exact (trims_remove c e.1 e.2).trans (ih _)
  exact all _ c

theorem trims_clear (c : Cache τ ω α W) : c.Trims c.clear.1 :=
  ⟨rfl, rfl, rfl, rfl, by simp [peek?, clear]⟩

theorem trims_setMaxWeight (c : Cache τ ω α W) (maxWeight : W) :
    c.Trims (c.setMaxWeight maxWeight).1 := by
  have set : c.Trims { c with maxWeight } := ⟨rfl, rfl, rfl, rfl, id⟩
  exact set.trans (trims_pruneAtMost _ _ _)

theorem ask_cases (c : Cache τ ω α W) (key : CacheKey) (weight : W) (now : Int) :
    (∃ cache v ts, c.ask key weight now = (cache, .hit v, ts) ∧ c.peek? key.place = some v ∧
      c.Trims cache) ∨
    (∃ cache f ts, c.ask key weight now = (cache, .join f.id, ts) ∧
      (f ∈ c.flights ∧ f.key = key.place) ∧ f.state = .running ∧ c.Trims cache) ∨
    (∃ cache ts, c.ask key weight now = (cache, .start c.nextFlight, ts) ∧
      c.peek? key.place = none ∧ c.running? key.place = none ∧ ({ c with
        flights := c.flights ++
          [⟨c.nextFlight, key.place, key.kind, weight, now, .starting, 0, none⟩]
        nextFlight := c.nextFlight + 1 } : Cache τ ω α W).Trims cache) := by
  unfold ask
  split
  next e entry =>
    have stored : c.peek? key.place = some e.value := by simp [peek?, entry]
    refine .inl ⟨_, _, _, rfl, stored, rfl, rfl, rfl, rfl, fun {key' v} there => ?_⟩
    by_cases same : key' = key.place
    · subst same
      rw [stored]
      simpa [peek?, count] using there
    · simpa [peek?, count, Dict.get?_put_of_ne _ _ same] using there
  next missing =>
    split
    next f meets =>
      have facts := List.find?_some meets
      simp only [Bool.and_eq_true, decide_eq_true_eq, beq_iff_eq] at facts
      have mem := List.mem_of_find?_eq_some meets
      exact .inr (.inl ⟨_, _, _, rfl, ⟨mem, facts.1⟩, facts.2, trims_count _ _⟩)
    next none => exact .inr (.inr ⟨_, _, rfl, by simp [peek?, missing], none, trims_count _ _⟩)

/-- A value is stored only by a computation under way. -/
theorem publish_eq {id : Nat} {f : Flight α W}
    {r : Except Failure α} (found : c.flight? id = some f)
    (ended : f.outcome = some r) (now : Int) :
    (c.publish id now).1.flights = c.flights.filter (·.id != id) ∧
    (c.publish id now).1.nextFlight = c.nextFlight ∧ (c.publish id now).1.waiters = c.waiters ∧
    (c.publish id now).1.nextWaiter = c.nextWaiter ∧
    ∀ {key v}, (c.publish id now).1.peek? key = some v → c.peek? key = some v ∨
      f.key = key ∧ r = .ok v ∧ f.state = .running := by
  simp only [publish, found, ended]
  cases r with
  | error e => cases e <;> exact ⟨rfl, rfl, rfl, rfl, .inl⟩
  | ok v =>
    dsimp only
    split
    next => exact ⟨rfl, rfl, rfl, rfl, .inl⟩
    next state =>
      obtain ⟨flights, nextFlight, waiters, nextWaiter, stored⟩ :=
        trims_pruneAtMost (τ := τ) (ω := ω) (W := W) (some f.key) _ _
      refine ⟨flights, nextFlight, waiters, nextWaiter, fun {key v'} there => ?_⟩
      have there := stored there
      by_cases same : key = f.key
      · subst same
        obtain rfl : v = v' := by simpa [peek?] using there
        exact .inr ⟨rfl, rfl, by simpa using state⟩
      · exact .inl (by simpa [peek?, Dict.get?_put_of_ne _ _ same] using there)

/-! ## Calls that wait -/

theorem mem_of_flight? {id : Nat} {f : Flight α W} (found : c.flight? id = some f) :
    f ∈ c.flights ∧ f.id = id :=
  ⟨List.mem_of_find?_eq_some found, by simpa using List.find?_some found⟩

theorem flight?_of_mem (distinct : (c.flights.map Flight.id).Nodup)
    {f : Flight α W} (mem : f ∈ c.flights) :
    c.flight? f.id = some f := by
  cases found : c.flight? f.id with
  | none => simpa using List.find?_eq_none.1 found f mem
  | some g =>
    obtain ⟨hg, same⟩ := mem_of_flight? found
    rw [List.inj_on_of_nodup_map distinct hg mem same]

theorem mem_of_waiter? {id : Nat} {w : Waiter τ ω} (found : c.waiter? id = some w) :
    w ∈ c.waiters ∧ w.id = id :=
  ⟨List.mem_of_find?_eq_some found, by simpa using List.find?_some found⟩

abbrev Numbered (c : Cache τ ω α W) : Prop := (c.waiters.map Waiter.id).Nodup

theorem Numbered.dropWaiter (h : c.Numbered) (w : Waiter τ ω) : (c.dropWaiter w).Numbered :=
  h.sublist (List.filter_sublist.map _)

theorem Numbered.eq_of_id_eq (h : c.Numbered) {v w : Waiter τ ω} (hv : v ∈ c.waiters)
    (hw : w ∈ c.waiters) (same : v.id = w.id) : v = w :=
  List.inj_on_of_nodup_map h hv hw same

theorem Numbered.countP_dropWaiter (h : c.Numbered) {w : Waiter τ ω} (mem : w ∈ c.waiters)
    (p : Waiter τ ω → Bool) :
    (c.dropWaiter w).waiters.countP p + (if p w then 1 else 0) = c.waiters.countP p := by
  have self : c.waiters.filter (·.id == w.id) = [w] := by
    obtain ⟨before, behind, split⟩ := List.append_of_mem mem
    have apart := h
    simp [Numbered, split, List.nodup_append] at apart
    have none_before : before.filter (·.id == w.id) = [] :=
      List.filter_eq_nil_iff.2 fun v hv => by simpa using (apart.2.2 v hv).1
    have none_behind : behind.filter (·.id == w.id) = [] :=
      List.filter_eq_nil_iff.2 fun v hv => by simpa using apart.2.1.1 v hv
    simp [split, none_before, none_behind]
  have parts := List.countP_eq_countP_filter_add c.waiters p (·.id == w.id)
  rw [parts, self, List.countP_singleton, Nat.add_comm]
  rfl

theorem waiter?_of_mem (h : c.Numbered) {w : Waiter τ ω} (mem : w ∈ c.waiters) :
    c.waiter? w.id = some w := by
  cases found : c.waiter? w.id with
  | none => simpa using List.find?_eq_none.1 found w mem
  | some v =>
    obtain ⟨hv, same⟩ := mem_of_waiter? found
    rw [h.eq_of_id_eq hv mem same]

theorem mem_dropWaiter_or_eq (h : c.Numbered) {v w : Waiter τ ω} (hw : w ∈ c.waiters)
    (hv : v ∈ c.waiters) : v ∈ (c.dropWaiter w).waiters ∨ v = w := by
  by_cases same : v.id = w.id
  · exact .inr (h.eq_of_id_eq hv hw same)
  · exact .inl (List.mem_filter.2 ⟨hv, by simpa using same⟩)

theorem isDeserted_iff {id : Nat} : c.isDeserted id = true ↔
    ∃ f, c.flight? id = some f ∧ f.state = .running ∧ f.waiters = 0 := by
  simp [isDeserted, Option.any_eq_true]

/-- No call begins to wait, and no computation is under way that was not. -/
structure Shrinks (c c' : Cache τ ω α W) : Prop where
  waiters : c'.waiters.Sublist c.waiters
  inFlight : c'.inFlight ≤ c.inFlight

theorem Shrinks.refl (c : Cache τ ω α W) : c.Shrinks c := ⟨.refl _, Nat.le_refl _⟩

theorem Shrinks.trans (h : c.Shrinks c') (g : c'.Shrinks c'') : c.Shrinks c'' :=
  ⟨g.waiters.trans h.waiters, Nat.le_trans g.inFlight h.inFlight⟩

theorem shrinks_dropWaiter (c : Cache τ ω α W) (w : Waiter τ ω) : c.Shrinks (c.dropWaiter w) := by
  refine ⟨List.filter_sublist, ?_⟩
  simp only [inFlight, dropWaiter, modifyFlight, ← List.countP_eq_length_filter, List.countP_map]
  refine List.countP_mono_left fun f _ running => ?_
  simp only [Function.comp_apply] at running
  split at running <;> exact running

theorem shrinks_abandon (c : Cache τ ω α W) (id : Nat) : c.Shrinks (c.abandon id) := by
  refine ⟨.refl _, ?_⟩
  simp only [inFlight, abandon, count, modifyFlight, ← List.countP_eq_length_filter,
    List.countP_map]
  refine List.countP_mono_left fun f _ running => ?_
  simp only [Function.comp_apply] at running
  split at running
  · cases running
  · exact running

@[simp] theorem happeningsOf_append (a b : List (Consequence Nat)) :
    (happeningsOf (a ++ b) : List (Happening τ α)) = happeningsOf a ++ happeningsOf b := by
  simp [happeningsOf]

@[simp] theorem abandonedOf_append (a b : List (Consequence Nat)) :
    abandonedOf (a ++ b) = abandonedOf a ++ abandonedOf b := by
  simp [abandonedOf]

namespace Scene

def drop (s : Scene τ α W) (w : Waiter τ Nat) : Scene τ α W :=
  { s with cache := s.cache.dropWaiter w }

def desert (s : Scene τ α W) (id : Nat) : Scene τ α W :=
  { s with cache := s.cache.abandon id, abandoned := s.abandoned ++ [id] }

section

variable (s : Scene τ α W) (w : Waiter τ Nat) (id : Nat)

@[simp] theorem drop_cache : (s.drop w).cache = s.cache.dropWaiter w := rfl

@[simp] theorem drop_nextCall : (s.drop w).nextCall = s.nextCall := rfl

@[simp] theorem drop_beginnings : (s.drop w).beginnings = s.beginnings := rfl

@[simp] theorem drop_known : (s.drop w).known = s.known := rfl

@[simp] theorem desert_cache : (s.desert id).cache = s.cache.abandon id := rfl

@[simp] theorem desert_nextCall : (s.desert id).nextCall = s.nextCall := rfl

@[simp] theorem desert_beginnings : (s.desert id).beginnings = s.beginnings := rfl

@[simp] theorem desert_known : (s.desert id).known = s.known := rfl

end

theorem take_refl (s : Scene τ α W) : s.take (s.cache, []) = s := by
  simp [take, abandonedOf]

/-- What follows is taken in one after the other. -/
theorem take_append (s : Scene τ α W) (a b : List (Consequence Nat)) (c c' : Cache τ Nat α W) :
    s.take (c', a ++ b) = (s.take (c, a)).take (c', b) := by
  simp [take]

/-- What the last call leaves behind. -/
theorem take_desert (s : Scene τ α W) (v : Waiter τ Nat)
    (r : Cache τ Nat α W × List (Consequence Nat))
    (t : Trace) (call : Nat) (reason : CancelReason) :
    s.take (r.1, .trace t :: .abandoned v.flight :: r.2 ++ [.refused call reason]) =
      ((s.drop v).desert v.flight).take r := by
  simp [take, abandonedOf, drop, desert]

end Scene

variable [DecidableEq τ] {s s' s'' : Scene τ α W} {hs hs' : List (Happening τ α)}

/-! ## Moves -/

/-- A small move of a scene, and what it does to calls and computations. -/
inductive Move : Scene τ α W → List (Happening τ α) → Scene τ α W → Prop where
  /-- A call whose token has fired. -/
  | refuse {s key t reason} (fired : s.reason? t = some reason) :
    Move s [.called s.nextCall key (some t), .refused s.nextCall reason]
      { s with nextCall := s.nextCall + 1 }
  | hit {s key token cache v} (stored : s.cache.peek? key = some v) (trims : s.cache.Trims cache) :
    Move s [.called s.nextCall key token, .hit s.nextCall v]
      { s with cache, nextCall := s.nextCall + 1 }
  | join {s f token} (mem : f ∈ s.cache.flights) (running : f.state = .running)
      (free : ∀ t, token = some t → s.reason? t = none) :
    Move s [.called s.nextCall f.key token, .joined s.nextCall f.id]
      { s with cache := (s.cache.wait f.id token s.nextCall).1, nextCall := s.nextCall + 1 }
  | start {s key token kind weight now cache} (missing : s.cache.peek? key = none)
      (alone : ∀ f ∈ s.cache.flights, f.state ≠ .abandoned → f.key ≠ key)
      (trims : ({ s.cache with
        flights := s.cache.flights ++
          [⟨s.cache.nextFlight, key, kind, weight, now, .starting, 0, none⟩]
        nextFlight := s.cache.nextFlight + 1 } : Cache τ Nat α W).Trims cache) :
    Move s [.called s.nextCall key token, .started s.cache.nextFlight key]
      { s with
        cache, nextCall := s.nextCall + 1
        beginnings := ⟨s.cache.nextFlight, key, s.nextCall, token⟩ :: s.beginnings }
  | enter {s b rest} (first : s.beginnings = b :: rest) :
    Move s [.joined b.call b.flight]
      { s with
        cache := ((s.cache.modifyFlight b.flight fun f => { f with state := .running }).wait
          b.flight b.token b.call).1
        beginnings := rest }
  | settle {s f} (mem : f ∈ s.cache.flights) (begun : f.state ≠ .starting)
    (going : f.outcome = none)
      (r : Except Failure α) :
    Move s [.ended f.id r]
      { s with cache := s.cache.modifyFlight f.id fun f => { f with outcome := some r } }
  | publish {s f r cache} (mem : f ∈ s.cache.flights) (ended : f.outcome = some r)
      (flights : cache.flights = s.cache.flights.filter (·.id != f.id))
      (nextFlight : cache.nextFlight = s.cache.nextFlight)
      (waiters : cache.waiters = s.cache.waiters)
      (nextWaiter : cache.nextWaiter = s.cache.nextWaiter)
      (stored : ∀ {key v}, cache.peek? key = some v → s.cache.peek? key = some v ∨
        f.key = key ∧ r = .ok v ∧ f.state ≠ .abandoned) :
    Move s [.known f.id] { s with cache, known := Dict.put s.known f.id r }
  | tell {s w r} (mem : w ∈ s.cache.waiters) (known : Dict.get? s.known w.flight = some r) :
    Move s [.told w.call r] (s.drop w)
  /-- A call gives up. -/
  | leave {s w t reason} (mem : w ∈ s.cache.waiters) (under : w.token = some t)
      (fired : s.reason? t = some reason) :
    Move s [.refused w.call reason] (s.drop w)
  /-- A computation is abandoned. -/
  | desert {s f} (mem : f ∈ s.cache.flights) (running : f.state = .running)
    (deserted : f.waiters = 0) :
    Move s [.abandoned f.id] (s.desert f.id)
  /-- A token fires; the calls under it have yet to give up. -/
  | fire {s token} (new : Dict.get? s.fired token = none) (reason : CancelReason) :
    Move s [] { s with fired := Dict.put s.fired token reason }
  | trim {s cache} (trims : s.cache.Trims cache) : Move s [] { s with cache }

inductive Moves : Scene τ α W → List (Happening τ α) → Scene τ α W → Prop where
  | refl (s : Scene τ α W) : Moves s [] s
  | cons {s s' s'' : Scene τ α W} {hs hs' : List (Happening τ α)} (first : Move s hs s')
    (rest : Moves s' hs' s'') : Moves s (hs ++ hs') s''

theorem Move.moves (h : Move s hs s') : Moves s hs s' := by
  simpa using Moves.cons h (.refl s')

theorem Moves.trans (h : Moves s hs s') (g : Moves s' hs' s'') : Moves s (hs ++ hs') s'' := by
  induction h with
  | refl => exact g
  | cons first _ ih =>
    rw [List.append_assoc]
    exact .cons first (ih g)

/-! ## Cancellations -/

theorem Scene.reason?_take {token : Token τ}
    {reason : CancelReason} (fired : s.reason? token = some reason)
    (r : Cache τ Nat α W × List (Consequence Nat)) : (s.take r).reason? token = some reason := by
  cases token with
  | caller t => exact fired
  | flight id =>
    simp only [Scene.reason?, Scene.take, List.mem_append] at fired ⊢
    grind

/-- One call gives up: it waits no more, it is one of many that wait, or it is the last one. -/
theorem giveUp_cases
    (deeper : Cache τ Nat α W → Token τ → CancelReason → Cache τ Nat α W × List (Consequence Nat))
    (reason : CancelReason) (s : Scene τ α W) (w : Waiter τ Nat) :
    ((∀ v ∈ s.cache.waiters, v.id ≠ w.id) ∧ giveUp deeper reason s.cache w = (s.cache, [])) ∨
    (∃ v ∈ s.cache.waiters, v.id = w.id ∧ (s.drop v).cache.isDeserted v.flight = false ∧
      giveUp deeper reason s.cache w = ((s.drop v).cache, [.refused v.call reason])) ∨
    ∃ v ∈ s.cache.waiters, v.id = w.id ∧ (∃ f ∈ (s.drop v).cache.flights,
      f.id = v.flight ∧ f.state = .running ∧ f.waiters = 0) ∧
      ∃ r, r = deeper ((s.drop v).desert v.flight).cache (.flight v.flight) .abandoned ∧
      ∃ t, giveUp deeper reason s.cache w =
        (r.1, .trace t :: .abandoned v.flight :: r.2 ++ [.refused v.call reason]) := by
  unfold giveUp
  split
  next none => exact .inl ⟨fun v hv
    same => by simpa [same] using List.find?_eq_none.1 none v hv, rfl⟩
  next v found =>
    obtain ⟨mem, same⟩ := mem_of_waiter? found
    dsimp only
    split
    next deserted =>
      obtain ⟨f, flight, running, none⟩ := isDeserted_iff.1 deserted
      obtain ⟨hf, id⟩ := mem_of_flight? flight
      exact .inr (.inr ⟨v, mem, same, ⟨f, hf, id, running, none⟩, _, rfl, _, rfl⟩)
    next stays => exact .inr (.inl ⟨v, mem, same, Bool.eq_false_iff.2 stays, rfl⟩)

theorem moves_giveUp
    {deeper : Cache τ Nat α W → Token τ → CancelReason → Cache τ Nat α W × List (Consequence Nat)}
    (ih : ∀ (s : Scene τ α W) token reason, s.cache.Numbered → s.reason? token = some reason →
      ∃ hs, Moves s hs (s.take (deeper s.cache token reason)) ∧
        hs.Perm (happeningsOf (deeper s.cache token reason).2))
    {token : Token τ} {reason : CancelReason} (numbered : s.cache.Numbered)
    (fired : s.reason? token = some reason) {w : Waiter τ Nat}
    (under : ∀ v ∈ s.cache.waiters, v.id = w.id → v.token = some token) :
    ∃ hs, Moves s hs (s.take (giveUp deeper reason s.cache w)) ∧
      hs.Perm (happeningsOf (giveUp deeper reason s.cache w).2) := by
  obtain ⟨-, eq⟩ | ⟨v, mem, same, -, eq⟩ |
      ⟨v, mem, same, ⟨f, hf, id, running, none⟩, r, hr, t, eq⟩ :=
    giveUp_cases deeper reason s w
  · rw [eq, Scene.take_refl]
    exact ⟨[], .refl s, .refl _⟩
  · have left := Move.leave mem (under v mem same) fired
    rw [eq, show s.take ((s.drop v).cache, [Consequence.refused v.call reason]) = s.drop v by
      simp [Scene.take, abandonedOf, Scene.drop]]
    exact ⟨_, left.moves, .refl _⟩
  · have left := Move.leave mem (under v mem same) fired
    have gone := Move.desert hf running none
    rw [id] at gone
    obtain ⟨hs, rest, perm⟩ := ih ((s.drop v).desert v.flight) (.flight v.flight) .abandoned
      (numbered.dropWaiter v) (by simp [Scene.reason?, Scene.desert])
    rw [eq, Scene.take_desert]
    refine ⟨.refused v.call reason :: .abandoned v.flight :: hs, ?_, ?_⟩
    · rw [hr]
      exact left.moves.trans (gone.moves.trans rest)
    · have later := (List.perm_append_singleton (.refused v.call reason)
          (.abandoned v.flight :: hs)).symm
      rw [hr]
      simpa [happeningsOf] using later.trans ((perm.cons _).append_right _)

theorem cancelDeep_succ (depth : Nat) (c : Cache τ ω α W) (token : Token τ)
    (reason : CancelReason) :
    cancelDeep (depth + 1) c token reason =
      (c.waiters.filter (·.token == some token)).foldl (fun acc w =>
        ((giveUp (cancelDeep depth) reason acc.1 w).1,
          acc.2 ++ (giveUp (cancelDeep depth) reason acc.1 w).2)) (c, []) := rfl

/-- In a cancellation calls and computations only get fewer. -/
theorem shrinks_giveUp
    {deeper : Cache τ ω α W → Token τ → CancelReason → Cache τ ω α W × List (Consequence ω)}
    (ih : ∀ c token reason, Shrinks c (deeper c token reason).1) (reason : CancelReason)
    (c : Cache τ ω α W) (w : Waiter τ ω) : c.Shrinks (giveUp deeper reason c w).1 := by
  unfold giveUp
  split
  · exact .refl c
  · dsimp only
    split
    · exact ((shrinks_dropWaiter c _).trans (shrinks_abandon _ _)).trans (ih _ _ _)
    · exact shrinks_dropWaiter c _

theorem shrinks_cancelDeep (depth : Nat) (c : Cache τ ω α W) (token : Token τ)
    (reason : CancelReason) :
    c.Shrinks (cancelDeep depth c token reason).1 := by
  induction depth generalizing c token reason with
  | zero => exact .refl c
  | succ depth ih =>
    rw [cancelDeep_succ]
    refine List.foldlRecOn (motive := fun acc : Cache τ ω α W × List (Consequence ω) =>
      c.Shrinks acc.1) _ _ (.refl c) ?_
    exact fun acc kept w _ => kept.trans (shrinks_giveUp ih reason acc.1 w)

theorem moves_cancelDeep (depth : Nat) (s : Scene τ α W) (token : Token τ) (reason : CancelReason)
    (numbered : s.cache.Numbered) (fired : s.reason? token = some reason) :
    ∃ hs, Moves s hs (s.take (cancelDeep depth s.cache token reason)) ∧
      hs.Perm (happeningsOf (cancelDeep depth s.cache token reason).2) := by
  induction depth generalizing s token reason with
  | zero => exact ⟨[], by rw [cancelDeep, Scene.take_refl]; exact .refl s, .refl _⟩
  | succ depth ih =>
    rw [cancelDeep_succ]
    have both := List.foldlRecOn (motive := fun acc : Cache τ Nat α W × List (Consequence Nat) =>
      (∃ hs, Moves s hs (s.take acc) ∧ hs.Perm (happeningsOf acc.2)) ∧
        s.cache.Shrinks acc.1)
      (s.cache.waiters.filter (·.token == some token))
      (fun acc w => ((giveUp (cancelDeep depth) reason acc.1 w).1,
        acc.2 ++ (giveUp (cancelDeep depth) reason acc.1 w).2)) (b := (s.cache, []))
      ⟨⟨[], by rw [Scene.take_refl]; exact .refl s, .refl _⟩, .refl _⟩ ?_
    · exact both.1
    rintro acc ⟨⟨hs, moves, perm⟩, kept⟩ w mem
    obtain ⟨mem, under⟩ := List.mem_filter.1 mem
    have under' (v : Waiter τ Nat) (hv : v ∈ acc.1.waiters) (same : v.id = w.id) :
        v.token = some token := by
      rw [numbered.eq_of_id_eq (kept.waiters.subset hv) mem same]
      simpa using under
    obtain ⟨hs', moves', perm'⟩ := moves_giveUp (s := s.take acc) ih
      (numbered.sublist (kept.waiters.map _)) (Scene.reason?_take fired acc) under'
    refine ⟨⟨hs ++ hs', ?_, ?_⟩,
      kept.trans (shrinks_giveUp (shrinks_cancelDeep depth) reason acc.1 w)⟩
    · rw [Scene.take_append s acc.2 _ acc.1]
      exact moves.trans moves'
    · rw [happeningsOf_append]
      exact perm.append perm'

end Quill.Cache
