import Quill.Proofs.Cache.Ledger

/-!
# Between acts

Between two acts every computation under way is waited for, and no call waits whose token has fired.

## Main definitions

* `Cache.Scene.Rested` — this, but for some tokens that have fired just now.

## Main statements

* `Cache.rested_cancel` — a cancellation deals with the token that has fired.
* `Cache.Runs.rested` — a scene that is reached is at rest.
-/

namespace Quill.Cache

variable {τ α W : Type} [Weight W]

/-- A computation that is abandoned is under way no more. -/
theorem inFlight_abandon_lt {c : Cache τ Nat α W} {f : Flight α W} (mem : f ∈ c.flights)
    (running : f.state = .running) : (c.abandon f.id).inFlight < c.inFlight := by
  obtain ⟨before, behind, split⟩ := List.append_of_mem mem
  let u : Flight α W → Flight α W :=
    fun g => if g.id = f.id then { g with state := .abandoned } else g
  have fewer (fs : List (Flight α W)) :
      ((fs.map u).filter (·.state == .running)).length ≤
        (fs.filter (·.state == .running)).length := by
    simp only [← List.countP_eq_length_filter, List.countP_map]
    refine List.countP_mono_left fun g _ running => ?_
    simp only [Function.comp_apply, u] at running
    split at running
    · cases running
    · exact running
  have := fewer before
  have := fewer behind
  have gone : ((u f).state == .running) = false := by simp [u]
  show ((c.flights.map u).filter (·.state == .running)).length <
    (c.flights.filter (·.state == .running)).length
  simp only [split, List.map_append, List.map_cons, List.filter_append, List.length_append,
    List.filter_cons, gone, running, beq_self_eq_true, if_true, Bool.false_eq_true, if_false,
    List.length_cons]
  omega

variable [DecidableEq τ] {s : Scene τ α W}

/-- Every computation under way is waited for, and the calls that wait do so under tokens that have
not fired, or are `pending`. -/
structure Scene.Rested (pending : List (Token τ)) (s : Scene τ α W) : Prop where
  wanted : ∀ f ∈ s.cache.flights, f.state = .running → 0 < f.waiters
  unfired : ∀ w ∈ s.cache.waiters, ∀ t, w.token = some t → s.reason? t = none ∨ t ∈ pending

open Scene

variable {pending : List (Token τ)} {token : Token τ} {reason : CancelReason}

/-- A call gives up, and others still wait with it. -/
theorem Scene.Rested.drop (h : Rested pending s) (sound : s.Sound) {w : Waiter τ Nat}
    (stays : (s.drop w).cache.isDeserted w.flight = false) : Rested pending (s.drop w) := by
  refine ⟨?_, fun v hv => h.unfired v (List.mem_filter.1 hv).1⟩
  intro g hg running
  have found := flight?_of_mem (sound.toTable.dropWaiter w).distinct hg
  obtain ⟨f, hf, rfl⟩ := List.mem_map.1 hg
  split at running
  next same =>
    simp only [same, if_true] at found ⊢
    have running : f.state = .running := running
    simp only [isDeserted, drop_cache, found, Option.any_some, running, beq_self_eq_true,
      Bool.true_and, beq_eq_false_iff_ne] at stays
    exact Nat.pos_of_ne_zero stays
  next other =>
    simp only [other, if_false]
    exact h.wanted f hf running

/-- A call gives up as the last one. -/
theorem Scene.Rested.desert (h : Rested pending s) (w : Waiter τ Nat) :
    Rested (.flight w.flight :: pending) ((s.drop w).desert w.flight) := by
  constructor
  · intro g hg running
    obtain ⟨f', hf', rfl⟩ := List.mem_map.1 hg
    obtain ⟨f, hf, rfl⟩ := List.mem_map.1 hf'
    by_cases same : f.id = w.flight
    · simp [same] at running
    · simp only [same, if_false] at running ⊢
      exact h.wanted f hf running
  · intro v hv t under
    have before := h.unfired v (List.mem_filter.1 hv).1 t under
    cases t with
    | caller t => exact before.imp_right (List.mem_cons_of_mem _)
    | flight id =>
      by_cases same : id = w.flight
      · exact .inr (by simp [same])
      · refine before.imp (fun unfired => ?_) (List.mem_cons_of_mem _)
        simpa [reason?, Scene.desert, Scene.drop, same] using unfired

theorem rested_giveUp {depth : Nat}
    (ih : ∀ (s : Scene τ α W) pending token reason, s.Sound → s.cache.inFlight < depth →
      s.reason? token = some reason → Rested (token :: pending) s →
      Rested pending (s.take (cancelDeep depth s.cache token reason)))
    (sound : s.Sound) (few : s.cache.inFlight ≤ depth) (fired : s.reason? token = some reason)
    (rested : Rested pending s) {w : Waiter τ Nat}
    (under : ∀ v ∈ s.cache.waiters, v.id = w.id → v.token = some token) :
    Rested pending (s.take (giveUp (cancelDeep depth) reason s.cache w)) ∧
      ∀ v ∈ (giveUp (cancelDeep depth) reason s.cache w).1.waiters, v.id ≠ w.id := by
  obtain ⟨none, eq⟩ | ⟨v, mem, same, stays, eq⟩ |
      ⟨v, mem, same, ⟨f, hf, id, running, none⟩, r, hr, t, eq⟩ :=
    giveUp_cases (cancelDeep depth) reason s w
  · rw [eq, take_refl]
    exact ⟨rested, none⟩
  all_goals
    have dropped : ∀ u ∈ (s.drop v).cache.waiters, u.id ≠ w.id := fun u hu => by
      simpa [same] using (List.mem_filter.1 hu).2
  · rw [eq, show s.take ((s.drop v).cache, [Consequence.refused v.call reason]) = s.drop v by
      simp [Scene.take, abandonedOf, Scene.drop]]
    exact ⟨rested.drop sound stays, dropped⟩
  · have left := Move.leave mem (under v mem same) fired
    have gone := Move.desert hf running none
    have deserted := gone.sound (left.sound sound)
    have few' := inFlight_abandon_lt hf running
    rw [id] at deserted few'
    have fewer := (shrinks_dropWaiter s.cache v).inFlight
    rw [eq, Scene.take_desert, hr]
    refine ⟨ih _ _ _ _ deserted (Nat.lt_of_lt_of_le few' (Nat.le_trans fewer few))
      (by simp [Scene.reason?, Scene.desert]) (rested.desert v), fun u hu => ?_⟩
    have kept := shrinks_cancelDeep depth ((s.drop v).desert v.flight).cache (.flight v.flight)
        .abandoned
    exact dropped u (kept.waiters.subset hu)

theorem rested_cancelDeep (depth : Nat) (s : Scene τ α W) (pending : List (Token τ))
    (token : Token τ) (reason : CancelReason) (sound : s.Sound) (few : s.cache.inFlight < depth)
    (fired : s.reason? token = some reason) (rested : Rested (token :: pending) s) :
    Rested pending (s.take (cancelDeep depth s.cache token reason)) := by
  induction depth generalizing s pending token reason with
  | zero => exact absurd few (Nat.not_lt_zero _)
  | succ depth ih =>
    rw [cancelDeep_succ]
    -- the calls of `ws` have yet to give up
    suffices all : ∀ (ws : List (Waiter τ Nat)) (acc : Cache τ Nat α W × List (Consequence Nat)),
        (∀ w ∈ ws, w ∈ s.cache.waiters ∧ w.token = some token) → s.cache.Shrinks acc.1 →
        (s.take acc).Sound → Rested (token :: pending) (s.take acc) →
        (∀ v ∈ acc.1.waiters, v.token = some token → v.id ∈ ws.map Waiter.id) →
        Rested pending (s.take (ws.foldl (fun acc w =>
          ((giveUp (cancelDeep depth) reason acc.1 w).1,
            acc.2 ++ (giveUp (cancelDeep depth) reason acc.1 w).2)) acc)) by
      refine all _ _ (fun w hw => ?_) (.refl _) (by rwa [take_refl]) (by rwa [take_refl]) fun v
        hv under => ?_
      · simpa using List.mem_filter.1 hw
      · exact List.mem_map_of_mem (List.mem_filter.2 ⟨hv, by simpa using under⟩)
    intro ws
    induction ws with
    | nil =>
      intro acc _ _ _ rested none
      refine ⟨rested.wanted, fun v hv t under => ?_⟩
      refine (rested.unfired v hv t under).imp_right fun mem => ?_
      refine (List.mem_cons.1 mem).resolve_left fun same => ?_
      simpa using none v hv (by rw [under, same])
    | cons w ws rest =>
      intro acc among kept sound' rested left
      have fired' := reason?_take fired acc
      have under (v : Waiter τ Nat) (hv : v ∈ acc.1.waiters) (same : v.id = w.id) :
          v.token = some token := by
        obtain ⟨mem, under⟩ := among w List.mem_cons_self
        rw [sound.numbered.eq_of_id_eq (kept.waiters.subset hv) mem same, under]
      obtain ⟨hs, moves, -⟩ :=
        moves_giveUp (s := s.take acc) (moves_cancelDeep depth) sound'.numbered
        fired' under
      obtain ⟨rested', gone⟩ := rested_giveUp (s := s.take acc) ih sound'
        (Nat.le_trans kept.inFlight (Nat.le_of_lt_succ few)) fired' rested under
      have shrinks := shrinks_giveUp (shrinks_cancelDeep depth) reason acc.1 w
      refine rest _ (fun v hv => among v (List.mem_cons_of_mem _ hv)) (kept.trans shrinks) ?_ ?_ ?_
      · rw [take_append s acc.2 _ acc.1]
        exact moves.sound sound'
      · rw [take_append s acc.2 _ acc.1]
        exact rested'
      · intro v hv under
        have mem := left v (shrinks.waiters.subset hv) under
        exact (List.mem_cons.1 mem).resolve_left (gone v hv)

theorem rested_cancel (sound : s.Sound) (fired : s.reason? token = some reason)
    (rested : Rested [token] s) : Rested [] (s.cancel token reason).1 :=
  rested_cancelDeep _ s [] token reason sound (Nat.lt_succ_of_le (List.length_filter_le _ _)) fired
    rested

/-! ## Acts -/

/-- Stored values may go. -/
theorem Scene.Rested.trim (h : Rested pending s)
    {cache : Cache τ Nat α W} (trims : s.cache.Trims cache) :
    Rested pending { s with cache } :=
  ⟨trims.flights ▸ h.wanted, trims.waiters ▸ h.unfired⟩

theorem Scene.Rested.wait (h : Rested pending s) (id : Nat) {token : Option (Token τ)}
    (free : ∀ t, token = some t → s.reason? t = none ∨ t ∈ pending) (call : Nat) :
    Rested pending { s with cache := (s.cache.wait id token call).1 } := by
  constructor
  · simp only [Cache.wait, modifyFlight, List.forall_mem_map]
    intro f hf running
    split
    · exact Nat.succ_pos _
    next other =>
      simp only [other, if_false] at running
      exact h.wanted f hf running
  · intro w hw t under
    obtain old | new := List.mem_append.1 hw
    · exact h.unfired w old t under
    · rw [List.mem_singleton.1 new] at under
      exact free t under

/-- The first part of a computation is over, and its call waits for it. -/
theorem Scene.Rested.enter (h : Rested [] s) (b : Beginning τ) (rest : List (Beginning τ)) :
    Rested b.token.toList { s with
      cache := ((s.cache.modifyFlight b.flight fun f => { f with state := .running }).wait
        b.flight b.token b.call).1
      beginnings := rest } := by
  constructor
  · simp only [Cache.wait, modifyFlight, List.map_map, List.forall_mem_map, Function.comp_apply]
    intro f hf running
    by_cases same : f.id = b.flight
    · simp [same]
    · simp only [same, if_false] at running ⊢
      exact h.wanted f hf running
  · intro w hw t under
    obtain old | new := List.mem_append.1 hw
    · exact (h.unfired w old t under).imp_right fun none => by simp at none
    · rw [List.mem_singleton.1 new] at under
      exact .inr (by simpa using under)

theorem Act.rested (sound : s.Sound) (h : Rested [] s) (a : Act τ α W) (allowed : a.Allowed s) :
    Rested [] (a.apply s).1 := by
  cases a with
  | call key weight now token =>
    simp only [Act.apply]
    split
    next => exact { h with }
    next free =>
      have free (t : Token τ) (under : token = some t) : s.reason? t = none := by
        simpa [under] using free
      obtain ⟨cache, v, ts, asks, -, trims⟩ | ⟨cache, f, ts, asks, ⟨mem, -⟩, running, trims⟩ |
        ⟨cache, ts, asks, -, -, trims⟩ := ask_cases s.cache key weight now
      · rw [asks]
        exact { h.trim trims with }
      · rw [asks]
        have waits := (h.trim trims).wait f.id (fun t under => .inl (free t under)) s.nextCall
        exact { waits with }
      · rw [asks]
        constructor <;> simp only [trims.flights, trims.waiters]
        · intro g hg running
          obtain old | new := List.mem_append.1 hg
          · exact h.wanted g old running
          · rw [List.mem_singleton.1 new] at running
            cases running
        · exact h.unfired
  | pause =>
    cases first : s.beginnings with
    | nil => simpa [Act.apply, first] using h
    | cons b rest =>
      have registered := sound.register_eq first
      have enter := h.enter b rest
      simp only [Act.apply, first, registered]
      split
      next none => rwa [show b.token.toList = [] by simp [none]] at enter
      next token under =>
        rw [show b.token.toList = [token] by simp [under]] at enter
        split
        next free =>
          refine ⟨enter.wanted, fun w hw t at_w => .inl ?_⟩
          obtain unfired | same := enter.unfired w hw t at_w
          · exact unfired
          · rwa [List.mem_singleton.1 same]
        next reason fired => exact rested_cancel ((Move.enter first).sound sound) fired enter
  | settle id r =>
    refine ⟨?_, h.unfired⟩
    simp only [Act.apply, Cache.settle, modifyFlight, List.forall_mem_map]
    intro f hf running
    split at running <;> split <;> simp_all [h.wanted f hf]
  | publish id now =>
    obtain ⟨f, found, ended⟩ := (Option.any_eq_true _ _).1 allowed
    obtain ⟨r, ended⟩ := Option.isSome_iff_exists.1 ended
    obtain ⟨flights, -, waiters, -, -⟩ := publish_eq found ended now
    simp only [Act.apply, found, Option.bind_some, ended]
    refine ⟨fun g hg => ?_, waiters ▸ h.unfired⟩
    rw [flights] at hg
    exact h.wanted g (List.mem_filter.1 hg).1
  | deliver waiter =>
    obtain ⟨w, found, known⟩ := (Option.any_eq_true _ _).1 allowed
    obtain ⟨r, told⟩ := Option.isSome_iff_exists.1 known
    simp only [Act.apply, Cache.deliver, found, Option.bind_some, told]
    refine ⟨?_, fun v hv => h.unfired v (List.mem_filter.1 hv).1⟩
    simp only [Cache.dropWaiter, modifyFlight, List.forall_mem_map]
    intro f hf running
    have other : f.id ≠ w.flight := fun same => by
      have := sound.unknown f hf
      rw [same, known] at this
      cases this
    simp only [other, if_false] at running ⊢
    exact h.wanted f hf running
  | fire token reason =>
    have new : Dict.get? s.fired token = none := by simpa [Act.Allowed, Dict.has] using allowed
    refine rested_cancel ((Move.fire new reason).sound sound) (by simp [Scene.reason?])
      ⟨h.wanted, ?_⟩
    intro w hw t under
    have free := (h.unfired w hw t under).resolve_right (by simp)
    cases t with
    | flight id => exact .inl free
    | caller t =>
      by_cases same : t = token
      · exact .inr (by simp [same])
      · exact .inl (by simpa [Scene.reason?, Dict.get?_put_of_ne _ _ same] using free)
  | clear => exact h.trim (trims_clear _)
  | invalidateKind kind => exact h.trim (trims_invalidateKind _ kind)
  | setMaxWeight maxWeight => exact h.trim (trims_setMaxWeight _ maxWeight)

theorem Runs.rested {h : List (Moment τ α W)} (runs : Runs h s) : Rested [] s := by
  induction runs with
  | start => constructor <;> simp
  | step before orderly ih =>
    exact Act.rested before.ledger.sound ih _ (Bool.and_eq_true_iff.1 orderly).1

end Quill.Cache
