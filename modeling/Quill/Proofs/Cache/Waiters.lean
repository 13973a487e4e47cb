import Quill.Proofs.Cache.Moves

/-!
# Calls that wait for a computation

A call that waits is handed back at most once, when it is told an outcome or gives up. Until then it
waits, provided that no two calls that wait have the same number.

## Main definitions

* `Cache.refusals` — the calls that have given up.
* `Cache.SameCalls` — the calls that wait are the same.
* `Cache.Hands` — some of the calls that wait are handed back.
* `Cache.Apart` — the calls that wait have numbers of their own, and will have.
-/

namespace Quill.Cache

variable {τ ω α W : Type} [Weight W]

def refusals (cs : List (Consequence ω)) : List ω :=
  cs.filterMap fun
    | .refused call _ => some call
    | _ => none

@[simp] theorem refusals_nil : refusals ([] : List (Consequence ω)) = [] := rfl

@[simp] theorem refusals_append (a b : List (Consequence ω)) :
    refusals (a ++ b) = refusals a ++ refusals b := by simp [refusals]

@[simp] theorem refusals_cons_refused (call : ω) (reason : CancelReason)
    (rest : List (Consequence ω)) :
    refusals (.refused call reason :: rest) = call :: refusals rest := rfl

@[simp] theorem refusals_cons_trace (t : Trace) (rest : List (Consequence ω)) :
    refusals (.trace t :: rest) = refusals rest := rfl

@[simp] theorem refusals_cons_abandoned (id : Nat) (rest : List (Consequence ω)) :
    refusals (.abandoned id :: rest) = refusals rest := rfl

structure SameCalls (c c' : Cache τ ω α W) : Prop where
  waiters : c'.waiters = c.waiters
  nextWaiter : c'.nextWaiter = c.nextWaiter

theorem Trims.sameCalls {c c' : Cache τ ω α W} (h : c.Trims c') : c.SameCalls c' :=
  ⟨h.waiters, h.nextWaiter⟩

theorem sameCalls_ask (c : Cache τ ω α W) (key : CacheKey) (weight : W) (now : Int) :
    c.SameCalls (c.ask key weight now).1 := by
  unfold ask
  split
  · exact ⟨rfl, rfl⟩
  · split <;> exact ⟨rfl, rfl⟩

theorem sameCalls_register (c : Cache τ ω α W) (id : Nat) : c.SameCalls (c.register id).1 := by
  unfold register
  split <;> exact ⟨rfl, rfl⟩

theorem sameCalls_publish (c : Cache τ ω α W) (id : Nat) (now : Int) :
    c.SameCalls (c.publish id now).1 := by
  cases found : c.flight? id with
  | none => simpa [publish, found] using ⟨rfl, rfl⟩
  | some f =>
    cases ended : f.outcome with
    | none =>
      simp only [publish, found, ended]
      exact ⟨rfl, rfl⟩
    | some r =>
      obtain ⟨-, -, waiters, nextWaiter, -⟩ := publish_eq found ended now
      exact ⟨waiters, nextWaiter⟩

/-- The cache `c'` has the calls of `c` that wait, without those handed back. -/
structure Hands (c c' : Cache τ ω α W) (calls : List ω) : Prop where
  handed : ∀ {call}, call ∈ calls → ∃ w ∈ c.waiters, w.call = call
  count : ∀ p : ω → Bool, (c'.waiters.countP fun w => p w.call) + calls.countP p ≤
    c.waiters.countP fun w => p w.call
  sublist : c'.waiters.Sublist c.waiters
  nextWaiter : c'.nextWaiter = c.nextWaiter
  kept : c.Numbered → ∀ w ∈ c.waiters, w ∈ c'.waiters ∨ w.call ∈ calls

variable {c c' c'' : Cache τ ω α W} {a b : List ω}

theorem Hands.mem (h : c.Hands c' a) {w : Waiter τ ω} (hw : w ∈ c'.waiters) : w ∈ c.waiters :=
  h.sublist.subset hw

theorem Hands.numbered (h : c.Hands c' a) (numbered : c.Numbered) : c'.Numbered :=
  numbered.sublist (h.sublist.map _)

theorem SameCalls.hands (h : c.SameCalls c') : c.Hands c' [] :=
  ⟨by simp, by simp [h.waiters], h.waiters ▸ .refl _, h.nextWaiter, fun _ _ hw => .inl (h.waiters ▸
    hw)⟩

theorem Hands.refl (c : Cache τ ω α W) : c.Hands c [] := SameCalls.hands ⟨rfl, rfl⟩

theorem Hands.trans (h : c.Hands c' a) (g : c'.Hands c'' b) : c.Hands c'' (a ++ b) where
  handed := by
    intro call hc
    rcases List.mem_append.1 hc with hc | hc
    · exact h.handed hc
    · obtain ⟨w, hw, rfl⟩ := g.handed hc
      exact ⟨w, h.mem hw, rfl⟩
  count := by
    intro p
    have := h.count p
    have := g.count p
    rw [List.countP_append]
    omega
  sublist := g.sublist.trans h.sublist
  nextWaiter := g.nextWaiter.trans h.nextWaiter
  kept := by
    intro numbered w hw
    rcases h.kept numbered w hw with hw | hw
    · exact (g.kept (h.numbered numbered) w hw).imp_right (List.mem_append_right _)
    · exact .inr (List.mem_append_left _ hw)

/-- The order in which calls are handed back does not matter. -/
theorem Hands.perm (h : c.Hands c' a) (perm : a.Perm b) : c.Hands c' b :=
  ⟨fun hc => h.handed (perm.mem_iff.2 hc), fun p => perm.countP_eq p ▸ h.count p, h.sublist,
    h.nextWaiter, fun numbered w hw => (h.kept numbered w hw).imp_right perm.mem_iff.1⟩

@[simp] theorem waiters_modifyFlight (c : Cache τ ω α W) (id : Nat) (f : Flight α W → Flight α W) :
    (c.modifyFlight id f).waiters = c.waiters := rfl

theorem dropWaiter_hands {id : Nat} {w : Waiter τ ω} (h : c.waiter? id = some w) :
    c.Hands (c.dropWaiter w) [w.call] := by
  have mem : w ∈ c.waiters := List.mem_of_find?_eq_some h
  refine ⟨?_, ?_, List.filter_sublist, rfl, fun numbered v hv => ?_⟩
  · intro call hc
    exact ⟨w, mem, (List.mem_singleton.1 hc).symm⟩
  · intro p
    have parts := List.countP_eq_countP_filter_add c.waiters (fun v => p v.call) (·.id == w.id)
    have self : [w.call].countP p ≤
        (c.waiters.filter (·.id == w.id)).countP fun v => p v.call := by
      by_cases hp : p w.call
      · have : 0 < (c.waiters.filter (·.id == w.id)).countP fun v => p v.call :=
          List.countP_pos_iff.2 ⟨w, by simp [mem], hp⟩
        simpa [hp] using this
      · simp [hp]
    have kept : (c.dropWaiter w).waiters = c.waiters.filter fun v => !(v.id == w.id) := rfl
    rw [kept]
    omega
  · exact (mem_dropWaiter_or_eq numbered mem hv).imp_right fun eq => by simp [eq]

theorem deliver_hands (c : Cache τ ω α W) (id : Nat) :
    c.Hands (c.deliver id).1 (c.deliver id).2.toList := by
  unfold deliver
  split
  next w h => exact dropWaiter_hands h
  next => exact .refl c

variable [DecidableEq τ]

theorem giveUp_hands
    (deeper : Cache τ ω α W → Token τ → CancelReason → Cache τ ω α W × List (Consequence ω))
    (h : ∀ c token reason, Hands c (deeper c token reason).1 (refusals (deeper c token reason).2))
    (reason : CancelReason) (c : Cache τ ω α W) (w : Waiter τ ω) :
    c.Hands (giveUp deeper reason c w).1 (refusals (giveUp deeper reason c w).2) := by
  unfold giveUp
  split
  next => exact .refl c
  next v hv =>
    have dropped := dropWaiter_hands hv
    simp only
    split
    · have abandoned : (c.dropWaiter v).Hands ((c.dropWaiter v).abandon v.flight) [] :=
        SameCalls.hands ⟨rfl, rfl⟩
      have rest := dropped.trans (abandoned.trans (h _ (.flight v.flight) .abandoned))
      exact rest.perm (by simpa using (List.perm_append_singleton v.call _).symm)
    · exact dropped

theorem cancelDeep_hands (depth : Nat) (c : Cache τ ω α W) (token : Token τ)
    (reason : CancelReason) :
    c.Hands (cancelDeep depth c token reason).1 (refusals (cancelDeep depth c token reason).2) := by
  induction depth generalizing c token reason with
  | zero => exact .refl c
  | succ depth ih =>
    unfold cancelDeep
    suffices H : ∀ (ws : List (Waiter τ ω)) (acc : Cache τ ω α W × List (Consequence ω)),
        c.Hands acc.1 (refusals acc.2) →
        c.Hands (ws.foldl (fun acc w =>
          ((giveUp (cancelDeep depth) reason acc.1 w).1,
            acc.2 ++ (giveUp (cancelDeep depth) reason acc.1 w).2)) acc).1
          (refusals (ws.foldl (fun acc w =>
            ((giveUp (cancelDeep depth) reason acc.1 w).1,
              acc.2 ++ (giveUp (cancelDeep depth) reason acc.1 w).2)) acc).2) from
      H _ (c, []) (.refl c)
    intro ws
    induction ws with
    | nil => exact fun acc h => h
    | cons w ws ih' =>
      intro acc h
      refine ih' _ ?_
      simpa using h.trans (giveUp_hands _ ih reason acc.1 w)

/-- The calls that give up had waited, and do not wait any more. -/
theorem cancel_hands (c : Cache τ ω α W) (token : Token τ) (reason : CancelReason) :
    c.Hands (c.cancel token reason).1 (refusals (c.cancel token reason).2) :=
  cancelDeep_hands _ c token reason

/-! ## Numbers of calls -/

omit [DecidableEq τ]

/-- The calls that wait have numbers of their own, which no later call will get. -/
structure Apart (c : Cache τ ω α W) : Prop where
  numbered : c.Numbered
  old : ∀ w ∈ c.waiters, w.id < c.nextWaiter

theorem Hands.apart (h : c.Hands c' a) (apart : c.Apart) : c'.Apart :=
  ⟨h.numbered apart.numbered, fun w hw => h.nextWaiter ▸ apart.old w (h.mem hw)⟩

/-- A call that begins to wait gets a new number. -/
theorem Apart.wait (apart : c.Apart) (id : Nat) (token : Option (Token τ)) (call : ω) :
    (c.wait id token call).1.Apart := by
  constructor
  · change List.Nodup
      ((c.waiters ++ [(⟨c.nextWaiter, id, token, call⟩ : Waiter τ ω)]).map Waiter.id)
    rw [List.map_append, List.nodup_append]
    refine ⟨apart.numbered, List.pairwise_singleton .., fun n hn m hm eq => ?_⟩
    obtain ⟨w, hw, rfl⟩ := List.mem_map.1 hn
    obtain rfl := List.mem_singleton.1 hm
    exact Nat.ne_of_lt (apart.old w hw) eq
  · intro w hw
    rcases List.mem_append.1 hw with hw | hw
    · exact Nat.lt_succ_of_lt (apart.old w hw)
    · obtain rfl := List.mem_singleton.1 hw
      exact Nat.lt_succ_self _

end Quill.Cache
