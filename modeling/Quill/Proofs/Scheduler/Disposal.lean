import Quill.Proofs.Scheduler.Operations

/-!
# A scheduler that is disposed

Disposing of a scheduler ends all its tasks. From then on its queues stay empty, so that no attempt
begins any more.

## Main definitions

* `Scheduler.Shut` — the scheduler is disposed and nothing is queued.
* `Scheduler.Stays` — what is shut stays so, and nothing begins.
* `shut_dispose` — disposing of a scheduler shuts it, and nothing is live any more.
-/

namespace Quill.Scheduler

variable {α : Type} {s s' : Scheduler} {id : Nat} {t t' : Task} {limits : Limits}

/-- The scheduler is disposed and nothing is queued. -/
structure Shut (s : Scheduler) : Prop where
  isDisposed : s.isDisposed
  interactive : s.interactive = []
  background : s.background = []

/-- The scheduler `s'` is disposed if `s` is, and if `s` is shut, so is `s'`, and nothing begins. -/
structure Stays (s s' : Scheduler) (begun : List (Nat × Nat)) : Prop where
  isDisposed : s'.isDisposed = s.isDisposed
  shut : s.Shut → s'.Shut ∧ begun = []

theorem Stays.refl (s : Scheduler) : s.Stays s [] := ⟨rfl, fun shut => ⟨shut, rfl⟩⟩

theorem Stays.trans {s'' : Scheduler} {a b : List (Nat × Nat)} (h : s.Stays s' a)
    (g : s'.Stays s'' b) : s.Stays s'' (a ++ b) where
  isDisposed := g.isDisposed.trans h.isDisposed
  shut := by
    intro shut
    obtain ⟨first, rfl⟩ := h.shut shut
    obtain ⟨second, rfl⟩ := g.shut first
    exact ⟨second, rfl⟩

/-- The flag and the queues decide. -/
theorem Stays.of_queues (isDisposed : s'.isDisposed = s.isDisposed)
    (interactive : s'.interactive = s.interactive) (background : s'.background = s.background) :
    s.Stays s' [] :=
  ⟨isDisposed, fun shut => ⟨⟨isDisposed ▸ shut.1, interactive ▸ shut.2, background ▸ shut.3⟩, rfl⟩⟩

abbrev StaysWith (s : Scheduler) (r : Result α) : Prop := s.Stays r.1 (begins r.2)

theorem StaysWith.andThen {r : Result α} {f : Scheduler → Result α} (h : s.StaysWith r)
    (g : r.1.StaysWith (f r.1)) : s.StaysWith (Scheduler.andThen r f) := by
  simpa [StaysWith, Scheduler.andThen] using Stays.trans h g

theorem stays_forEach {β : Type} {f : β → Scheduler → Result α} (step : ∀ b s, StaysWith s (f b s))
    (items : List β) (s : Scheduler) : s.StaysWith (forEach f items s) := by
  induction items generalizing s with
  | nil => exact .refl s
  | cons b rest ih =>
    rw [forEach_cons]
    exact (step b s).andThen (ih _)

theorem stays_checkIdle (s : Scheduler) : s.StaysWith (checkIdle s : Result α) := by
  rw [StaysWith, begins_checkIdle]
  unfold checkIdle
  split
  · exact .of_queues rfl rfl rfl
  · exact .refl s

/-- Where tasks are started, something was queued. -/
theorem stays_pumpAtMost (n : Nat) (s : Scheduler) :
    s.StaysWith (pumpAtMost limits n s : Result α) := by
  induction n generalizing s with
  | zero => exact .refl s
  | succ n ih =>
    unfold pumpAtMost
    split
    · split
      next id s₁ hd =>
        have started : s.StaysWith (start limits id s₁ : Result α) := by
          refine ⟨?_, fun shut => ?_⟩
          · have same : s₁.isDisposed = s.isDisposed := by
              unfold dequeue? at hd
              split at hd <;> simp at hd <;> obtain ⟨-, rfl⟩ := hd <;> rfl
            unfold start
            split <;> exact same
          · simp [dequeue?, shut.interactive, shut.background] at hd
        exact started.andThen (ih _)
      next => exact .refl s
    · exact .refl s

theorem stays_pump (s : Scheduler) : s.StaysWith (pump limits s : Result α) :=
  (stays_pumpAtMost _ s).andThen (stays_checkIdle _)

theorem stays_fireToken (reason : CancelReason) (id : Nat) (s : Scheduler) :
    s.StaysWith (fireToken reason id s : Result α) := by
  rw [StaysWith, begins_fireToken]
  unfold fireToken
  split
  · split
    · exact .of_queues rfl rfl rfl
    · exact .refl s
  · exact .refl s

/-- A task that is over has left its queue. -/
theorem stays_unqueue_finish (s : Scheduler) (t : Task) (state : TaskState) :
    s.Stays ((s.unqueue t).finish t state) [] := by
  unfold Scheduler.unqueue
  split
  · exact ⟨rfl, fun shut =>
      ⟨⟨shut.1, by simp [finish, Scheduler.put, Scheduler.count, shut.2], shut.3⟩, rfl⟩⟩
  · exact ⟨rfl, fun shut =>
      ⟨⟨shut.1, shut.2, by simp [finish, Scheduler.put, Scheduler.count, shut.3]⟩, rfl⟩⟩

theorem stays_cancel (reason : CancelReason) (id : Nat) (s : Scheduler) :
    s.StaysWith (cancel reason id s : Result α) := by
  unfold cancel
  split
  next => exact .refl s
  next t _ =>
    split
    · exact .refl s
    · have fired := (stays_unqueue_finish s t .cancelled).trans
          (stays_fireToken (α := α) reason id _)
      refine StaysWith.andThen ?_ (stays_checkIdle _)
      simpa [StaysWith, Scheduler.andThen, SchedulerEffect.begun?, note] using fired

theorem stays_submit (spec : TaskSpec) (reason : Option CancelReason) (s : Scheduler) :
    s.StaysWith (submit limits spec reason s : Result α) := by
  have recorded : s.Stays (s.record spec) [] := .of_queues rfl rfl rfl
  unfold submit
  dsimp only
  split
  · exact recorded.trans (stays_cancel (α := α) .disposed s.nextTask _)
  next alive =>
    refine StaysWith.andThen (StaysWith.andThen ?_ ?_) (stays_pump _)
    · refine ⟨?_, fun shut => absurd shut.isDisposed alive⟩
      unfold enqueue
      split <;> rfl
    · split
      · exact stays_cancel _ _ _
      · exact .refl _

theorem stays_invalidate (e : StoreEvent) (s : Scheduler) :
    s.StaysWith (invalidate e s : Result α) := by
  have running (id : Nat) (s : Scheduler) : s.StaysWith (invalidateRunning e id s : Result α) := by
    unfold invalidateRunning
    split
    · exact .refl s
    · split
      · exact .refl s
      · split
        · exact stays_cancel _ _ s
        · exact StaysWith.andThen (.of_queues rfl rfl rfl) (stays_fireToken _ _ _)
  have queued (id : Nat) (s : Scheduler) : s.StaysWith (closeQueued e.uri id s : Result α) := by
    unfold closeQueued
    split
    · split
      · exact stays_cancel _ _ s
      · exact .refl s
    · exact .refl s
  unfold invalidate
  dsimp only
  split
  · exact ((stays_forEach running _ s).andThen (stays_forEach queued _ _)).andThen
      (stays_forEach queued _ _)
  · exact stays_forEach running _ s

theorem stays_declare (id : Nat) (read : List ReadEntry) (scope : ReadScope) (s : Scheduler) :
    s.Stays (s.declare id read scope) [] := by
  unfold declare
  split
  · split
    · exact .of_queues rfl rfl rfl
    · exact .refl s
  · exact .refl s

theorem stays_conclude (versionOf : Uri → Option Int) (t : Task) (outcome : Except Failure α)
    (s : Scheduler) : s.StaysWith (conclude limits versionOf t outcome s) := by
  have superseded (uri : Uri) (s : Scheduler) :
      s.StaysWith (supersede limits t uri s : Result α) := by
    unfold supersede
    split
    next again =>
      exact ⟨rfl, fun shut => by simp [shut.isDisposed] at again⟩
    next =>
      rw [StaysWith]
      dsimp only
      split <;> exact .of_queues rfl rfl rfl
  unfold conclude
  split
  · exact superseded _ s
  · split
    · exact .of_queues rfl rfl rfl
    · exact StaysWith.andThen (.refl s) (superseded _ _)
  · exact .of_queues rfl rfl rfl
  · exact .of_queues rfl rfl rfl

theorem stays_settle (versionOf : Uri → Option Int) (id : Nat) (outcome : Except Failure α)
    (s : Scheduler) : s.StaysWith (settle limits versionOf id outcome s) := by
  unfold settle
  split
  next => exact .refl s
  next t _ =>
    dsimp only [releaseSlot]
    refine StaysWith.andThen (StaysWith.andThen ?_ ?_) (stays_pump _)
    · refine ⟨rfl, fun shut => ⟨⟨shut.1, shut.2, shut.3⟩, ?_⟩⟩
      dsimp only
      split <;> rfl
    · by_cases ended : t.state.isTerminal
      · simp only [ended, if_true]
        exact .refl _
      · simp only [ended]
        exact stays_conclude _ _ _ _

theorem stays_demote (id : Nat) (s : Scheduler) : s.StaysWith (demote limits id s : Result α) := by
  unfold demote
  split
  · exact .refl s
  · dsimp only
    split
    · exact StaysWith.andThen (.of_queues rfl rfl rfl) (stays_pump _)
    · exact .of_queues rfl rfl rfl

theorem stays_idle (waiter : Nat) (s : Scheduler) : s.StaysWith (idle waiter s : Result α) := by
  unfold idle
  split
  · exact .refl s
  · exact .of_queues rfl rfl rfl

/-! ## Disposing -/

theorem state_fireToken {reason : CancelReason} {i : Nat} (h : s.Sound)
    (ht : (fireToken reason id s : Result α).1.task? i = some t') :
    ∃ t, s.task? i = some t ∧ t'.state = t.state := by
  unfold fireToken at ht
  split at ht
  next t hs =>
    split at ht
    · rw [task?_put] at ht
      split at ht
      next eq =>
        obtain rfl := Option.some.inj ht
        exact ⟨t, by rw [eq, h.id_eq hs, hs], rfl⟩
      next => exact ⟨t', ht, rfl⟩
    · exact ⟨t', ht, rfl⟩
  next => exact ⟨t', ht, rfl⟩

@[simp] theorem task?_checkIdle (s : Scheduler) (i : Nat) :
    (checkIdle s : Result α).1.task? i = s.task? i := by
  unfold checkIdle
  split <;> rfl

theorem state_cancel {reason : CancelReason} {i : Nat} (h : s.Sound)
    (ht : (cancel reason id s : Result α).1.task? i = some t') :
    t'.state.isTerminal ∨ i ≠ id ∧ ∃ t, s.task? i = some t ∧ t'.state = t.state := by
  unfold cancel at ht
  split at ht
  next none => exact .inr ⟨by rintro rfl; simp [none] at ht, t', ht, rfl⟩
  next t hs =>
    split at ht
    next ended =>
      by_cases eq : i = id
      · subst eq
        obtain rfl : t = t' := by simpa [hs] using ht
        exact .inl ended
      · exact .inr ⟨eq, t', ht, rfl⟩
    next =>
      obtain rfl := h.id_eq hs
      have closed : Leads s ((s.unqueue t).finish t .cancelled) [] := unqueue_finish_leads h hs rfl
      rw [andThen, task?_checkIdle] at ht
      obtain ⟨u, hu, eq⟩ := state_fireToken closed.sound ht
      simp only [finish, task?_count, task?_put, task?_unqueue] at hu
      split at hu
      · obtain rfl := Option.some.inj hu
        exact .inl (by rw [eq]; rfl)
      next other => exact .inr ⟨other, u, hu, eq⟩

theorem state_forEach_cancel {reason : CancelReason} {i : Nat} (items : List Nat) (h : s.Sound)
    (ht : (forEach (cancel reason) items s : Result α).1.task? i = some t') :
    t'.state.isTerminal ∨ i ∉ items ∧ ∃ t, s.task? i = some t ∧ t'.state = t.state := by
  induction items generalizing s with
  | nil => exact .inr ⟨List.not_mem_nil, t', ht, rfl⟩
  | cons b rest ih =>
    rw [forEach_cons] at ht
    obtain ended | ⟨notin, u, hu, eq⟩ := ih (cancel_leads (α := α) reason b h).sound ht
    · exact .inl ended
    · rw [eq]
      obtain ended | ⟨ne, t, hs, eq'⟩ := state_cancel h hu
      · exact .inl ended
      · exact .inr ⟨by simp [ne, notin], t, hs, eq'⟩

theorem shut_dispose (h : s.Sound) (alive : s.isDisposed = false) :
    (dispose s : Result α).1.Shut ∧ ∀ {i t}, (dispose s : Result α).1.task? i = some t →
    ¬ t.IsLive := by
  let s₀ : Scheduler := { s with isDisposed := true }
  have sound₀ : s₀.Sound := h.congr rfl rfl rfl rfl rfl
  have sound := (dispose_leads (α := α) h).sound
  have ended {i t} (ht : (dispose s : Result α).1.task? i = some t) : t.state.isTerminal := by
    unfold dispose at ht
    rw [if_neg (by simp [alive])] at ht
    obtain ended | ⟨notin, u, hu, eq⟩ := state_forEach_cancel (s := s₀) _ sound₀ ht
    · exact ended
    · rw [eq]
      have hu : s.task? i = some u := hu
      simp only [List.mem_append, not_or] at notin
      cases state : u.state with
      | queued =>
        have queued : i ∈ s.queueOf u.spec.priority := h.mem_queue.2 ⟨u, hu, state, rfl⟩
        cases priority : u.spec.priority <;> rw [priority] at queued
        · exact absurd queued notin.1.1
        · exact absurd queued notin.1.2
      | running =>
        exact absurd (h.mem_running.2 ⟨u, hu, h.busy_of_running hu state⟩) notin.2
      | completed | cancelled | superseded | failed => rfl
  have empty (p : Priority) : (dispose s : Result α).1.queueOf p = [] := by
    refine List.eq_nil_iff_forall_not_mem.2 fun i mem => ?_
    obtain ⟨t, ht, state, -⟩ := sound.mem_queue.1 mem
    simpa [state, TaskState.isTerminal] using ended ht
  refine ⟨⟨?_, empty .interactive, empty .background⟩, fun ht live => ?_⟩
  · unfold dispose
    rw [if_neg (by simp [alive])]
    exact (stays_forEach (fun id s => stays_cancel .disposed id s) _ s₀).isDisposed
  · simpa [live.1, TaskState.isTerminal] using ended ht

end Quill.Scheduler
