import Quill.Proofs.Scheduler.Steps

/-!
# The slots and the queues

As long as the limits stay as they are, each task is where its state says, the slots in use are
those held by running tasks, no task waits while a slot is free, no task is tried too often, and
nobody waits for what is over already.

## Main definitions

* `Scheduler.holdsSlot` — whether a task holds a slot.
* `Task.maxAttempts` — how often a task may be tried.
* `Scheduler.Orderly` — what holds of a scheduler between two calls.
* `Scheduler.Ledger` — the part of it that every step keeps.

## Main statements

* `Reached.orderly` — it holds of whatever a run reaches, and tasks start in the order of urgency.
-/

namespace Quill

def Task.maxAttempts (limits : Limits) (t : Task) : Nat :=
  match t.spec.priority with
  | .interactive => limits.maxRestarts + 1
  | .background => 1

/-- A task holds a slot only during an attempt, and an attempt of it that is to come is allowed. -/
structure Task.InBounds (limits : Limits) (t : Task) : Prop where
  busy : t.holdsSlot → t.attempt.isSome
  tries : t.attempts + (if t.state = .queued then 1 else 0) ≤ t.maxAttempts limits

namespace Scheduler

variable {α : Type} {s s₁ s' : Scheduler} {id : Nat} {t t' : Task} {limits : Limits} {c : Call α}

def holdsSlot (s : Scheduler) (id : Nat) : Bool := (s.task? id).any Task.holdsSlot

/-! ## Counting slots -/

/-- The slots are counted, there are no more than allowed, and each task keeps within its bounds. -/
structure Ledger (limits : Limits) (s : Scheduler) : Prop where
  slots : s.slotsInUse = s.running.countP s.holdsSlot
  bounded : s.slotsInUse ≤ limits.maxWorkers
  tasks : ∀ {id t}, s.task? id = some t → t.InBounds limits

theorem Replaces.holdsSlot_of_ne (r : s.Replaces t' s') {i : Nat} (h : i ≠ t'.id) :
    s'.holdsSlot i = s.holdsSlot i := by
  simp [holdsSlot, r i, h]

theorem Replaces.holdsSlot_self (r : s.Replaces t' s') : s'.holdsSlot t'.id = t'.holdsSlot := by
  simp [holdsSlot, r t'.id]

/-- Among other tasks as many hold a slot as before. -/
theorem Replaces.countP_of_notMem (r : s.Replaces t' s') {l : List Nat} (h : t'.id ∉ l) :
    l.countP s'.holdsSlot = l.countP s.holdsSlot := by
  refine List.countP_congr fun i hi => ?_
  rw [r.holdsSlot_of_ne fun e => h (e ▸ hi)]

/-- A task that holds a slot as before changes no number. -/
theorem Replaces.countP_of_eq (r : s.Replaces t' s') (ht : s.task? t'.id = some t)
    (same : t'.holdsSlot = t.holdsSlot) (l : List Nat) :
    l.countP s'.holdsSlot = l.countP s.holdsSlot := by
  refine List.countP_congr fun i _ => ?_
  by_cases e : i = t'.id
  · rw [e, r.holdsSlot_self, same]
    simp [holdsSlot, ht]
  · rw [r.holdsSlot_of_ne e]

theorem Replaces.countP_of_free (r : s.Replaces t' s') (ht : s.task? t'.id = some t)
    (free : t'.holdsSlot = false) {l : List Nat} (mem : t'.id ∈ l) (nodup : l.Nodup) :
    (l.erase t'.id).countP s'.holdsSlot =
        l.countP s.holdsSlot - (if t.holdsSlot then 1 else 0) ∧
      l.countP s'.holdsSlot = l.countP s.holdsSlot - if t.holdsSlot then 1 else 0 := by
  have outside : t'.id ∉ l.erase t'.id := fun m => (nodup.mem_erase_iff.1 m).1 rfl
  have held : s.holdsSlot t'.id = t.holdsSlot := by simp [holdsSlot, ht]
  have split (p : Nat → Bool) : l.countP p = (l.erase t'.id).countP p + if p t'.id then 1
    else 0 := by
    rw [(List.perm_cons_erase mem).countP_eq p, List.countP_cons]
  have before := split s.holdsSlot
  have after := split s'.holdsSlot
  have others := r.countP_of_notMem outside
  rw [held] at before
  rw [r.holdsSlot_self, free] at after
  grind

theorem Ledger.write (h : s.Ledger limits) (r : s.Replaces t' s')
    (slots : s'.slotsInUse = s'.running.countP s'.holdsSlot)
    (bounded : s'.slotsInUse ≤ limits.maxWorkers) (own : t'.InBounds limits) :
    s'.Ledger limits := by
  refine ⟨slots, bounded, ?_⟩
  intro i u hu
  rw [r i] at hu
  split at hu
  · obtain rfl := Option.some.inj hu
    exact own
  · exact h.tasks hu

/-- A task that is written over by one with the same slot leaves the count as it is. -/
theorem Ledger.replace (h : s.Ledger limits) (r : s.Replaces t' s') (ht : s.task? t'.id = some t)
    (slots : s'.slotsInUse = s.slotsInUse) (running : s'.running = s.running)
    (same : t'.holdsSlot = t.holdsSlot) (own : t'.InBounds limits) : s'.Ledger limits := by
  refine h.write r ?_ (slots ▸ h.bounded) own
  rw [slots, running, r.countP_of_eq ht same, h.slots]

/-- A new task waits for its first attempt and holds no slot. -/
theorem Ledger.enter (h : s.Ledger limits) (sound : s.Sound) (r : s.Replaces t' s')
    (new : t'.id = s.nextTask) (slots : s'.slotsInUse = s.slotsInUse)
    (running : s'.running = s.running)
    (free : t'.holdsSlot = false) (tries : t'.attempts = 0) : s'.Ledger limits := by
  have outside : t'.id ∉ s.running := by
    rw [sound.mem_running, new]
    rintro ⟨t, ht, -⟩
    exact absurd (sound.lt_next ht) (Nat.lt_irrefl _)
  refine h.write r ?_ (slots ▸ h.bounded) ⟨by simp [free], ?_⟩
  · rw [slots, running, r.countP_of_notMem outside, h.slots]
  · rw [tries, Task.maxAttempts]
    split <;> split <;> omega

/-- A task whose attempt has come back has given up the slot that it held. -/
theorem Ledger.endAttempt (h : s.Ledger limits) (sound : s.Sound) (ht : s.task? t.id = some t)
    (busy : t.attempt.isSome) (r : s.Replaces t' s') (id : t'.id = t.id)
    (slots : s'.slotsInUse = (s.withoutAttempt t).1.slotsInUse)
    (running : s'.running = s.running.erase t.id) (free : t'.holdsSlot = false)
    (tries : t'.attempts + (if t'.state = .queued then 1 else 0) ≤ t'.maxAttempts limits) :
    s'.Ledger limits := by
  have mem : t'.id ∈ s.running := by rw [id, sound.mem_running, isBusy_iff ht]; exact busy
  have fewer : s'.slotsInUse = s.slotsInUse - if t.holdsSlot then 1 else 0 := by
    rw [slots]
    simp only [withoutAttempt]
    split <;> rfl
  have held := (r.countP_of_free (id ▸ ht) free mem sound.nodup_running).1
  refine h.write r ?_ ?_ ⟨by simp [free], tries⟩
  · rw [running, ← id, held, fewer, h.slots]
  · have := h.bounded
    omega

theorem Calm.ledger {given : List (Nat × Except Failure α)} {begun : List (Nat × Nat)}
    (sound : s.Sound) (h : s.Ledger limits) (step : Calm s given begun s') : s'.Ledger limits := by
  cases step with
  | @rewrite _ t t' ht stands =>
    have own := h.tasks ht
    refine h.replace (replaces_put s t') (stands.id ▸ ht) rfl rfl stands.holdsSlot ⟨?_, ?_⟩
    · rw [stands.holdsSlot, stands.attempt]
      exact own.busy
    · rw [stands.attempts, stands.state, Task.maxAttempts, stands.spec]
      exact own.tries
  | @cancel _ t ht _ _ =>
    have own := h.tasks ht
    have slots : ((s.unqueue t).finish t .cancelled).slotsInUse = s.slotsInUse := by
      unfold unqueue
      split <;> rfl
    refine h.replace (replaces_unqueue_finish s t .cancelled) ht slots (running_unqueue s t) rfl
      ⟨own.busy, ?_⟩
    exact Nat.le_trans (Nat.le_add_right _ _) own.tries
  | refuse spec _ =>
    refine h.enter sound (replaces_refuse s spec) rfl ?_ (running_unqueue _ _) rfl rfl
    unfold unqueue
    split <;> rfl
  | wake | wait | shut => exact ⟨h.slots, h.bounded, h.tasks⟩

theorem Step.ledger {given : List (Nat × Except Failure α)} {begun : List (Nat × Nat)}
    (sound : s.Sound) (h : s.Ledger limits) (step : Step limits c s given begun s') :
    s'.Ledger limits := by
  cases step with
  | calm step => exact step.ledger sound h
  | enter spec =>
    refine h.enter sound (replaces_enter s spec) rfl ?_ (running_enqueue _ _) rfl rfl
    unfold enqueue
    split <;> rfl
  | @start _ s₁ i t free next ht =>
    obtain ⟨t', starts, queued, r, eq⟩ := sound.starts (α := α) limits next ht
    have id : t'.id = i := starts.id.trans (sound.id_eq ht)
    have outside : t'.id ∉ s.running := by
      rw [id, sound.mem_running, isBusy_iff ht, sound.idle_of_queued ht queued]
      simp
    refine h.write r ?_ ?_ ⟨by simp [starts.attempt], ?_⟩
    · have held : (Scheduler.start limits i s₁ : Result α).1.holdsSlot i = true := by
        rw [← id, ← starts.holdsSlot]
        exact id ▸ r.holdsSlot_self
      have one : [i].countP (Scheduler.start limits i s₁ : Result α).1.holdsSlot = 1 := by
        simp [held]
      have running : (Scheduler.start limits i s₁ : Result α).1.running = s.running ++ [i] := by
        rw [eq]
      rw [running, List.countP_append, r.countP_of_notMem outside, one, ← h.slots, eq]
    · rw [eq]
      exact free
    · have := (h.tasks ht).tries
      simpa [starts.attempts, starts.state, Task.maxAttempts, starts.spec, queued] using this
  | @lapse _ t ht busy ended =>
    have own := h.tasks ht
    refine h.endAttempt sound ht busy (replaces_put s (s.withoutAttempt t).2) rfl rfl rfl rfl ?_
    exact own.tries
  | @finish _ t state r ht runs ends =>
    have busy := sound.busy_of_running ht runs
    have stops := finish_stops (α := α) (s.withoutAttempt t).1 (s.withoutAttempt t).2
      ends.isTerminal [] rfl
    refine h.endAttempt sound ht busy (stops.sound sound ht busy).1 rfl rfl rfl rfl ?_
    have own := (h.tasks ht).tries
    have not_queued : state ≠ .queued := by
      rintro rfl
      simpa [TaskState.isTerminal] using ends.isTerminal
    have own : t.attempts ≤ t.maxAttempts limits := by simpa [runs] using own
    rw [if_neg not_queued]
    exact own
  | @retry _ t ht runs interactive left =>
    have busy := sound.busy_of_running ht runs
    have stops := retry_stops (α := α) (s.withoutAttempt t).1 (s.withoutAttempt t).2 interactive
        [] rfl
    refine h.endAttempt sound ht busy (stops.sound sound ht busy).1 rfl rfl rfl rfl ?_
    have most : t.maxAttempts limits = limits.maxRestarts + 1 := by
      simp [Task.maxAttempts, interactive]
    change t.attempts + 1 ≤ t.maxAttempts limits
    omega
  | @demote _ t ht holds runs =>
    have own := h.tasks ht
    have mem : t.id ∈ s.running := by
      rw [sound.mem_running, isBusy_iff ht]
      exact sound.busy_of_running ht runs
    have held := ((replaces_yieldSlot s t).countP_of_free ht rfl mem sound.nodup_running).2
    refine h.write (replaces_yieldSlot s t) ?_ ?_ ⟨by simp, own.tries⟩
    · change s.slotsInUse - 1 = s.running.countP (s.yieldSlot t).holdsSlot
      rw [held, h.slots]
      simp [holds]
    · exact Nat.le_trans (Nat.sub_le _ _) h.bounded

theorem Steps.ledger {given : List (Nat × Except Failure α)} {begun : List (Nat × Nat)}
    (sound : s.Sound) (h : s.Ledger limits) (steps : Steps (Step limits c) s given begun s') :
    s'.Ledger limits := by
  induction steps with
  | refl => exact h
  | step first _ ih => exact ih (first.sound sound) (first.ledger sound h)

/-! ## No task waits while a slot is free -/

/-- Whatever is queued waits for a slot. -/
def Full (limits : Limits) (s : Scheduler) : Prop :=
  s.slotsInUse < limits.maxWorkers → s.interactive = [] ∧ s.background = []

theorem Full.congr (h : s.Full limits) (slots : s'.slotsInUse = s.slotsInUse)
    (interactive : s.interactive = [] → s'.interactive = [])
    (background : s.background = [] → s'.background = []) : s'.Full limits := by
  intro free
  obtain ⟨i, b⟩ := h (slots ▸ free)
  exact ⟨interactive i, background b⟩

theorem Full.unqueue_finish (h : s.Full limits) (t : Task) (state : TaskState) :
    ((s.unqueue t).finish t state).Full limits := by
  unfold Scheduler.unqueue
  split
  · refine h.congr rfl (fun none => ?_) (fun none => none)
    simp [finish, put, count, none]
  · refine h.congr rfl (fun none => none) (fun none => ?_)
    simp [finish, put, count, none]

theorem Calm.full {given : List (Nat × Except Failure α)} {begun : List (Nat × Nat)}
    (step : Calm s given begun s') (h : s.Full limits) : s'.Full limits := by
  cases step with
  | rewrite | wake | wait | shut => exact h
  | cancel => exact h.unqueue_finish _ _
  | refuse spec _ =>
    have recorded : (s.record spec).Full limits := h
    exact recorded.unqueue_finish _ _

/-- Starting tasks ends for want of a slot or of tasks. -/
theorem full_pumpAtMost (limits : Limits) (n : Nat) (s : Scheduler) (h : s.Sound)
    (enough : s.interactive.length + s.background.length ≤ n) :
    (pumpAtMost limits n s : Result α).1.Full limits := by
  induction n generalizing s with
  | zero =>
    obtain ⟨interactive, background⟩ : s.interactive = [] ∧ s.background = [] := by
      simpa using enough
    exact fun _ => ⟨interactive, background⟩
  | succ n ih =>
    unfold pumpAtMost
    split
    · split
      next id s₁ next =>
        obtain ⟨t, ht, -⟩ := h.dequeued next
        obtain ⟨t', -, -, -, eq⟩ := h.starts (α := α) limits next ht
        refine ih _ (start_leads h next).sound ?_
        rw [eq]
        unfold dequeue? at next
        split at next
        · simp at next
          obtain ⟨-, rfl⟩ := next
          simp_all
          omega
        · simp at next
          obtain ⟨-, rfl⟩ := next
          simp_all
        · simp at next
      next none =>
        intro _
        unfold dequeue? at none
        split at none <;> simp_all
    next none =>
      intro free
      exact absurd free none

theorem full_pump (h : s.Sound) : (pump limits s : Result α).1.Full limits := by
  have started := full_pumpAtMost (α := α) limits _ s h (Nat.le_refl _)
  have idle {s : Scheduler} (h : s.Full limits) : (checkIdle s : Result α).1.Full limits := by
    unfold checkIdle
    split <;> exact h
  exact idle started

theorem Made.full {r : Result α} (made : Made limits c s r) (sound : s.Sound) (h : s.Full limits) :
    r.1.Full limits := by
  cases made with
  | calm steps => exact steps.preserves Calm.full h
  | pumps steps _ => exact full_pump (steps.sound sound)

/-! ## Urgent tasks first -/

def IsOf (p : Priority) (s : Scheduler) (id : Nat) : Prop :=
  ∃ t, s.task? id = some t ∧ t.spec.priority = p

/-- Of the attempts that begin the interactive ones are first, and where a background one begins, no
interactive task is queued. -/
def UrgentFirst (begun : List (Nat × Nat)) (s : Scheduler) : Prop :=
  ∃ a b, begun = a ++ b ∧ (∀ x ∈ a, s.IsOf .interactive x.1) ∧ (∀ x ∈ b, s.IsOf .background x.1) ∧
    (b ≠ [] → s.interactive = [])

theorem urgentFirst_nil (s : Scheduler) : UrgentFirst [] s := ⟨[], [], by simp⟩

/-- The next task to start is interactive, or no interactive task is queued. -/
theorem Sound.dequeued_urgent (h : s.Sound) (next : s.dequeue? = some (id, s₁)) :
    s.IsOf .interactive id ∧ s.interactive ≠ [] ∨
      s.IsOf .background id ∧ s.interactive = [] ∧ s₁.interactive = [] := by
  have member {p} (mem : id ∈ s.queueOf p) : s.IsOf p id := by
    obtain ⟨t, ht, -, prio⟩ := h.mem_queue.1 mem
    exact ⟨t, ht, prio⟩
  unfold dequeue? at next
  split at next
  next front =>
    obtain ⟨rfl, -⟩ : _ = id ∧ _ = s₁ := by simpa using next
    exact .inl ⟨member (by simp [queueOf, front]), by simp [front]⟩
  next empty front =>
    obtain ⟨rfl, rfl⟩ : _ = id ∧ _ = s₁ := by simpa using next
    exact .inr ⟨member (by simp [queueOf, front]), empty, empty⟩
  next => simp at next

/-- Interactive tasks start first; with none of them queued, only background ones start. -/
theorem urgentFirst_pumpAtMost (n : Nat) (h : s.Sound) :
    UrgentFirst (begins (pumpAtMost limits n s : Result α).2) (pumpAtMost limits n s : Result α).1 ∧
    (s.interactive = [] → (pumpAtMost limits n s : Result α).1.interactive = [] ∧
      ∀ x ∈ begins (pumpAtMost limits n s : Result α).2,
        (pumpAtMost limits n s : Result α).1.IsOf .background x.1) := by
  induction n generalizing s with
  | zero => exact ⟨urgentFirst_nil s, fun none => ⟨none, by simp [pumpAtMost]⟩⟩
  | succ n ih =>
    unfold pumpAtMost
    split
    · split
      next id s₁ next =>
        obtain ⟨t, ht, -, ht₁⟩ := h.dequeued next
        obtain ⟨t', -, -, -, eq⟩ := h.starts (α := α) limits next ht
        have first : Leads s (start limits id s₁ : Result α).1 _ := start_leads h next
        have rest :
            Leads _ (pumpAtMost limits n (start limits id s₁ : Result α).1 : Result α).1 _ :=
          pumpAtMost_leads n first.sound
        have kept {p} (of : s.IsOf p id) :
            (pumpAtMost limits n (start limits id s₁ : Result α).1 : Result α).1.IsOf p id := by
          obtain ⟨t, ht, prio⟩ := of
          obtain ⟨u, hu, spec⟩ := (first.trans rest).kept ht
          exact ⟨u, hu, spec ▸ prio⟩
        obtain ⟨⟨a, b, split, urgent, background, none⟩, later⟩ := ih first.sound
        simp only [andThen, begins_append, begins_start ht₁]
        obtain ⟨of, some⟩ | ⟨of, empty, empty₁⟩ := h.dequeued_urgent next
        · refine ⟨⟨(id, t.attempts + 1) :: a, b, by simp [split], ?_, background, none⟩,
            fun empty => absurd empty some⟩
          exact List.forall_mem_cons.2 ⟨kept of, urgent⟩
        · obtain ⟨empty', background'⟩ := later (by rw [eq]; exact empty₁)
          have all : ∀ x ∈ (id, t.attempts + 1) ::
              begins (pumpAtMost limits n (start limits id s₁ : Result α).1 : Result α).2,
              IsOf .background (pumpAtMost limits n (start limits id s₁ : Result α).1 : Result α).1
                x.1 := List.forall_mem_cons.2 ⟨kept of, background'⟩
          exact ⟨⟨[], _, rfl, by simp, all, fun _ => empty'⟩, fun _ => ⟨empty', all⟩⟩
      next => exact ⟨urgentFirst_nil s, fun none => ⟨none, by simp⟩⟩
    · exact ⟨urgentFirst_nil s, fun none => ⟨none, by simp⟩⟩

theorem urgentFirst_pump (limits : Limits) (h : s.Sound) :
    UrgentFirst (begins (pump limits s : Result α).2) (pump limits s : Result α).1 := by
  have idle {s : Scheduler} {begun : List (Nat × Nat)} (h : UrgentFirst begun s) :
      UrgentFirst begun (checkIdle s : Result α).1 := by
    unfold checkIdle
    split <;> exact h
  simpa [pump, andThen] using
    idle (urgentFirst_pumpAtMost (α := α) (s.interactive.length + s.background.length) h).1

/-- Calm steps start nothing. -/
theorem Steps.begun_of_calm {given : List (Nat × Except Failure α)} {begun : List (Nat × Nat)}
    (steps : Steps Calm s given begun s') : begun = [] := by
  induction steps with
  | refl => rfl
  | step first _ ih => cases first <;> simpa using ih

theorem Made.urgentFirst {r : Result α} (made : Made limits c s r) (h : s.Sound) :
    UrgentFirst (begins r.2) r.1 := by
  cases made with
  | calm steps => exact steps.begun_of_calm ▸ urgentFirst_nil r.1
  | pumps steps silent =>
    simpa [andThen, silent] using urgentFirst_pump (α := α) limits (steps.sound h)

/-! ## Nobody waits for what is over -/

/-- Whoever waits for all to be over waits for something. -/
def Rested (s : Scheduler) : Prop := s.isIdle → s.idleWaiters = []

theorem rested_checkIdle (s : Scheduler) : (checkIdle s : Result α).1.Rested := by
  unfold checkIdle
  split
  next => exact fun _ => rfl
  next busy =>
    intro idle
    simpa [idle] using busy

theorem rested_pump (s : Scheduler) : (pump limits s : Result α).1.Rested := rested_checkIdle _

theorem rested_fireToken (reason : CancelReason) (id : Nat) (h : s.Rested) :
    (fireToken reason id s : Result α).1.Rested := by
  unfold fireToken
  split
  · split <;> exact h
  · exact h

theorem rested_cancel (reason : CancelReason) (id : Nat) (h : s.Rested) :
    (cancel reason id s : Result α).1.Rested := by
  unfold cancel
  split
  · exact h
  · split
    · exact h
    · exact rested_checkIdle _

theorem rested_forEach {β : Type} {f : β → Scheduler → Result α}
    (step : ∀ b s, Rested s → (f b s).1.Rested) (items : List β) (h : s.Rested) :
    (forEach f items s).1.Rested := by
  induction items generalizing s with
  | nil => exact h
  | cons b rest ih =>
    rw [forEach_cons]
    exact ih (step b s h)

theorem rested_invalidate (e : StoreEvent) (h : s.Rested) :
    (invalidate e s : Result α).1.Rested := by
  have running (id : Nat) (s : Scheduler) (h : s.Rested) :
      (invalidateRunning e id s : Result α).1.Rested := by
    unfold invalidateRunning
    split
    · exact h
    · split
      · exact h
      · split
        · exact rested_cancel _ _ h
        · exact rested_fireToken (α := α) _ _ h
  have queued (id : Nat) (s : Scheduler) (h : s.Rested) :
      (closeQueued e.uri id s : Result α).1.Rested := by
    unfold closeQueued
    split
    · split
      · exact rested_cancel _ _ h
      · exact h
    · exact h
  unfold invalidate
  dsimp only
  split
  · exact rested_forEach queued _ (rested_forEach queued _ (rested_forEach running _ h))
  · exact rested_forEach running _ h

theorem Call.rested (versionOf : Uri → Option Int) (c : Call α) (h : s.Rested) :
    (c.apply limits versionOf s).1.Rested := by
  cases c with
  | submit spec reason =>
    simp only [Call.apply, Scheduler.submit]
    split
    · exact rested_cancel (α := α) .disposed s.nextTask (s := s.record spec) h
    · exact rested_pump _
  | declare id n read scope =>
    simp only [Call.apply, Scheduler.declare]
    split
    · split
      · split <;> exact h
      · exact h
    · exact h
  | invalidate e => exact rested_invalidate e h
  | cancel reason id => exact rested_cancel reason id h
  | settle id n outcome =>
    simp only [Call.apply, Scheduler.settle]
    split
    · exact h
    · exact rested_pump _
  | demote id =>
    simp only [Call.apply, Scheduler.demote]
    split
    · exact h
    · split
      · exact rested_pump _
      · exact h
  | idle waiter =>
    simp only [Call.apply, Scheduler.idle]
    split
    next => exact h
    next busy => exact fun idle => absurd idle busy
  | dispose =>
    simp only [Call.apply, Scheduler.dispose]
    split
    · exact h
    · exact rested_forEach (fun id _ h' => rested_cancel .disposed id h') _ h

/-! ## Runs -/

structure Orderly (limits : Limits) (s : Scheduler) : Prop where
  /-- A queued task is in one queue, once. -/
  queued : ∀ {id t}, s.task? id = some t → t.state = .queued →
    (s.interactive ++ s.background).count id = 1 ∧ id ∉ s.running
  running : ∀ {id t}, s.task? id = some t → t.state = .running →
    id ∈ s.running ∧ id ∉ s.interactive ++ s.background
  ended : ∀ {id t}, s.task? id = some t → t.state.isTerminal → id ∉ s.interactive ++ s.background
  slots : s.slotsInUse = s.running.countP s.holdsSlot
  bounded : s.slotsInUse ≤ limits.maxWorkers
  full : s.slotsInUse < limits.maxWorkers → s.interactive = [] ∧ s.background = []
  tries : ∀ {id t}, s.task? id = some t → t.attempts ≤ t.maxAttempts limits
  rested : s.isIdle → s.idleWaiters = []

theorem Sound.orderly_of_ledger (h : s.Sound) (ledger : s.Ledger limits) (full : s.Full limits)
    (rested : s.Rested) : s.Orderly limits := by
  have outside {id t} (ht : s.task? id = some t) (not_queued : t.state ≠ .queued) :
      id ∉ s.interactive ++ s.background := by
    have none (p) : id ∉ s.queueOf p := by
      rw [h.mem_queue]
      rintro ⟨u, hu, queued, -⟩
      obtain rfl : t = u := by simpa [ht] using hu
      exact not_queued queued
    exact fun mem => (List.mem_append.1 mem).elim (none .interactive) (none .background)
  refine ⟨?_, ?_, ?_, ledger.slots, ledger.bounded, full, ?_, rested⟩
  · intro id t ht queued
    constructor
    · have one (p) : (s.queueOf p).count id = if p = t.spec.priority then 1 else 0 := by
        simp [(h.nodup_queue p).count, h.mem_queue, ht, queued, eq_comm]
      have interactive := one .interactive
      have background := one .background
      rw [List.count_append]
      cases e : t.spec.priority <;> simp_all [queueOf]
    · rw [h.mem_running, isBusy_iff ht, h.idle_of_queued ht queued]
      simp
  · intro id t ht runs
    exact ⟨h.mem_running.2 ⟨t, ht, h.busy_of_running ht runs⟩, outside ht (by simp [runs])⟩
  · intro id t ht ended
    refine outside ht ?_
    intro e
    simp [e, TaskState.isTerminal] at ended
  · intro id t ht
    exact Nat.le_trans (Nat.le_add_right _ _) (ledger.tasks ht).tries

/-- As long as the limits stay as they are, what a run reaches is orderly, and at each moment the
interactive tasks start first and a background one only when no interactive one is queued. -/
theorem Reached.orderly {h : List (Moment α)} (run : Reached h s)
    (fixed : ∀ m ∈ h, m.limits = limits) :
    s.Orderly limits ∧ ∀ m ∈ h, UrgentFirst (begins m.effects) m.after := by
  have kept : s.Ledger limits ∧ s.Full limits ∧ s.Rested ∧
      ∀ m ∈ h, UrgentFirst (begins m.effects) m.after := by
    induction run with
    | start => exact ⟨⟨rfl, Nat.zero_le _, by simp [Scheduler.task?]⟩, fun _ => ⟨rfl, rfl⟩,
      fun _ => rfl, by simp⟩
    | @step m h before allowed ih =>
      obtain ⟨eq, earlier⟩ := List.forall_mem_cons.1 fixed
      obtain ⟨ledger, full, rested, urgent⟩ := ih earlier
      have sound := before.sound
      have made := m.call.made m.limits m.versionOf sound allowed
      rw [eq] at made
      have made : Made limits m.call m.before m.result := by
        unfold Moment.result
        rwa [eq]
      refine ⟨(made.steps sound).ledger sound ledger, made.full sound full, ?_, ?_⟩
      · exact m.call.rested m.versionOf rested
      · exact List.forall_mem_cons.2 ⟨made.urgentFirst sound, urgent⟩
  obtain ⟨ledger, full, rested, urgent⟩ := kept
  exact ⟨run.sound.orderly_of_ledger ledger full rested, urgent⟩

/-- With one slot: a background task runs, an interactive one and another background one wait, and
then the first one gives up its slot. -/
def oneSlot : List (Moment Nat) × Scheduler :=
  play ⟨1, 2, 500⟩ (fun _ => none)
    [.demote 1, .submit ⟨"c", .background, none⟩ none, .submit ⟨"b", .interactive, none⟩ none,
      .submit ⟨"a", .background, none⟩ none]

/-- Two tasks run, one of them in the slot, and the third one waits. -/
theorem orderly_oneSlot :
    Reached oneSlot.1 oneSlot.2 ∧ oneSlot.2.running = [1, 2] ∧ oneSlot.2.background = [3] ∧
    oneSlot.2.Orderly ⟨1, 2, 500⟩ ∧ ∀ m ∈ oneSlot.1, UrgentFirst (begins m.effects) m.after := by
  have run : Reached oneSlot.1 oneSlot.2 := reached_play _ _ (by decide)
  obtain ⟨orderly, urgent⟩ := run.orderly fun m hm => limits_of_mem_play hm
  exact ⟨run, by decide, by decide, orderly, urgent⟩

end Scheduler

end Quill
