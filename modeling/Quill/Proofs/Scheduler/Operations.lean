import Quill.Proofs.Scheduler.Leads

/-!
# The operations of the scheduler, one by one

Every operation on a sound scheduler leads to a sound one in the sense of `Scheduler.Leads`. The end
of an attempt is the exception: it is over before anything else begins.

## Main statements

* `pump_leads`, `cancel_leads`, `submit_leads`, `invalidate_leads`, `demote_leads`, `idle_leads`,
  `dispose_leads` — one lemma an operation.
* `not_isAffectedBy_of_invalidate` — what is live after an event does not depend on it.
* `settle_leads` — the end of an attempt.
-/

namespace Quill.Scheduler

variable {α : Type} {s s' s₁ : Scheduler} {id : Nat} {t t' : Task} {limits : Limits}

/-! ## Starting tasks -/

/-- The next task to start comes from the front of one queue, and nothing else changes. -/
theorem dequeue?_eq_some (hd : s.dequeue? = some (id, s₁)) :
    ∃ p, s.queueOf p = id :: s₁.queueOf p ∧ (∀ q ≠ p, s₁.queueOf q = s.queueOf q) ∧
      s₁.tasks = s.tasks ∧ s₁.running = s.running ∧ s₁.nextTask = s.nextTask := by
  unfold dequeue? at hd
  split at hd
  next _ e =>
    obtain ⟨rfl, rfl⟩ := by simpa using hd
    refine ⟨.interactive, e, ?_, rfl, rfl, rfl⟩
    intro q hq
    cases q
    · exact absurd rfl hq
    · rfl
  next _ e =>
    obtain ⟨rfl, rfl⟩ := by simpa using hd
    refine ⟨.background, e, ?_, rfl, rfl, rfl⟩
    intro q hq
    cases q
    · rfl
    · exact absurd rfl hq
  next => simp at hd

structure Starts (t t' : Task) : Prop where
  id : t'.id = t.id
  state : t'.state = .running
  attempts : t'.attempts = t.attempts + 1
  spec : t'.spec = t.spec
  attempt : t'.attempt = some {}
  readSet : t'.readSet = none
  holdsSlot : t'.holdsSlot

theorem start_eq (limits : Limits) (ht : s.task? id = some t) :
    ∃ t', (start limits id s : Result α).1 = { s.put t' with
        slotsInUse := s.slotsInUse + 1, running := s.running.erase id ++ [id] } ∧
      Starts t t' := by
  simp only [start, ht]
  exact ⟨_, rfl, rfl, rfl, rfl, rfl, rfl, rfl, rfl⟩

/-- A task that starts was queued; it begins an attempt that has read nothing. -/
theorem start_leads (h : s.Sound) (hd : s.dequeue? = some (id, s₁)) :
    Leads s (start limits id s₁ : Result α).1 (begins (start limits id s₁ : Result α).2) := by
  obtain ⟨p, front, others, tasks, running, next⟩ := dequeue?_eq_some hd
  have mem : id ∈ s.queueOf p := by simp [front]
  obtain ⟨t, ht, queued, prio⟩ := h.mem_queue.1 mem
  have hid := h.id_eq ht
  have idle := h.idle_of_queued ht queued
  have ht₁ : s₁.task? id = some t := by simpa [Scheduler.task?, tasks] using ht
  have notin : id ∉ s.running := by
    rw [h.mem_running, isBusy_iff ht, idle]
    simp
  have nodup := h.nodup_queue p
  rw [front, List.nodup_cons] at nodup
  have started : begins (start limits id s₁ : Result α).2 = [(id, t.attempts + 1)] := by
    simp only [start, ht₁]
    split <;> simp [SchedulerEffect.begun?, note]
  generalize hs' : (start limits id s₁ : Result α).1 = s'
  obtain ⟨t', hput, starts⟩ := start_eq (α := α) limits ht₁
  rw [hs'] at hput
  obtain ⟨same, run, attempts, spec, live, empty, -⟩ := starts
  obtain rfl : t'.id = id := same.trans hid
  have r : s.Replaces t' s' := by
    intro i
    rw [hput]
    change (s₁.put t').task? i = _
    rw [task?_put]
    simp [Scheduler.task?, tasks]
  have hrun : s'.running = s.running ++ [t'.id] := by
    rw [hput]
    simp [running, List.erase_of_not_mem notin]
  have hqueue (q) : s'.queueOf q = s₁.queueOf q := by rw [hput]; cases q <;> rfl
  have hnext : s'.nextTask = s.nextTask := by rw [hput]; exact next
  have sound : s'.Sound := by
    refine h.write r (hnext ▸ h.lt_next ht) (Nat.le_of_eq hnext.symm) ?_ ?_ ?_ ?_ ?_ ?_ ?_
    · intro i q
      rw [hqueue]
      by_cases e : q = p
      · subst e
        have := nodup.1
        rw [front]
        split
        next ei => simpa [ei, run] using this
        next ei => simp [ei]
      · rw [others q e]
        split
        next ei =>
          rw [ei, h.mem_queue, ht]
          simp [run, queued, prio, Ne.symm e]
        next => rfl
    · intro q
      rw [hqueue]
      by_cases e : q = p
      · exact e ▸ nodup.2
      · exact others q e ▸ h.nodup_queue q
    · intro i
      rw [hrun]
      by_cases e : i = t'.id <;> simp [e, live]
    · rw [hrun]
      exact List.nodup_append.2 ⟨h.nodup_running, by simp, by simp; grind⟩
    · simp [run]
    · simp [live]
    · exact fun _ => live
  rw [started]
  refine ⟨sound, Nat.le_of_eq hnext.symm, ?_, ?_, ?_, ?_, by simp⟩
  · intro i u hu
    by_cases e : i = t'.id
    · subst e
      obtain rfl : t = u := by simpa [ht] using hu
      exact ⟨t', by simp [r t'.id], spec⟩
    · exact ⟨u, by simp [r i, e, hu], rfl⟩
  · intro i u hu l
    by_cases e : i = t'.id
    · subst e
      obtain rfl : t' = u := by simpa [r t'.id] using hu
      exact .inl ⟨by simp [attempts], empty⟩
    · exact .inr ⟨u, by simpa [r i, e] using hu, l, .refl u⟩
  · intro i hb
    by_cases e : i = t'.id
    · subst e
      exact r.isBusy_self_iff.2 (by simp [live])
    · exact (r.isBusy_iff e).2 hb
  · intro i n hn
    obtain ⟨rfl, rfl⟩ : i = t'.id ∧ n = t.attempts + 1 := by simpa using hn
    exact ⟨by simp [isBusy_iff ht, idle], r.isBusy_self_iff.2 (by simp [live])⟩

theorem pumpAtMost_leads (n : Nat) (h : s.Sound) :
    Leads s (pumpAtMost limits n s : Result α).1 (begins (pumpAtMost limits n s : Result α).2) := by
  induction n generalizing s with
  | zero => exact .refl h
  | succ n ih =>
    unfold pumpAtMost
    split
    · split
      next i s₁ hd => exact (start_leads h hd).andThen fun h' => ih h'
      next => exact .refl h
    · exact .refl h

theorem checkIdle_leads (h : s.Sound) :
    Leads s (checkIdle s : Result α).1 (begins (checkIdle s : Result α).2) := by
  unfold checkIdle
  split
  · exact .of_tasks (h.congr rfl rfl rfl rfl rfl) rfl rfl
  · exact .refl h

theorem pump_leads (h : s.Sound) :
    Leads s (pump limits s : Result α).1 (begins (pump limits s : Result α).2) :=
  (pumpAtMost_leads _ h).andThen fun h' => checkIdle_leads h'

/-! ## Cancelling tasks -/

theorem fireToken_leads (reason : CancelReason) (h : s.Sound)
    (stale : ∀ t, s.task? id = some t → ¬ t.IsLive) :
    Leads s (fireToken reason id s : Result α).1 (begins (fireToken reason id s : Result α).2) := by
  unfold fireToken
  split
  next t ht =>
    split
    next e =>
      obtain rfl := h.id_eq ht
      have dead := stale t ht
      let t' : Task := { t with attempt := some ⟨some reason⟩ }
      exact .of_replace (h.replace (replaces_put s t') ht rfl (fun p => queueOf_put s _ p) rfl rfl
        rfl (by simp [e, t']) fun l => absurd l dead) (replaces_put s t') ht rfl rfl
        (fun l => absurd l dead) (by simp [t'])
    next => exact .refl h
  next => exact .refl h

theorem queueOf_unqueue (s : Scheduler) (t : Task) (p : Priority) :
    (s.unqueue t).queueOf p = if p = t.spec.priority then (s.queueOf p).erase t.id
      else s.queueOf p := by
  cases e : t.spec.priority <;> cases p <;> simp [unqueue, queueOf, e]

@[simp] theorem task?_unqueue (s : Scheduler) (t : Task) (i : Nat) :
    (s.unqueue t).task? i = s.task? i := by
  unfold unqueue
  split <;> rfl

@[simp] theorem running_unqueue (s : Scheduler) (t : Task) :
    (s.unqueue t).running = s.running := by
  unfold unqueue
  split <;> rfl

@[simp] theorem nextTask_unqueue (s : Scheduler) (t : Task) :
    (s.unqueue t).nextTask = s.nextTask := by
  unfold unqueue
  split <;> rfl

theorem unqueue_finish_leads (h : s.Sound) (ht : s.task? t.id = some t) {state : TaskState}
    (ended : state.isTerminal) : Leads s ((s.unqueue t).finish t state) [] := by
  have not_running : state ≠ .running := by
    rintro rfl
    simp [TaskState.isTerminal] at ended
  have r : s.Replaces { t with state } ((s.unqueue t).finish t state) := by
    intro i
    simp [finish]
  refine .of_replace (h.close r ht (nextTask_unqueue s t) ?_ (running_unqueue s t) ended rfl) r ht
    (nextTask_unqueue s t) rfl (fun l => absurd l.1 not_running) id
  intro p
  simp [finish, queueOf_unqueue]

theorem cancel_leads (reason : CancelReason) (id : Nat) (h : s.Sound) :
    Leads s (cancel reason id s : Result α).1 (begins (cancel reason id s : Result α).2) := by
  unfold cancel
  split
  next => exact .refl h
  next t ht =>
    split
    · exact .refl h
    · obtain rfl := h.id_eq ht
      have closed : Leads s ((s.unqueue t).finish t .cancelled) [] := unqueue_finish_leads h ht rfl
      have stale : ∀ u, ((s.unqueue t).finish t .cancelled).task? t.id = some u → ¬ u.IsLive := by
        intro u hu live
        obtain rfl : { t with state := .cancelled } = u := by simpa [finish] using hu
        simp [Task.IsLive] at live
      have fired := closed.trans (fireToken_leads (α := α) reason closed.sound stale)
      refine Leads.andThen ?_ fun h' => checkIdle_leads h'
      simpa [Scheduler.andThen, SchedulerEffect.begun?, note] using fired

theorem dispose_leads (h : s.Sound) :
    Leads s (dispose s : Result α).1 (begins (dispose s : Result α).2) := by
  unfold dispose
  split
  · exact .refl h
  · have sound : Sound { s with isDisposed := true } := h.congr rfl rfl rfl rfl rfl
    have cancelled := forEach_leads (α := α) (fun id _ h' => cancel_leads .disposed id h')
      (s.interactive ++ s.background ++ s.running) sound
    exact (Leads.of_tasks (s := s) sound rfl rfl).trans cancelled

/-! ## Submitting tasks -/

theorem put_new_leads (h : s.Sound) (r : s.Replaces t s') (new : t.id = s.nextTask)
    (idle : t.attempt = none) (waits : t.state ≠ .running) (next : s'.nextTask = s.nextTask + 1)
    (running : s'.running = s.running)
    (queues : ∀ i p, i ∈ s'.queueOf p ↔
      if i = t.id then t.state = .queued ∧ t.spec.priority = p else i ∈ s.queueOf p)
    (nodup : ∀ p, (s'.queueOf p).Nodup) : Leads s s' [] := by
  have unknown : s.task? t.id = none := by
    cases ht : s.task? t.id with
    | none => rfl
    | some u => exact absurd (h.lt_next ht) (new ▸ Nat.lt_irrefl _)
  have not_busy : ¬ s.IsBusy t.id := by
    rintro ⟨u, hu, -⟩
    simp [unknown] at hu
  have sound : s'.Sound := by
    refine h.write r (by omega) (by omega) queues nodup ?_ (running ▸ h.nodup_running)
      (fun _ => idle) (fun e => absurd e waits) (fun l => absurd l.1 waits)
    intro i
    rw [running]
    split
    next e => simpa [e, h.mem_running, idle] using not_busy
    next => rfl
  refine ⟨sound, by omega, ?_, ?_, ?_, by simp, by simp⟩
  · intro i u hu
    have : i ≠ t.id := by
      rintro rfl
      simp [unknown] at hu
    exact ⟨u, by simp [r i, this, hu], rfl⟩
  · intro i u hu live
    rw [r i] at hu
    split at hu
    · obtain rfl : t = u := by simpa using hu
      exact absurd live.1 waits
    · exact .inr ⟨u, hu, live, .refl u⟩
  · intro i hb
    have : i ≠ t.id := by
      rintro rfl
      exact not_busy hb
    exact (r.isBusy_iff this).2 hb

/-- A queued task goes to the end of its queue. -/
theorem queueOf_enqueue (s : Scheduler) (t : Task) (p : Priority) :
    (s.enqueue t).queueOf p = if p = t.spec.priority then s.queueOf p ++ [t.id]
      else s.queueOf p := by
  cases e : t.spec.priority <;> cases p <;> simp [enqueue, queueOf, e]

@[simp] theorem task?_enqueue (s : Scheduler) (t : Task) (i : Nat) :
    (s.enqueue t).task? i = s.task? i := by
  unfold enqueue
  split <;> rfl

@[simp] theorem running_enqueue (s : Scheduler) (t : Task) :
    (s.enqueue t).running = s.running := by
  unfold enqueue
  split <;> rfl

@[simp] theorem nextTask_enqueue (s : Scheduler) (t : Task) :
    (s.enqueue t).nextTask = s.nextTask := by
  unfold enqueue
  split <;> rfl

def record (s : Scheduler) (spec : TaskSpec) : Scheduler :=
  ({ s with nextTask := s.nextTask + 1 }.put { id := s.nextTask, spec }).count fun c =>
    { c with submitted := c.submitted + 1 }

@[simp] theorem task?_record (s : Scheduler) (spec : TaskSpec) (i : Nat) :
    (s.record spec).task? i =
      if i = s.nextTask then some { id := s.nextTask, spec } else s.task? i := by
  change (Scheduler.put _ _).task? i = _
  rw [task?_put]
  rfl

theorem Sound.not_mem_queue_next (h : s.Sound) (p : Priority) : s.nextTask ∉ s.queueOf p := by
  rw [h.mem_queue]
  rintro ⟨t, ht, -⟩
  exact absurd (h.lt_next ht) (Nat.lt_irrefl _)

theorem record_enqueue_leads (h : s.Sound) (spec : TaskSpec) :
    Leads s ((s.record spec).enqueue { id := s.nextTask, spec }) [] := by
  have queue (p) : ((s.record spec).enqueue { id := s.nextTask, spec }).queueOf p =
      if p = spec.priority then s.queueOf p ++ [s.nextTask] else s.queueOf p := by
    rw [queueOf_enqueue]
    cases p <;> rfl
  refine put_new_leads (t := { id := s.nextTask, spec }) h ?_ rfl rfl (by simp)
    (by simp [record, put, count]) (by simp [record, put, count]) ?_ ?_
  · intro i
    simp
  · intro i p
    rw [queue]
    by_cases e : i = s.nextTask
    · subst e
      split <;> simp_all [h.not_mem_queue_next, eq_comm]
    · split <;> simp [e]
  · intro p
    rw [queue]
    split
    · exact List.nodup_append.2 ⟨h.nodup_queue p, by simp, by simp; grind [h.not_mem_queue_next p]⟩
    · exact h.nodup_queue p

/-- A task that is submitted too late never enters its queue. -/
theorem record_finish_leads (h : s.Sound) (spec : TaskSpec) :
    Leads s (((s.record spec).unqueue { id := s.nextTask, spec }).finish { id := s.nextTask, spec }
      .cancelled) [] := by
  let t : Task := { id := s.nextTask, spec }
  have queue (p) : (((s.record spec).unqueue t).finish t .cancelled).queueOf p = s.queueOf p := by
    simp only [finish, queueOf_count, queueOf_put, queueOf_unqueue]
    have : (s.record spec).queueOf p = s.queueOf p := by cases p <;> rfl
    rw [this, List.erase_of_not_mem (h.not_mem_queue_next p), ite_self]
  refine put_new_leads (t := { t with state := .cancelled }) h ?_ rfl rfl (by simp)
    (by simp [finish, record, put, count]) (by simp [finish, record, put, count]) ?_
    (fun p => queue p ▸ h.nodup_queue p)
  · intro i
    simp [finish, t]
    grind
  · intro i p
    rw [queue]
    split
    next e => simpa [e, t] using h.not_mem_queue_next p
    next => rfl

/-- Cancelling a task that was submitted too late is all that is done to it. -/
theorem cancel_record_eq (spec : TaskSpec) (reason : CancelReason) :
    (cancel reason s.nextTask (s.record spec) : Result α) =
      andThen (((s.record spec).unqueue { id := s.nextTask, spec }).finish
        { id := s.nextTask, spec }
          .cancelled,
        [.reject s.nextTask (.cancelled reason),
          note "cancel" { id := s.nextTask, spec } [("reason", .text reason.word)]])
        checkIdle := by
  let t : Task := { id := s.nextTask, spec }
  have ht : (s.record spec).task? s.nextTask = some t := by simp [t]
  have hf : (((s.record spec).unqueue t).finish t .cancelled).task? s.nextTask =
      some { t with state := .cancelled } := by simp [finish, t]
  have fired : fireToken reason s.nextTask (((s.record spec).unqueue t).finish t .cancelled) =
      ((((s.record spec).unqueue t).finish t .cancelled, []) : Result α) := by
    simp [fireToken, hf, t]
  unfold cancel
  simp only [ht]
  rw [if_neg (by simp [t, TaskState.isTerminal]), fired]
  rfl

/-- A task that is submitted too late is cancelled at once. -/
theorem record_cancel_leads (h : s.Sound) (spec : TaskSpec) (reason : CancelReason) :
    Leads s (cancel reason s.nextTask (s.record spec) : Result α).1
      (begins (cancel reason s.nextTask (s.record spec) : Result α).2) := by
  rw [cancel_record_eq]
  refine Leads.andThen ?_ fun h' => checkIdle_leads h'
  simpa [SchedulerEffect.begun?, note] using record_finish_leads h spec

theorem submit_leads (spec : TaskSpec) (reason : Option CancelReason) (h : s.Sound) :
    Leads s (submit limits spec reason s : Result α).1
      (begins (submit limits spec reason s : Result α).2) := by
  unfold submit
  simp only
  split
  · exact record_cancel_leads h spec .disposed
  · refine Leads.andThen (Leads.andThen ?_ fun h' => ?_) fun h' => pump_leads h'
    · exact record_enqueue_leads h spec
    · split
      · exact cancel_leads _ _ h'
      · exact .refl h'

theorem nextTask_cancel (reason : CancelReason) (id : Nat) (s : Scheduler) :
    (cancel reason id s : Result α).1.nextTask = s.nextTask := by
  have idle (s : Scheduler) : (checkIdle s : Result α).1.nextTask = s.nextTask := by
    unfold checkIdle
    split <;> rfl
  have fired (s : Scheduler) : (fireToken reason id s : Result α).1.nextTask = s.nextTask := by
    unfold fireToken
    split
    · split <;> rfl
    · rfl
  unfold cancel
  split
  · rfl
  · split
    · rfl
    · simp [andThen, idle, fired, finish, count, put]

theorem nextTask_lt_submit (spec : TaskSpec) (reason : Option CancelReason) (h : s.Sound) :
    s.nextTask < (submit limits spec reason s : Result α).1.nextTask := by
  unfold submit
  dsimp only
  split
  · rw [nextTask_cancel]
    exact Nat.lt_succ_self _
  · have queued := (record_enqueue_leads h spec).sound
    have more : ((s.record spec).enqueue { id := s.nextTask, spec }).nextTask = s.nextTask + 1 := by
      rw [nextTask_enqueue]
      rfl
    have le {s' : Scheduler} {begun}
        (leads : Leads ((s.record spec).enqueue { id := s.nextTask, spec }) s' begun) :
        s.nextTask < (pump limits s' : Result α).1.nextTask := by
      have started : Leads s' (pump limits s' : Result α).1 _ := pump_leads leads.sound
      have := Nat.le_trans leads.next_le started.next_le
      omega
    cases reason with
    | some r => exact le (cancel_leads (α := α) r s.nextTask queued)
    | none => exact le (.refl queued)

/-! ## Documents that change -/

theorem declare_sound (read : List ReadEntry) (scope : ReadScope) (h : s.Sound) :
    (s.declare id read scope).Sound := by
  unfold declare
  split
  next t ht =>
    split
    · obtain rfl := h.id_eq ht
      exact h.replace (replaces_put s { t with readSet := some read, readScope := scope }) ht rfl
        (fun p => queueOf_put s _ p) rfl rfl rfl rfl fun l => by
          exact h.unfired (t := t) ht ⟨l.1, l.2⟩
    · exact h
  next => exact h

/-- What an attempt says it has read is noted while it is under way, and nothing else changes. -/
theorem task?_declare (read : List ReadEntry) (scope : ReadScope) (h : s.Sound) (i : Nat) :
    (s.declare id read scope).task? i =
      if i = id then (s.task? id).map fun t =>
        if t.attempt.isSome then { t with readSet := some read, readScope := scope } else t
      else s.task? i := by
  unfold declare
  cases ht : s.task? id with
  | none => grind
  | some t =>
    obtain rfl := h.id_eq ht
    by_cases ha : t.attempt.isSome <;> simp only [ha] <;> grind [task?_put]

theorem isBusy_declare (read : List ReadEntry) (scope : ReadScope) (h : s.Sound) (i : Nat) :
    (s.declare id read scope).IsBusy i ↔ s.IsBusy i := by
  unfold IsBusy
  rw [task?_declare read scope h]
  split
  next e =>
    subst e
    cases s.task? i <;> grind
  next => rfl

/-- The task with the document that has made its attempt stale; the first one counts. -/
def markStale (uri : Uri) (t : Task) : Task :=
  { t with supersededBy := t.supersededBy.orElse fun _ => some uri }

theorem not_isLive_markStale (uri : Uri) (t : Task) : ¬ (markStale uri t).IsLive := by
  rintro ⟨-, none⟩
  cases hs : t.supersededBy <;> simp [markStale, hs] at none

theorem put_markStale_leads (uri : Uri) (h : s.Sound) (ht : s.task? t.id = some t) :
    Leads s (s.put (markStale uri t)) [] :=
  .of_replace (h.replace (replaces_put s _) ht rfl (fun p => queueOf_put s _ p) rfl rfl rfl rfl
      fun l => absurd l (not_isLive_markStale uri t))
    (replaces_put s _) ht rfl rfl (fun l => absurd l (not_isLive_markStale uri t)) id

theorem not_isLive_of_put_markStale {uri : Uri} {u : Task}
    (hu : (s.put (markStale uri t)).task? t.id = some u) : ¬ u.IsLive := by
  obtain rfl : markStale uri t = u := by simpa [markStale] using hu
  exact not_isLive_markStale uri t

/-- A running task that depends on a document is stale when the document changes. -/
theorem invalidateRunning_leads (e : StoreEvent) (id : Nat) (h : s.Sound) :
    Leads s (invalidateRunning e id s : Result α).1
      (begins (invalidateRunning e id s : Result α).2) := by
  unfold invalidateRunning
  split
  next => exact .refl h
  next t ht =>
    split
    · exact .refl h
    · split
      · exact cancel_leads _ _ h
      · obtain rfl := h.id_eq ht
        have marked := put_markStale_leads e.uri h ht
        exact marked.trans (fireToken_leads (α := α) .superseded marked.sound
          fun _ hu => not_isLive_of_put_markStale hu)

theorem closeQueued_leads (uri : Uri) (id : Nat) (h : s.Sound) :
    Leads s (closeQueued uri id s : Result α).1 (begins (closeQueued uri id s : Result α).2) := by
  unfold closeQueued
  split
  · split
    · exact cancel_leads _ _ h
    · exact .refl h
  · exact .refl h

@[simp] theorem begins_fireToken (reason : CancelReason) (id : Nat) (s : Scheduler) :
    begins (fireToken reason id s : Result α).2 = [] := by
  unfold fireToken
  split
  · split <;> rfl
  · rfl

@[simp] theorem begins_checkIdle (s : Scheduler) : begins (checkIdle s : Result α).2 = [] := by
  unfold checkIdle
  split <;> rfl

@[simp] theorem begins_cancel (reason : CancelReason) (id : Nat) (s : Scheduler) :
    begins (cancel reason id s : Result α).2 = [] := by
  unfold cancel
  split
  · rfl
  · split
    · rfl
    · simp [andThen, SchedulerEffect.begun?, note]

@[simp] theorem begins_invalidateRunning (e : StoreEvent) (id : Nat) (s : Scheduler) :
    begins (invalidateRunning e id s : Result α).2 = [] := by
  unfold invalidateRunning
  split
  · rfl
  · split
    · rfl
    · split
      · simp
      · simp [andThen, SchedulerEffect.begun?, note]

theorem not_isLive_of_cancel {reason : CancelReason} (h : s.Sound)
    (ht : (cancel reason id s : Result α).1.task? id = some t) : ¬ t.IsLive := by
  have ended := cancel_leads (α := α) reason id h
  cases hs : s.task? id with
  | none => exact ended.not_isLive (by simp) (by simp [hs]) ht
  | some u =>
    by_cases terminal : u.state.isTerminal
    · refine ended.not_isLive (by simp) ?_ ht
      intro v hv live
      obtain rfl : u = v := by simpa [hs] using hv
      simp [live.1, TaskState.isTerminal] at terminal
    · obtain rfl := h.id_eq hs
      have closed : Leads s ((s.unqueue u).finish u .cancelled) [] := unqueue_finish_leads h hs rfl
      have stale : ∀ v, ((s.unqueue u).finish u .cancelled).task? u.id = some v → ¬ v.IsLive := by
        intro v hv live
        obtain rfl : { u with state := .cancelled } = v := by simpa [finish] using hv
        simp [Task.IsLive] at live
      have fired := fireToken_leads (α := α) reason closed.sound stale
      have idle := checkIdle_leads (α := α) fired.sound
      simp only [cancel, hs, terminal] at ht
      exact (fired.trans idle).not_isLive (by simp) stale ht

/-- What is live after an event has met the task does not depend on the event. -/
theorem not_isAffectedBy_of_invalidateRunning (e : StoreEvent) (h : s.Sound)
    (ht : (invalidateRunning e id s : Result α).1.task? id = some t) (live : t.IsLive) :
    t.isAffectedBy e = false := by
  unfold invalidateRunning at ht
  split at ht
  next none => simp [none] at ht
  next u hu =>
    split at ht
    next untouched =>
      obtain rfl : u = t := by simpa [hu] using ht
      simpa [live.1] using untouched
    next =>
      split at ht
      · exact absurd live (not_isLive_of_cancel h ht)
      · obtain rfl := h.id_eq hu
        have marked := put_markStale_leads e.uri h hu
        have stale := fun v (hv : (s.put (markStale e.uri u)).task? u.id = some v) =>
          not_isLive_of_put_markStale hv
        have fired := fireToken_leads (α := α) .superseded marked.sound stale
        exact absurd live (fired.not_isLive (by simp) stale ht)

theorem not_isAffectedBy_of_forEach (e : StoreEvent) (items : List Nat) (h : s.Sound)
    (mem : id ∈ items)
    (ht : (forEach (invalidateRunning e) items s : Result α).1.task? id = some t)
    (live : t.IsLive) : t.isAffectedBy e = false := by
  induction items generalizing s with
  | nil => simp at mem
  | cons b rest ih =>
    have first := invalidateRunning_leads (α := α) e b h
    rw [forEach_cons] at ht
    rcases List.mem_cons.1 mem with rfl | later
    · have rest_leads :=
        forEach_leads (α := α) (fun id _ h' => invalidateRunning_leads e id h') rest
        first.sound
      obtain ⟨new, -⟩ | ⟨u, hu, live', same⟩ := rest_leads.live ht live
      · simp [begins_forEach] at new
      · rw [same.isAffectedBy_eq]
        exact not_isAffectedBy_of_invalidateRunning e h hu live'
    · exact ih first.sound later ht

@[simp] theorem begins_closeQueued (uri : Uri) (id : Nat) (s : Scheduler) :
    begins (closeQueued uri id s : Result α).2 = [] := by
  unfold closeQueued
  split
  · split
    · simp
    · rfl
  · rfl

/-- Once the running tasks have met an event, the queued ones may leave their queues. -/
theorem forEach_running_leads (e : StoreEvent) (h : s.Sound) :
    Leads (forEach (invalidateRunning e) s.running s : Result α).1 (invalidate e s : Result α).1
      [] := by
  have running := forEach_leads (α := α) (fun id _ h' => invalidateRunning_leads e id h') s.running
      h
  have queued (items) {s} (h : Sound s) :
      Leads s (forEach (closeQueued e.uri) items s : Result α).1 [] := by
    have := forEach_leads (α := α) (fun id _ h' => closeQueued_leads e.uri id h') items h
    rwa [begins_forEach (by simp)] at this
  unfold invalidate
  simp only
  split
  · have interactive := queued (forEach (invalidateRunning e) s.running s : Result α).1.interactive
      running.sound
    exact interactive.trans (queued _ interactive.sound)
  · exact .refl running.sound

theorem invalidate_leads (e : StoreEvent) (h : s.Sound) :
    Leads s (invalidate e s : Result α).1 [] := by
  have running := forEach_leads (α := α) (fun id _ h' => invalidateRunning_leads e id h') s.running
      h
  rw [begins_forEach (by simp)] at running
  exact running.trans (forEach_running_leads e h)

@[simp] theorem begins_invalidate (e : StoreEvent) (s : Scheduler) :
    begins (invalidate e s : Result α).2 = [] := by
  unfold invalidate
  simp only
  split <;> simp [andThen, begins_forEach]

theorem live_of_invalidate (e : StoreEvent) (h : s.Sound)
    (ht : (invalidate e s : Result α).1.task? id = some t') (live : t'.IsLive) :
    ∃ t, s.task? id = some t ∧ t.IsLive ∧ t.Continues t' ∧ t.isAffectedBy e = false := by
  obtain ⟨new, -⟩ | ⟨u, hu, live_u, same_u⟩ := (forEach_running_leads e h).live ht live
  · simp at new
  have running := forEach_leads (α := α) (fun id _ h' => invalidateRunning_leads e id h') s.running
      h
  obtain ⟨new, -⟩ | ⟨t, ht, live_t, same_t⟩ := running.live hu live_u
  · simp [begins_forEach] at new
  have mem : id ∈ s.running := by
    rw [h.mem_running, isBusy_iff ht]
    exact h.busy_of_running ht live_t.1
  refine ⟨t, ht, live_t, same_t.trans same_u, ?_⟩
  rw [← same_t.isAffectedBy_eq]
  exact not_isAffectedBy_of_forEach e s.running h mem hu live_u

/-! ## The end of an attempt -/

/-- A task whose attempt has ended is over, or it waits in front of the interactive queue. -/
theorem Sound.endAttempt (h : s.Sound) (r : s.Replaces t' s') (ht : s.task? t'.id = some t)
    (busy : t.attempt.isSome) (next : s'.nextTask = s.nextTask)
    (running : s'.running = s.running.erase t'.id) (attempt : t'.attempt = none)
    (stops : t'.state ≠ .running)
    (queues : ∀ p, s'.queueOf p =
      if t'.state = .queued ∧ t'.spec.priority = p then t'.id :: s.queueOf p else s.queueOf p) :
    s'.Sound := by
  have outside (p) : t'.id ∉ s.queueOf p := by
    rw [h.mem_queue, ht]
    rintro ⟨u, hu, queued, -⟩
    obtain rfl : t = u := by simpa using hu
    simp [h.idle_of_queued ht queued] at busy
  refine h.write r (next ▸ h.lt_next ht) (Nat.le_of_eq next.symm) ?_ ?_ ?_
    (running ▸ h.nodup_running.erase _) (fun _ => attempt) (fun e => absurd e stops)
    (fun l => absurd l.1 stops)
  · intro i p
    rw [queues]
    by_cases e : i = t'.id
    · subst e
      split <;> simp_all
    · split <;> simp [e]
  · intro p
    rw [queues]
    split
    · exact List.nodup_cons.2 ⟨outside p, h.nodup_queue p⟩
    · exact h.nodup_queue p
  · intro i
    rw [running, h.nodup_running.mem_erase_iff]
    by_cases e : i = t'.id <;> simp [e, attempt]

/-- The task `t` goes over into `state`, which is not running, and into its queue if it is to be
tried again. -/
structure Stops (s : Scheduler) (t : Task) (state : TaskState) (r : Result α) : Prop where
  stops : state ≠ .running
  replaces : s.Replaces { t with state } r.1
  nextTask : r.1.nextTask = s.nextTask
  running : r.1.running = s.running
  queues : ∀ p, r.1.queueOf p =
    if state = .queued ∧ t.spec.priority = p then t.id :: s.queueOf p else s.queueOf p
  begins : begins r.2 = []

theorem finish_stops (s : Scheduler) (t : Task) {state : TaskState} (ended : state.isTerminal)
    (effects : List (SchedulerEffect α)) (none : begins effects = []) :
    Stops s t state (s.finish t state, effects) := by
  have not_queued : state ≠ .queued := by
    rintro rfl
    simp [TaskState.isTerminal] at ended
  refine ⟨?_, replaces_put s _, rfl, rfl, ?_, none⟩
  · rintro rfl
    simp [TaskState.isTerminal] at ended
  · intro p
    simp [finish, not_queued]

/-- The task `t`, whose attempt has come back, waits in front of its queue to be tried again. -/
def retry (s : Scheduler) (t : Task) : Scheduler :=
  let s := (s.put { t with state := .queued }).count fun c => { c with restarts := c.restarts + 1 }
  { s with interactive := t.id :: s.interactive }

theorem retry_stops (s : Scheduler) (t : Task) (interactive : t.spec.priority = .interactive)
    (effects : List (SchedulerEffect α)) (none : begins effects = []) :
    Stops s t .queued (s.retry t, effects) := by
  refine ⟨by simp, replaces_put s _, rfl, rfl, ?_, none⟩
  intro p
  cases p <;> simp [retry, queueOf, interactive, count, put]

theorem supersede_stops (limits : Limits) (s : Scheduler) (t : Task) (uri : Uri) :
    ∃ state, Stops s t state (supersede limits t uri s : Result α) ∧
      ∀ i v, .resolve i v ∉ (supersede limits t uri s : Result α).2 := by
  unfold supersede
  split
  next again =>
    exact ⟨.queued, retry_stops s t again.1 _
      (by simp [SchedulerEffect.begun?, note]), by simp [note]⟩
  next =>
    refine ⟨.superseded, finish_stops s t rfl _ ?_, ?_⟩
    · split <;> simp [SchedulerEffect.begun?]
    · split <;> simp

/-- A value is delivered only when nothing has made the attempt stale and the documents it has read
are where they were. -/
theorem conclude_stops (limits : Limits) (versionOf : Uri → Option Int) (outcome : Except Failure α)
    (s : Scheduler) (t : Task) :
    ∃ state, Stops s t state (conclude limits versionOf t outcome s) ∧
      ∀ i v, .resolve i v ∈ (conclude limits versionOf t outcome s).2 →
        i = t.id ∧ t.supersededBy = none ∧ outcome = .ok v ∧ t.staleUri? versionOf = none := by
  unfold conclude
  split
  next uri _ =>
    obtain ⟨state, stops, silent⟩ := supersede_stops (α := α) limits s t uri
    exact ⟨state, stops, fun i v hv => absurd hv (silent i v)⟩
  next value live =>
    split
    next current =>
      refine ⟨.completed, finish_stops s t rfl _ (by simp [SchedulerEffect.begun?]), ?_⟩
      intro i v hv
      simp_all
    next uri _ =>
      obtain ⟨state, stops, silent⟩ := supersede_stops (α := α) limits s t uri
      refine ⟨state, ⟨stops.stops, stops.replaces, stops.nextTask, stops.running, stops.queues, ?_⟩,
        ?_⟩
      · simpa [andThen, SchedulerEffect.begun?, note] using stops.begins
      · intro i v hv
        exact absurd (by simpa [andThen, note] using hv) (silent i v)
  next => exact ⟨.cancelled, finish_stops s t rfl _ (by simp [SchedulerEffect.begun?]), by simp⟩
  next => exact ⟨.failed, finish_stops s t rfl _ (by simp [SchedulerEffect.begun?]), by simp⟩

/-- What becomes of a task when its attempt comes back, before anything else begins. -/
structure EndsAttempt (versionOf : Uri → Option Int) (outcome : Except Failure α) (t : Task)
    (s : Scheduler) (t' : Task) (s' : Scheduler) (effects : List (SchedulerEffect α)) : Prop where
  replaces : s.Replaces t' s'
  sound : s'.Sound
  nextTask : s'.nextTask = s.nextTask
  id_eq : t'.id = t.id
  spec : t'.spec = t.spec
  idle : t'.attempt = none
  stops : t'.state ≠ .running
  begins : begins effects = []
  /-- A value is delivered only of a live attempt whose documents are where they were. -/
  resolves : ∀ {i v}, .resolve i v ∈ effects → i = t.id ∧ t.IsLive ∧ outcome = .ok v ∧
    t.staleUri? versionOf = none

def withoutAttempt (s : Scheduler) (t : Task) : Scheduler × Task :=
  let t' := { t with holdsSlot := false, isTimed := false, attempt := none }
  ({ s.put t' with
      slotsInUse := if t.holdsSlot then s.slotsInUse - 1 else s.slotsInUse
      running := s.running.erase t.id }, t')

/-- A task whose attempt has come back is over or tried again, and the tables still fit. -/
theorem Stops.sound {state : TaskState} {r : Result α} (h : s.Sound) (ht : s.task? t.id = some t)
    (busy : t.attempt.isSome)
    (stops : Stops (s.withoutAttempt t).1 (s.withoutAttempt t).2 state r) :
    s.Replaces { (s.withoutAttempt t).2 with state } r.1 ∧ r.1.Sound := by
  have hr : s.Replaces { (s.withoutAttempt t).2 with state } r.1 := by
    intro i
    have old : (s.withoutAttempt t).1.task? i = _ := replaces_put s (s.withoutAttempt t).2 i
    rw [stops.replaces i, old]
    split <;> rfl
  have hqueue (p) : (s.withoutAttempt t).1.queueOf p = s.queueOf p := by cases p <;> rfl
  refine ⟨hr, h.endAttempt hr ht busy stops.nextTask stops.running rfl stops.stops ?_⟩
  intro p
  rw [stops.queues, hqueue]

/-- A task that is over stays so when its attempt comes back. -/
theorem withoutAttempt_sound (h : s.Sound) (ht : s.task? t.id = some t) (busy : t.attempt.isSome)
    (ended : t.state.isTerminal) : (s.withoutAttempt t).1.Sound := by
  have not_queued : t.state ≠ .queued := by
    intro e
    simp [e, TaskState.isTerminal] at ended
  have not_running : t.state ≠ .running := by
    intro e
    simp [e, TaskState.isTerminal] at ended
  refine h.endAttempt (replaces_put s (s.withoutAttempt t).2) ht busy rfl rfl rfl not_running ?_
  intro p
  rw [if_neg fun c => not_queued c.1]
  cases p <;> rfl

/-- The attempt is over before it is decided what becomes of its task, and then others start. -/
theorem settle_eq_andThen (versionOf : Uri → Option Int) (outcome : Except Failure α)
    (ht : s.task? t.id = some t) :
    settle limits versionOf t.id outcome s =
      andThen (andThen ((s.withoutAttempt t).1, if t.isTimed then [.stopTimer t.id] else [])
        fun s' =>
        if t.state.isTerminal then (s', [])
        else conclude limits versionOf (s.withoutAttempt t).2 outcome s') (pump limits) := by
  simp only [settle, ht]
  rfl

theorem settle_eq (versionOf : Uri → Option Int) (outcome : Except Failure α) (h : s.Sound)
    (ht : s.task? t.id = some t) (busy : t.attempt.isSome) :
    ∃ t' s' effects, EndsAttempt versionOf outcome t s t' s' effects ∧
      settle limits versionOf t.id outcome s = andThen (s', effects) (pump limits) := by
  let s₀ := (s.withoutAttempt t).1
  let t₀ := (s.withoutAttempt t).2
  let released : List (SchedulerEffect α) := if t.isTimed then [.stopTimer t.id] else []
  have hbegins : begins released = [] := by
    simp only [released]
    split <;> rfl
  have hresolve (i v) : .resolve i v ∉ released := by
    simp only [released]
    split <;> simp
  rw [settle_eq_andThen versionOf outcome ht]
  by_cases ended : t.state.isTerminal
  · have not_running : t.state ≠ .running := by
      intro e
      simp [e, TaskState.isTerminal] at ended
    refine ⟨t₀, s₀, released,
      ⟨replaces_put s t₀, withoutAttempt_sound h ht busy ended, rfl, rfl, rfl,
      rfl, not_running, hbegins, ?_⟩, ?_⟩
    · exact fun hv => absurd hv (hresolve _ _)
    · simp [ended, andThen, s₀, released]
  · have runs : t.state = .running := by
      cases e : t.state <;> simp_all [TaskState.isTerminal]
      exact absurd (h.idle_of_queued ht e) (by intro none; simp [none] at busy)
    obtain ⟨state, stops, resolves⟩ := conclude_stops limits versionOf outcome s₀ t₀
    obtain ⟨hr, sound⟩ := stops.sound h ht busy
    refine ⟨{ t₀ with state }, _, released ++ (conclude limits versionOf t₀ outcome s₀).2,
      ⟨hr, sound, stops.nextTask, rfl, rfl, rfl, stops.stops, ?_, ?_⟩, ?_⟩
    · rw [begins_append, hbegins, stops.begins, List.nil_append]
    · intro i v hv
      rcases List.mem_append.1 hv with hv | hv
      · exact absurd hv (hresolve i v)
      · obtain ⟨rfl, live, ok, current⟩ := resolves i v hv
        exact ⟨rfl, ⟨runs, live⟩, ok, current⟩
    · simp [ended, andThen, s₀, t₀, released]

/-- Starting tasks delivers nothing. -/
theorem resolve_notMem_pump {i : Nat} {v : α} (s : Scheduler) :
    .resolve i v ∉ (pump limits s : Result α).2 := by
  have started (n : Nat) (s : Scheduler) : .resolve i v ∉ (pumpAtMost limits n s : Result α).2 := by
    induction n generalizing s with
    | zero => simp [pumpAtMost]
    | succ n ih =>
      unfold pumpAtMost
      split
      · split
        next id s₁ _ =>
          have begins : .resolve i v ∉ (start limits id s₁ : Result α).2 := by
            unfold start
            split
            · simp
            · dsimp only
              split <;> simp [note]
          simp [andThen, begins, ih]
        next => simp
      · simp
  unfold pump checkIdle
  simp only [andThen, List.mem_append, started, false_or]
  split <;> simp

/-- A value is delivered only at the end of a live attempt whose documents are where they were. -/
theorem resolve_settle (versionOf : Uri → Option Int) (outcome : Except Failure α) (h : s.Sound)
    (busy : s.IsBusy id) {i : Nat} {v : α}
    (mem : .resolve i v ∈ (settle limits versionOf id outcome s).2) :
    ∃ t, s.task? i = some t ∧ i = id ∧ t.IsLive ∧ outcome = .ok v ∧
    t.staleUri? versionOf = none := by
  obtain ⟨t, ht, attempt⟩ := busy
  obtain rfl := h.id_eq ht
  obtain ⟨t', s', effects, ends, (eq : settle limits _ _ _ _ = _)⟩ :=
    settle_eq versionOf outcome h ht attempt
  rw [eq] at mem
  rcases List.mem_append.1 mem with mem | mem
  · obtain ⟨rfl, live, ok, current⟩ := ends.resolves mem
    exact ⟨t, ht, rfl, live, ok, current⟩
  · exact absurd mem (resolve_notMem_pump _)

/-! ## Other operations -/

theorem demote_leads (id : Nat) (h : s.Sound) :
    Leads s (demote limits id s : Result α).1 (begins (demote limits id s : Result α).2) := by
  have write {t t' : Task} {s₁ : Scheduler} (ht : s.task? t.id = some t) (r : s.Replaces t' s₁)
      (eq : t' = { t with isTimed := t'.isTimed, holdsSlot := t'.holdsSlot })
      (queues : ∀ p, s₁.queueOf p = s.queueOf p) (running : s₁.running = s.running)
      (next : s₁.nextTask = s.nextTask) : Leads s s₁ [] := by
    have ht' : s.task? t'.id = some t := by rw [eq]; exact ht
    have live (l : t'.IsLive) : t.IsLive := by rw [eq] at l; exact l
    have attempt : t'.attempt = t.attempt := by rw [eq]
    refine .of_replace (h.replace r ht' next queues running (by rw [eq]) (by rw [eq])
      (by rw [attempt]) fun l => attempt ▸ h.unfired ht (live l)) r ht' next (by rw [eq]) ?_
      fun b => attempt ▸ b
    exact fun l => ⟨live l, by rw [eq]; exact ⟨rfl, rfl, rfl, rfl⟩⟩
  unfold demote
  split
  next => exact .refl h
  next t ht =>
    obtain rfl := h.id_eq ht
    simp only
    split
    · refine Leads.andThen ?_ fun h' => pump_leads h'
      let t' : Task := { t with isTimed := false, holdsSlot := false }
      exact write ht (fun i => task?_put _ t' i) rfl (fun p => by cases p <;> rfl) rfl rfl
    · let t' : Task := { t with isTimed := false }
      exact write ht (replaces_put s t') rfl (fun p => queueOf_put s _ p) rfl rfl

theorem idle_leads (waiter : Nat) (h : s.Sound) :
    Leads s (idle waiter s : Result α).1 (begins (idle waiter s : Result α).2) := by
  unfold idle
  split
  · exact .refl h
  · exact .of_tasks (h.congr rfl rfl rfl rfl rfl) rfl rfl

end Quill.Scheduler
