import Quill.Scheduler.Basic

/-!
# What an operation of the scheduler may do to a task

The tables of a scheduler fit together: the queues hold the tasks that are queued, the list of
running tasks holds those with an attempt under way, and the token of an attempt that nothing has
made stale has not fired.

Whatever the scheduler does, a live attempt afterwards is one that was live before and has read what
it had read, or one that has just begun and has read nothing. Only idle tasks begin an attempt, and
each of them at most once.

## Main definitions

* `Task.IsLive` — the attempt runs, and nothing that it read has changed.
* `Scheduler.IsBusy` — an attempt of the task is under way.
* `Scheduler.Sound` — the tables fit together.
* `Scheduler.Replaces` — one task was written, the others are as they were; `Sound.write` says when
  the tables still fit.
* `SchedulerEffect.begun?`, `Scheduler.begins` — the attempts that begin.
* `Task.Continues` — the same attempt of the same task, which has read the same documents.
* `Scheduler.Leads` — one scheduler may become another while these attempts begin.
-/

namespace Quill

/-- The attempt of the task runs, and nothing has made it stale. -/
def Task.IsLive (t : Task) : Prop := t.state = .running ∧ t.supersededBy = none

namespace Scheduler

variable {s s' : Scheduler} {id : Nat} {t t' : Task}

def queueOf (s : Scheduler) : Priority → List Nat
  | .interactive => s.interactive
  | .background => s.background

/-- An attempt of the task is under way; it may have been cancelled. -/
def IsBusy (s : Scheduler) (id : Nat) : Prop := ∃ t, s.task? id = some t ∧ t.attempt.isSome

/-- The tables of the scheduler fit together. -/
structure Sound (s : Scheduler) : Prop where
  id_eq : ∀ {id t}, s.task? id = some t → t.id = id
  lt_next : ∀ {id t}, s.task? id = some t → id < s.nextTask
  mem_queue : ∀ {id p}, id ∈ s.queueOf p ↔
    ∃ t, s.task? id = some t ∧ t.state = .queued ∧ t.spec.priority = p
  nodup_queue : ∀ p, (s.queueOf p).Nodup
  mem_running : ∀ {id}, id ∈ s.running ↔ s.IsBusy id
  nodup_running : s.running.Nodup
  idle_of_queued : ∀ {id t}, s.task? id = some t → t.state = .queued → t.attempt = none
  busy_of_running : ∀ {id t}, s.task? id = some t → t.state = .running → t.attempt.isSome
  unfired : ∀ {id t}, s.task? id = some t → t.IsLive → t.attempt = some ⟨none⟩

theorem sound_empty : Sound {} := by
  have queue (p : Priority) : queueOf {} p = [] := by cases p <;> rfl
  constructor <;> simp [Scheduler.task?, IsBusy, queue]

/-- The scheduler `s'` has the task `t'` where `s` has whatever it has, and all other tasks
alike. -/
def Replaces (s : Scheduler) (t' : Task) (s' : Scheduler) : Prop :=
  ∀ i, s'.task? i = if i = t'.id then some t' else s.task? i

@[simp] theorem task?_put (s : Scheduler) (t : Task) (i : Nat) :
    (s.put t).task? i = if i = t.id then some t else s.task? i := by
  simp [put, Scheduler.task?, Dict.get?_put]

theorem replaces_put (s : Scheduler) (t : Task) : s.Replaces t (s.put t) := task?_put s t

@[simp] theorem task?_count (s : Scheduler) (f : SchedulerCounters → SchedulerCounters) (i : Nat) :
    (s.count f).task? i = s.task? i := rfl

@[simp] theorem queueOf_put (s : Scheduler) (t : Task) (p : Priority) :
    (s.put t).queueOf p = s.queueOf p := by cases p <;> rfl

@[simp] theorem queueOf_count (s : Scheduler) (f : SchedulerCounters → SchedulerCounters)
    (p : Priority) : (s.count f).queueOf p = s.queueOf p := by cases p <;> rfl

theorem isBusy_iff (h : s.task? id = some t) : s.IsBusy id ↔ t.attempt.isSome := by
  simp [IsBusy, h]

theorem Replaces.isBusy_iff (r : s.Replaces t' s') {i : Nat} (h : i ≠ t'.id) :
    s'.IsBusy i ↔ s.IsBusy i := by
  simp [IsBusy, r i, h]

theorem Replaces.isBusy_self_iff (r : s.Replaces t' s') : s'.IsBusy t'.id ↔ t'.attempt.isSome := by
  simp [IsBusy, r t'.id]

/-- A task may be written when the queues and the list of running tasks follow it. -/
theorem Sound.write (h : s.Sound) (r : s.Replaces t' s') (lt : t'.id < s'.nextTask)
    (le : s.nextTask ≤ s'.nextTask)
    (queues : ∀ i p, i ∈ s'.queueOf p ↔
      if i = t'.id then t'.state = .queued ∧ t'.spec.priority = p else i ∈ s.queueOf p)
    (nodup : ∀ p, (s'.queueOf p).Nodup)
    (running : ∀ i, i ∈ s'.running ↔ if i = t'.id then t'.attempt.isSome = true else i ∈ s.running)
    (nodup_running : s'.running.Nodup)
    (idle : t'.state = .queued → t'.attempt = none)
    (busy : t'.state = .running → t'.attempt.isSome)
    (unfired : t'.IsLive → t'.attempt = some ⟨none⟩) : s'.Sound := by
  have old {i u} (hu : s'.task? i = some u) : i = t'.id ∧ t' = u ∨ i ≠ t'.id ∧
      s.task? i = some u := by
    rw [r i] at hu
    split at hu <;> simp_all
  refine ⟨?_, ?_, ?_, nodup, ?_, nodup_running, ?_, ?_, ?_⟩
  · intro i u hu
    obtain ⟨rfl, rfl⟩ | ⟨-, hu⟩ := old hu
    · rfl
    · exact h.id_eq hu
  · intro i u hu
    obtain ⟨rfl, rfl⟩ | ⟨-, hu⟩ := old hu
    · exact lt
    · exact Nat.lt_of_lt_of_le (h.lt_next hu) le
  · intro i p
    rw [queues, r i]
    split
    · simp
    · exact h.mem_queue
  · intro i
    rw [running]
    split
    next e => rw [e, r.isBusy_self_iff]
    next e => rw [r.isBusy_iff e, h.mem_running]
  · intro i u hu
    obtain ⟨rfl, rfl⟩ | ⟨-, hu⟩ := old hu
    · exact idle
    · exact h.idle_of_queued hu
  · intro i u hu
    obtain ⟨rfl, rfl⟩ | ⟨-, hu⟩ := old hu
    · exact busy
    · exact h.busy_of_running hu
  · intro i u hu
    obtain ⟨rfl, rfl⟩ | ⟨-, hu⟩ := old hu
    · exact unfired
    · exact h.unfired hu

/-- A task may be written over by one in the same place: queued or running as it was, with an
attempt as it was. -/
theorem Sound.replace (h : s.Sound) (r : s.Replaces t' s') (ht : s.task? t'.id = some t)
    (next : s'.nextTask = s.nextTask) (queues : ∀ p, s'.queueOf p = s.queueOf p)
    (running : s'.running = s.running) (state : t'.state = t.state) (spec : t'.spec = t.spec)
    (attempt : t'.attempt.isSome = t.attempt.isSome)
    (unfired : t'.IsLive → t'.attempt = some ⟨none⟩) : s'.Sound := by
  refine h.write r (next ▸ h.lt_next ht) (Nat.le_of_eq next.symm) ?_
    (fun p => queues p ▸ h.nodup_queue p) ?_
    (running ▸ h.nodup_running) ?_ ?_ unfired
  · intro i p
    rw [queues]
    split
    next e => rw [h.mem_queue, e, ht, state, spec]; simp
    next => rfl
  · intro i
    rw [running]
    split
    next e => rw [h.mem_running, e, isBusy_iff ht, attempt]
    next => rfl
  · intro queued
    simpa [h.idle_of_queued ht (state ▸ queued)] using attempt
  · intro runs
    exact attempt ▸ h.busy_of_running ht (state ▸ runs)

/-- A task that is over has left its queue; its attempt, if one is under way, is as it was. -/
theorem Sound.close (h : s.Sound) (r : s.Replaces t' s') (ht : s.task? t'.id = some t)
    (next : s'.nextTask = s.nextTask)
    (queues : ∀ p, s'.queueOf p = if p = t.spec.priority then (s.queueOf p).erase t'.id
      else s.queueOf p)
    (running : s'.running = s.running) (ended : t'.state.isTerminal)
    (attempt : t'.attempt.isSome = t.attempt.isSome) : s'.Sound := by
  have not_queued : t'.state ≠ .queued := by
    intro e
    simp [e, TaskState.isTerminal] at ended
  have not_running : t'.state ≠ .running := by
    intro e
    simp [e, TaskState.isTerminal] at ended
  refine h.write r (next ▸ h.lt_next ht) (Nat.le_of_eq next.symm) ?_ ?_ ?_
    (running ▸ h.nodup_running)
    (fun e => absurd e not_queued) (fun e => absurd e not_running) (fun l => absurd l.1 not_running)
  · intro i p
    rw [queues]
    by_cases e : i = t'.id
    · simp only [e, if_true, not_queued, false_and, iff_false]
      split
      · exact fun m => ((h.nodup_queue _).mem_erase_iff.1 m).1 rfl
      next hp =>
        rw [h.mem_queue, ht]
        simpa using fun _ => Ne.symm hp
    · simp only [e, if_false]
      split
      · exact List.mem_erase_of_ne e
      · rfl
  · intro p
    rw [queues]
    split
    · exact (h.nodup_queue p).erase _
    · exact h.nodup_queue p
  · intro i
    rw [running]
    split
    next e => rw [h.mem_running, e, isBusy_iff ht, attempt]
    next => rfl

end Scheduler

/-! ## What operations do to tasks -/

variable {α : Type}

def SchedulerEffect.begun? : SchedulerEffect α → Option (Nat × Nat)
  | .begin task attempt => some (task, attempt)
  | _ => none

/-- The record `t'` is about the same attempt as `t`, and that attempt has read the same
documents. -/
structure Task.Continues (t t' : Task) : Prop where
  spec : t'.spec = t.spec
  attempts : t'.attempts = t.attempts
  readSet : t'.readSet = t.readSet
  readScope : t'.readScope = t.readScope

theorem Task.Continues.refl (t : Task) : t.Continues t := ⟨rfl, rfl, rfl, rfl⟩

/-- Whether an event concerns the attempt is seen from what it has read. -/
theorem Task.Continues.isAffectedBy_eq {t t' : Task} (h : t.Continues t') (e : StoreEvent) :
    t'.isAffectedBy e = t.isAffectedBy e := by
  simp [Task.isAffectedBy, h.readSet, h.spec, h.readScope]

theorem Task.Continues.trans {t u v : Task} (h : t.Continues u) (g : u.Continues v) :
    t.Continues v :=
  ⟨g.spec.trans h.spec, g.attempts.trans h.attempts, g.readSet.trans h.readSet,
    g.readScope.trans h.readScope⟩

namespace Scheduler

variable {s s' s'' : Scheduler} {id : Nat} {t t' : Task} {limits : Limits}

def begins (effects : List (SchedulerEffect α)) : List (Nat × Nat) :=
  effects.filterMap SchedulerEffect.begun?

@[simp] theorem begins_nil : begins ([] : List (SchedulerEffect α)) = [] := rfl

@[simp] theorem begins_cons (e : SchedulerEffect α) (rest : List (SchedulerEffect α)) :
    begins (e :: rest) = e.begun?.toList ++ begins rest := by
  unfold begins
  cases h : e.begun? <;> simp [h]

@[simp] theorem begins_append (a b : List (SchedulerEffect α)) :
    begins (a ++ b) = begins a ++ begins b := by simp [begins]

@[simp] theorem mem_begins {effects : List (SchedulerEffect α)} {task n : Nat} :
    (task, n) ∈ begins effects ↔ .begin task n ∈ effects := by
  simp only [begins, List.mem_filterMap]
  constructor
  · rintro ⟨e, he, eq⟩
    cases e <;> simp_all [SchedulerEffect.begun?]
  · exact fun h => ⟨_, h, rfl⟩

/-- The scheduler `s` may become `s'` while the attempts `fresh` begin. -/
structure Leads (s s' : Scheduler) (fresh : List (Nat × Nat)) : Prop where
  sound : s'.Sound
  next_le : s.nextTask ≤ s'.nextTask
  /-- No task is forgotten. -/
  kept : ∀ {id t}, s.task? id = some t → ∃ t', s'.task? id = some t' ∧ t'.spec = t.spec
  live : ∀ {id t'}, s'.task? id = some t' → t'.IsLive →
    ((id, t'.attempts) ∈ fresh ∧ t'.readSet = none) ∨
      ∃ t, s.task? id = some t ∧ t.IsLive ∧ t.Continues t'
  busy : ∀ {id}, s.IsBusy id → s'.IsBusy id
  begun : ∀ {id n}, (id, n) ∈ fresh → ¬ s.IsBusy id ∧ s'.IsBusy id
  nodup : (fresh.map Prod.fst).Nodup

theorem Leads.refl (h : s.Sound) : Leads s s [] where
  sound := h
  next_le := Nat.le_refl _
  kept := fun ht => ⟨_, ht, rfl⟩
  live := fun ht live => .inr ⟨_, ht, live, .refl _⟩
  busy := fun h => h
  begun := by simp
  nodup := by simp

theorem Leads.trans {a b : List (Nat × Nat)} (h : Leads s s' a) (g : Leads s' s'' b) :
    Leads s s'' (a ++ b) where
  sound := g.sound
  next_le := Nat.le_trans h.next_le g.next_le
  kept := by
    intro id t ht
    obtain ⟨u, hu, eq⟩ := h.kept ht
    obtain ⟨v, hv, eq'⟩ := g.kept hu
    exact ⟨v, hv, eq'.trans eq⟩
  live := by
    intro id t' ht' live
    obtain ⟨new, empty⟩ | ⟨u, hu, live', same⟩ := g.live ht' live
    · exact .inl ⟨List.mem_append_right _ new, empty⟩
    obtain ⟨new, empty⟩ | ⟨t, ht, live'', same'⟩ := h.live hu live'
    · exact .inl ⟨List.mem_append_left _ (same.attempts ▸ new), same.readSet.trans empty⟩
    · exact .inr ⟨t, ht, live'', same'.trans same⟩
  busy := fun hb => g.busy (h.busy hb)
  begun := by
    intro id n hn
    rcases List.mem_append.1 hn with m | m
    · exact ⟨(h.begun m).1, g.busy (h.begun m).2⟩
    · exact ⟨fun hb => (g.begun m).1 (h.busy hb), (g.begun m).2⟩
  nodup := by
    rw [List.map_append]
    refine List.nodup_append.2 ⟨h.nodup, g.nodup, ?_⟩
    rintro x hx y hy rfl
    obtain ⟨⟨i, n⟩, ha, rfl⟩ := List.mem_map.1 hx
    obtain ⟨⟨j, m⟩, hb, eq⟩ := List.mem_map.1 hy
    obtain rfl : j = i := eq
    exact (g.begun hb).1 (h.begun ha).2

theorem Leads.andThen {r : Result α} {f : Scheduler → Result α} (h : Leads s r.1 (begins r.2))
    (g : r.1.Sound → Leads r.1 (f r.1).1 (begins (f r.1).2)) :
    Leads s (Scheduler.andThen r f).1 (begins (Scheduler.andThen r f).2) := by
  simpa [Scheduler.andThen] using h.trans (g h.sound)

/-- A task that is not live can only be live again in an attempt that begins. -/
theorem Leads.not_isLive {fresh : List (Nat × Nat)} (h : Leads s s' fresh)
    (hb : ∀ n, (id, n) ∉ fresh) (dead : ∀ t, s.task? id = some t → ¬ t.IsLive)
    (ht : s'.task? id = some t') : ¬ t'.IsLive := by
  intro live
  obtain ⟨new, -⟩ | ⟨t, ht, l, -⟩ := h.live ht live
  · exact hb _ new
  · exact dead t ht l

/-- The fields that the tables are made of decide whether they fit. -/
theorem Sound.congr (h : s.Sound) (tasks : s'.tasks = s.tasks)
    (interactive : s'.interactive = s.interactive) (background : s'.background = s.background)
    (running : s'.running = s.running) (next : s'.nextTask = s.nextTask) : s'.Sound := by
  cases s
  cases s'
  simp only at tasks interactive background running next
  subst tasks interactive background running next
  exact ⟨h.id_eq, h.lt_next, h.mem_queue, h.nodup_queue, h.mem_running, h.nodup_running,
    h.idle_of_queued, h.busy_of_running, h.unfired⟩

/-- A change beside the tables changes no task. -/
theorem Leads.of_tasks (sound : s'.Sound) (tasks : s'.tasks = s.tasks)
    (next : s'.nextTask = s.nextTask) : Leads s s' [] := by
  have same (i) : s'.task? i = s.task? i := by simp [Scheduler.task?, tasks]
  refine ⟨sound, Nat.le_of_eq next.symm, ?_, ?_, ?_, by simp, by simp⟩
  · exact fun ht => ⟨_, (same _).trans ht, rfl⟩
  · exact fun ht live => .inr ⟨_, (same _).symm.trans ht, live, .refl _⟩
  · rintro i ⟨t, ht, busy⟩
    exact ⟨t, (same i).trans ht, busy⟩

theorem Leads.of_replace (sound : s'.Sound) (r : s.Replaces t' s')
    (ht : s.task? t'.id = some t) (next : s'.nextTask = s.nextTask) (spec : t'.spec = t.spec)
    (live : t'.IsLive → t.IsLive ∧ t.Continues t')
    (busy : t.attempt.isSome → t'.attempt.isSome) : Leads s s' [] := by
  refine ⟨sound, Nat.le_of_eq next.symm, ?_, ?_, ?_, by simp, by simp⟩
  · intro i u hu
    by_cases e : i = t'.id
    · subst e
      obtain rfl : t = u := by simpa [ht] using hu
      exact ⟨t', by simp [r t'.id], spec⟩
    · exact ⟨u, by simp [r i, e, hu], rfl⟩
  · intro i u hu l
    right
    by_cases e : i = t'.id
    · subst e
      obtain rfl : t' = u := by simpa [r t'.id] using hu
      exact ⟨t, ht, live l⟩
    · exact ⟨u, by simpa [r i, e] using hu, l, .refl u⟩
  · intro i hb
    by_cases e : i = t'.id
    · subst e
      exact r.isBusy_self_iff.2 (busy ((isBusy_iff ht).1 hb))
    · exact (r.isBusy_iff e).2 hb

/-! ## One operation after another -/

theorem forEach_cons {β : Type} (f : β → Scheduler → Result α) (b : β) (rest : List β)
    (s : Scheduler) : forEach f (b :: rest) s = Scheduler.andThen (f b s) (forEach f rest) := by
  have fold (items : List β) : ∀ r : Result α,
      items.foldl (fun r b => Scheduler.andThen r (f b)) r =
        Scheduler.andThen r (forEach f items) := by
    induction items with
    | nil => simp [forEach, Scheduler.andThen]
    | cons c items ih =>
      intro r
      have first : forEach f (c :: items) r.1 = Scheduler.andThen (f c r.1) (forEach f items) := by
        unfold forEach
        rw [List.foldl_cons, ih]
        simp [Scheduler.andThen, forEach]
      rw [List.foldl_cons, ih]
      simp [Scheduler.andThen, first]
  unfold forEach
  rw [List.foldl_cons, fold]
  simp [Scheduler.andThen, forEach]

theorem forEach_leads {β : Type} {f : β → Scheduler → Result α}
    (step : ∀ b s, Sound s → Leads s (f b s).1 (begins (f b s).2)) (items : List β) (h : s.Sound) :
    Leads s (forEach f items s).1 (begins (forEach f items s).2) := by
  induction items generalizing s with
  | nil => exact .refl h
  | cons b rest ih =>
    rw [forEach_cons]
    exact (step b s h).andThen fun h' => ih h'

theorem begins_forEach {β : Type} {f : β → Scheduler → Result α}
    (step : ∀ b s, begins (f b s).2 = [])
    (items : List β) (s : Scheduler) : begins (forEach f items s).2 = [] := by
  induction items generalizing s with
  | nil => rfl
  | cons b rest ih => simp [forEach_cons, Scheduler.andThen, step, ih]

end Scheduler

end Quill
