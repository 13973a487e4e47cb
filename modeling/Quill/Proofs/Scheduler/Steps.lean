import Quill.Proofs.Scheduler.Calls

/-!
# What a call of the scheduler is made of

Each call takes a scheduler through a few kinds of steps: a task enters, starts, is cancelled, comes
back, ends, is tried again or gives up its slot, and whoever waits is woken. What a run preserves is
what these steps preserve.

## Main definitions

* `SchedulerEffect.outcome?`, `Scheduler.outcomes` — the results tasks get.
* `Task.Stands` — a task written over by itself, in the same place.
* `Scheduler.EndsWith` — the result that goes with the state a task ends in.
* `Scheduler.Step`, `Scheduler.Steps` — one step, and steps one after another.
* `Call.steps` — every call is made of such steps.
-/

namespace Quill

variable {α : Type}

/-- The task that gets a result, and the result. -/
def SchedulerEffect.outcome? : SchedulerEffect α → Option (Nat × Except Failure α)
  | .resolve task value => some (task, .ok value)
  | .reject task f => some (task, .error f)
  | _ => none

/-- The record `t'` is the task `t` where it was: queued, running or over, with as many attempts and
the slot if it had one. It is live only as the attempt it was. -/
structure Task.Stands (t t' : Task) : Prop where
  id : t'.id = t.id
  spec : t'.spec = t.spec
  state : t'.state = t.state
  attempts : t'.attempts = t.attempts
  holdsSlot : t'.holdsSlot = t.holdsSlot
  attempt : t'.attempt.isSome = t.attempt.isSome
  live : t'.IsLive → t.IsLive ∧ t'.attempt = t.attempt

namespace Scheduler

variable {s s₁ s' : Scheduler} {id : Nat} {t t' : Task} {limits : Limits} {c : Call α}

/-- The results that tasks get, in order. -/
def outcomes (effects : List (SchedulerEffect α)) : List (Nat × Except Failure α) :=
  effects.filterMap SchedulerEffect.outcome?

@[simp] theorem outcomes_nil : outcomes ([] : List (SchedulerEffect α)) = [] := rfl

@[simp] theorem outcomes_cons (e : SchedulerEffect α) (rest : List (SchedulerEffect α)) :
    outcomes (e :: rest) = e.outcome?.toList ++ outcomes rest := by
  unfold outcomes
  cases h : e.outcome? <;> simp [h]

@[simp] theorem outcomes_append (a b : List (SchedulerEffect α)) :
    outcomes (a ++ b) = outcomes a ++ outcomes b := by simp [outcomes]

/-- A result that goes with the state a task ends in after so many attempts: the value or the
failure its last attempt has just come back with, or why it was cancelled or superseded. -/
inductive EndsWith (c : Call α) (id attempts : Nat) : TaskState → Except Failure α → Prop
  | completed {value : α} (back : c = .settle id attempts (.ok value)) :
    EndsWith c id attempts .completed (.ok value)
  | cancelled (reason : CancelReason) :
    EndsWith c id attempts .cancelled (.error (.cancelled reason))
  | superseded (uri : Uri) :
    EndsWith c id attempts .superseded (.error (.superseded uri attempts))
  | failed {f : Failure} (back : c = .settle id attempts (.error f))
    (other : ∀ reason, f ≠ .cancelled reason) : EndsWith c id attempts .failed (.error f)

/-- A result is given in a state that is the end. -/
theorem EndsWith.isTerminal {attempts : Nat} {state : TaskState} {r : Except Failure α}
    (h : EndsWith c id attempts state r) : state.isTerminal := by
  cases h <;> rfl

def yieldSlot (s : Scheduler) (t : Task) : Scheduler :=
  ({ s with slotsInUse := s.slotsInUse - 1 }.put
    { t with isTimed := false, holdsSlot := false }).count
    fun c => { c with demoted := c.demoted + 1 }

/-! ## Which task a step writes -/

theorem replaces_unqueue_finish (s : Scheduler) (t : Task) (state : TaskState) :
    s.Replaces { t with state } ((s.unqueue t).finish t state) := by
  intro i
  simp [finish]

theorem replaces_enter (s : Scheduler) (spec : TaskSpec) :
    s.Replaces { id := s.nextTask, spec }
      ((s.record spec).enqueue { id := s.nextTask, spec }) := by
  intro i
  simp

theorem replaces_refuse (s : Scheduler) (spec : TaskSpec) :
    s.Replaces { id := s.nextTask, spec, state := .cancelled }
      (((s.record spec).unqueue { id := s.nextTask, spec }).finish { id := s.nextTask, spec }
        .cancelled) := by
  intro i
  simp [finish]
  grind

theorem replaces_yieldSlot (s : Scheduler) (t : Task) :
    s.Replaces { t with isTimed := false, holdsSlot := false } (s.yieldSlot t) :=
  fun i => task?_put _ { t with isTimed := false, holdsSlot := false } i

/-- A relation between schedulers before and after, the results tasks get and the attempts that
begin. -/
abbrev Passage (α : Type) :=
  Scheduler → List (Nat × Except Failure α) → List (Nat × Nat) → Scheduler → Prop

/-- A step that starts nothing, queues nothing and frees no slot. -/
inductive Calm : Passage α
  /-- A task is written over by itself. -/
  | rewrite {s : Scheduler} {t t' : Task} (ht : s.task? t.id = some t) (stands : t.Stands t') :
    Calm s [] [] (s.put t')
  | cancel {s : Scheduler} {t : Task} (ht : s.task? t.id = some t)
    (active : t.state.isTerminal = false) (reason : CancelReason) :
    Calm s [(t.id, .error (.cancelled reason))] [] ((s.unqueue t).finish t .cancelled)
  /-- A task is submitted too late. -/
  | refuse {s : Scheduler} (spec : TaskSpec) (reason : CancelReason) :
    Calm s [(s.nextTask, .error (.cancelled reason))] []
      (((s.record spec).unqueue { id := s.nextTask, spec }).finish { id := s.nextTask, spec }
        .cancelled)
  | wake {s : Scheduler} : Calm s [] [] { s with idleWaiters := [] }
  | wait {s : Scheduler} (waiter : Nat) :
    Calm s [] [] { s with idleWaiters := s.idleWaiters ++ [waiter] }
  | shut {s : Scheduler} : Calm s [] [] { s with isDisposed := true }

inductive Step (limits : Limits) (c : Call α) : Passage α
  | calm {s s' : Scheduler} {given : List (Nat × Except Failure α)} {begun : List (Nat × Nat)}
    (h : Calm s given begun s') : Step limits c s given begun s'
  | enter {s : Scheduler} (spec : TaskSpec) :
    Step limits c s [] [] ((s.record spec).enqueue { id := s.nextTask, spec })
  | start {s s₁ : Scheduler} {id : Nat} {t : Task} (free : s.slotsInUse < limits.maxWorkers)
    (next : s.dequeue? = some (id, s₁)) (ht : s.task? id = some t) :
    Step limits c s [] [(id, t.attempts + 1)] (Scheduler.start limits id s₁ : Result α).1
  /-- The attempt of a task that is over comes back. -/
  | lapse {s : Scheduler} {t : Task} (ht : s.task? t.id = some t) (busy : t.attempt.isSome)
    (ended : t.state.isTerminal) : Step limits c s [] [] (s.withoutAttempt t).1
  /-- The attempt of a task comes back, and the task is over. -/
  | finish {s : Scheduler} {t : Task} {state : TaskState} {r : Except Failure α}
    (ht : s.task? t.id = some t) (runs : t.state = .running)
    (ends : EndsWith c t.id t.attempts state r) :
    Step limits c s [(t.id, r)] []
      ((s.withoutAttempt t).1.finish (s.withoutAttempt t).2 state)
  /-- The attempt of a task comes back, and the task is to be tried again. -/
  | retry {s : Scheduler} {t : Task} (ht : s.task? t.id = some t) (runs : t.state = .running)
    (interactive : t.spec.priority = .interactive) (left : t.attempts - 1 < limits.maxRestarts) :
    Step limits c s [] [] ((s.withoutAttempt t).1.retry (s.withoutAttempt t).2)
  | demote {s : Scheduler} {t : Task} (ht : s.task? t.id = some t) (holds : t.holdsSlot)
    (runs : t.state = .running) : Step limits c s [] [] (s.yieldSlot t)

inductive Steps (R : Passage α) : Passage α
  | refl {s : Scheduler} : Steps R s [] [] s
  | step {s s₁ s' : Scheduler} {given given' : List (Nat × Except Failure α)}
    {begun begun' : List (Nat × Nat)} (first : R s given begun s₁)
    (rest : Steps R s₁ given' begun' s') : Steps R s (given ++ given') (begun ++ begun') s'

section Closure

variable {R R' : Passage α} {given given' : List (Nat × Except Failure α)}
  {begun begun' : List (Nat × Nat)}

theorem Steps.single (h : R s given begun s') : Steps R s given begun s' := by
  simpa using Steps.step h .refl

theorem Steps.trans (h : Steps R s given begun s₁) (g : Steps R s₁ given' begun' s') :
    Steps R s (given ++ given') (begun ++ begun') s' := by
  induction h with
  | refl => exact g
  | step first _ ih => simpa using Steps.step first (ih g)

/-- Whatever is a step of one kind is one of the other. -/
theorem Steps.mono (h : Steps R s given begun s')
    (of : ∀ {s given begun s'}, R s given begun s' → R' s given begun s') :
    Steps R' s given begun s' := by
  induction h with
  | refl => exact .refl
  | step first _ ih => exact .step (of first) ih

theorem Steps.preserves {I : Scheduler → Prop} (steps : Steps R s given begun s')
    (step : ∀ {s given begun s'}, R s given begun s' → I s → I s') (h : I s) : I s' := by
  induction steps with
  | refl => exact h
  | step first _ ih => exact ih (step first h)

end Closure

/-! ## A step keeps the tables fitting together -/

section Sound

variable {given : List (Nat × Except Failure α)} {begun : List (Nat × Nat)}

theorem Calm.sound (step : Calm s given begun s') (h : s.Sound) : s'.Sound := by
  cases step with
  | rewrite ht stands =>
    refine h.replace (replaces_put s _) (stands.id ▸ ht) rfl (fun p => queueOf_put s _ p) rfl
      stands.state stands.spec stands.attempt fun live => ?_
    obtain ⟨before, same⟩ := stands.live live
    exact same.trans (h.unfired ht before)
  | cancel ht _ _ => exact (unqueue_finish_leads h ht rfl).sound
  | refuse spec _ => exact (record_finish_leads h spec).sound
  | wake | wait | shut => exact h.congr rfl rfl rfl rfl rfl

theorem Step.sound (step : Step limits c s given begun s') (h : s.Sound) : s'.Sound := by
  cases step with
  | calm step => exact step.sound h
  | enter spec => exact (record_enqueue_leads h spec).sound
  | start _ next _ => exact (start_leads (α := α) h next).sound
  | lapse ht busy ended => exact withoutAttempt_sound h ht busy ended
  | finish ht runs ends =>
    exact (finish_stops (α := α) _ _ ends.isTerminal [] rfl).sound h ht (h.busy_of_running ht runs)
      |>.2
  | @retry _ t ht runs interactive _ =>
    exact (retry_stops (α := α) _ (s.withoutAttempt t).2 interactive [] rfl).sound h ht
      (h.busy_of_running ht runs) |>.2
  | @demote _ t ht _ runs =>
    exact h.replace (replaces_yieldSlot s t) ht rfl (fun p => by cases p <;> rfl) rfl rfl rfl
      rfl fun live =>
      h.unfired (t := t) ht live

theorem Steps.sound (steps : Steps (Step limits c) s given begun s') (h : s.Sound) : s'.Sound :=
  steps.preserves Step.sound h

theorem Steps.sound_of_calm (steps : Steps Calm s given begun s') (h : s.Sound) : s'.Sound :=
  steps.preserves Calm.sound h

end Sound

/-! ## The operations are made of steps -/

abbrev StepsWith (R : Passage α) (s : Scheduler) (r : Result α) : Prop :=
  Steps R s (outcomes r.2) (begins r.2) r.1

theorem StepsWith.andThen {R : Passage α} {r : Result α} {f : Scheduler → Result α}
    (h : StepsWith R s r) (g : StepsWith R r.1 (f r.1)) :
    StepsWith R s (Scheduler.andThen r f) := by
  simpa [StepsWith, Scheduler.andThen] using Steps.trans h g

theorem StepsWith.of_calm {r : Result α} (h : StepsWith Calm s r) : StepsWith (Step limits c) s r :=
  h.mono .calm

theorem forEach_calm {β : Type} {f : β → Scheduler → Result α}
    (step : ∀ b s, Sound s → StepsWith Calm s (f b s)) (items : List β) (h : s.Sound) :
    StepsWith Calm s (forEach f items s) := by
  induction items generalizing s with
  | nil => exact .refl
  | cons b rest ih =>
    rw [forEach_cons]
    have first := step b s h
    exact first.andThen (ih (first.sound_of_calm h))

theorem checkIdle_calm : StepsWith Calm s (checkIdle s : Result α) := by
  unfold checkIdle
  split
  · exact .single .wake
  · exact .refl

@[simp] theorem outcomes_start : outcomes (start limits id s : Result α).2 = [] := by
  unfold start
  split
  · rfl
  · dsimp only
    split <;> rfl

theorem begins_start (ht : s.task? id = some t) :
    begins (start limits id s : Result α).2 = [(id, t.attempts + 1)] := by
  simp only [start, ht]
  split <;> rfl

/-- Only the queues are different without the next task to start. -/
theorem dequeue?_frame (next : s.dequeue? = some (id, s₁)) :
    s₁ = { s with interactive := s₁.interactive, background := s₁.background } := by
  unfold dequeue? at next
  split at next <;> simp at next <;> obtain ⟨-, rfl⟩ := next <;> rfl

theorem Sound.dequeued (h : s.Sound) (next : s.dequeue? = some (id, s₁)) :
    ∃ t, s.task? id = some t ∧ t.state = .queued ∧ s₁.task? id = some t := by
  obtain ⟨p, front, -, tasks, -⟩ := dequeue?_eq_some next
  have mem : id ∈ s.queueOf p := by simp [front]
  obtain ⟨t, ht, queued, -⟩ := h.mem_queue.1 mem
  exact ⟨t, ht, queued, by simpa [Scheduler.task?, tasks] using ht⟩

theorem Sound.starts (limits : Limits) (h : s.Sound) (next : s.dequeue? = some (id, s₁))
    (ht : s.task? id = some t) :
    ∃ t', Starts t t' ∧ t.state = .queued ∧ s.Replaces t' (start limits id s₁ : Result α).1 ∧
      (start limits id s₁ : Result α).1 = { s.put t' with
        interactive := s₁.interactive, background := s₁.background
        slotsInUse := s.slotsInUse + 1, running := s.running ++ [id] } := by
  obtain ⟨u, hu, queued, hu₁⟩ := h.dequeued next
  obtain rfl : t = u := by simpa [ht] using hu
  obtain ⟨t', eq, starts⟩ := start_eq (α := α) limits hu₁
  have outside : id ∉ s.running := by
    rw [h.mem_running, isBusy_iff ht, h.idle_of_queued ht queued]
    simp
  have same : (start limits id s₁ : Result α).1 = { s.put t' with
      interactive := s₁.interactive, background := s₁.background
      slotsInUse := s.slotsInUse + 1, running := s.running ++ [id] } := by
    rw [eq, dequeue?_frame next]
    simp [put, List.erase_of_not_mem outside]
  refine ⟨t', starts, queued, ?_, same⟩
  intro i
  rw [same]
  exact task?_put s t' i

theorem pumpAtMost_steps (n : Nat) (h : s.Sound) :
    StepsWith (Step limits c) s (pumpAtMost limits n s) := by
  induction n generalizing s with
  | zero => exact .refl
  | succ n ih =>
    unfold pumpAtMost
    split
    next free =>
      split
      next id s₁ next =>
        obtain ⟨t, ht, -, ht₁⟩ := h.dequeued next
        have first : StepsWith (Step limits c) s (start limits id s₁) := by
          rw [StepsWith, outcomes_start, begins_start ht₁]
          exact .single (.start free next ht)
        exact first.andThen (ih (first.sound h))
      next => exact .refl
    next => exact .refl

theorem pump_steps (h : s.Sound) : StepsWith (Step limits c) s (pump limits s) :=
  (pumpAtMost_steps _ h).andThen checkIdle_calm.of_calm

theorem fireToken_calm (reason : CancelReason) (h : s.Sound)
    (dead : ∀ t, s.task? id = some t → ¬ t.IsLive) :
    StepsWith Calm s (fireToken reason id s : Result α) := by
  unfold fireToken
  split
  next t ht =>
    split
    next e =>
      obtain rfl := h.id_eq ht
      exact .single (.rewrite ht
        ⟨rfl, rfl, rfl, rfl, rfl, by simp [e], fun l => absurd l (dead t ht)⟩)
    next => exact .refl
  next => exact .refl

@[simp] theorem outcomes_fireToken (reason : CancelReason) (id : Nat) (s : Scheduler) :
    outcomes (fireToken reason id s : Result α).2 = [] := by
  unfold fireToken
  split
  · split <;> rfl
  · rfl

theorem cancel_calm (reason : CancelReason) (id : Nat) (h : s.Sound) :
    StepsWith Calm s (cancel reason id s : Result α) := by
  unfold cancel
  split
  next => exact .refl
  next t ht =>
    split
    · exact .refl
    next active =>
      obtain rfl := h.id_eq ht
      have ended : Calm (α := α) s _ [] ((s.unqueue t).finish t .cancelled) :=
        .cancel ht (by simpa using active) reason
      have dead : ∀ u, ((s.unqueue t).finish t .cancelled).task? t.id = some u → ¬ u.IsLive := by
        intro u hu live
        obtain rfl : { t with state := .cancelled } = u := by simpa [Scheduler.finish] using hu
        simp [Task.IsLive] at live
      refine StepsWith.andThen ?_ checkIdle_calm
      have fired := fireToken_calm (α := α) reason (ended.sound h) dead
      simpa [StepsWith, Scheduler.andThen, SchedulerEffect.outcome?, SchedulerEffect.begun?, note]
        using Steps.step ended fired

theorem dispose_calm (h : s.Sound) : StepsWith Calm s (dispose s : Result α) := by
  unfold dispose
  split
  · exact .refl
  · have first : Calm (α := α) s [] [] { s with isDisposed := true } := .shut
    exact .step first (forEach_calm (fun id _ h' => cancel_calm .disposed id h') _ (first.sound h))

theorem invalidateRunning_calm (e : StoreEvent) (id : Nat) (h : s.Sound) :
    StepsWith Calm s (invalidateRunning e id s : Result α) := by
  unfold invalidateRunning
  split
  next => exact .refl
  next t ht =>
    split
    · exact .refl
    · split
      · exact cancel_calm .closed id h
      · obtain rfl := h.id_eq ht
        have marked : Calm (α := α) s [] [] (s.put (markStale e.uri t)) :=
          .rewrite ht ⟨rfl, rfl, rfl, rfl, rfl, rfl,
            fun l => absurd l (not_isLive_markStale e.uri t)⟩
        exact StepsWith.andThen (.single marked) (fireToken_calm .superseded (marked.sound h)
          fun _ hu => not_isLive_of_put_markStale hu)

theorem closeQueued_calm (uri : Uri) (id : Nat) (h : s.Sound) :
    StepsWith Calm s (closeQueued uri id s : Result α) := by
  unfold closeQueued
  split
  · split
    · exact cancel_calm .closed id h
    · exact .refl
  · exact .refl

theorem invalidate_calm (e : StoreEvent) (h : s.Sound) :
    StepsWith Calm s (invalidate e s : Result α) := by
  have running := forEach_calm (α := α) (fun id _ h' => invalidateRunning_calm e id h') s.running h
  have queued (items) {s} (h : Sound s) :=
    forEach_calm (α := α) (fun id _ h' => closeQueued_calm e.uri id h') items h
  unfold invalidate
  dsimp only
  split
  · have sound := running.sound_of_calm h
    have interactive :=
      queued (forEach (invalidateRunning e) s.running s : Result α).1.interactive sound
    exact (running.andThen interactive).andThen (queued _ (interactive.sound_of_calm sound))
  · exact running

theorem declare_calm (id : Nat) (read : List ReadEntry) (scope : ReadScope) (h : s.Sound) :
    Steps (α := α) Calm s [] [] (s.declare id read scope) := by
  unfold declare
  split
  next t ht =>
    split
    · obtain rfl := h.id_eq ht
      exact .single (.rewrite ht ⟨rfl, rfl, rfl, rfl, rfl, rfl, fun l => ⟨l, rfl⟩⟩)
    · exact .refl
  next => exact .refl

theorem idle_calm (waiter : Nat) : StepsWith Calm s (idle waiter s : Result α) := by
  unfold idle
  split
  · exact .refl
  · exact .single (.wait waiter)

/-- How a call does what it does: by calm steps alone, or by steps that start nothing, after which
tasks are started while there are slots. -/
inductive Made (limits : Limits) (c : Call α) (s : Scheduler) : Result α → Prop
  | calm {r : Result α} (steps : StepsWith Calm s r) : Made limits c s r
  | pumps {r : Result α} (steps : StepsWith (Step limits c) s r) (silent : begins r.2 = []) :
    Made limits c s (andThen r (pump limits))

theorem submit_made (spec : TaskSpec) (reason : Option CancelReason) (h : s.Sound) :
    Made limits c s (submit limits spec reason s) := by
  unfold submit
  dsimp only
  split
  · refine .calm ?_
    change StepsWith Calm s (cancel .disposed s.nextTask (s.record spec) : Result α)
    rw [cancel_record_eq]
    refine StepsWith.andThen ?_ checkIdle_calm
    exact .single (.refuse spec .disposed)
  · have entered : Step limits c s [] [] ((s.record spec).enqueue { id := s.nextTask, spec }) :=
      .enter spec
    refine .pumps (StepsWith.andThen (.single entered) ?_) ?_
    · cases reason with
      | some r => exact (cancel_calm r s.nextTask (entered.sound h)).of_calm
      | none => exact .refl
    · cases reason <;> simp [andThen, SchedulerEffect.begun?, note]

theorem demote_made (id : Nat) (h : s.Sound) : Made limits c s (demote limits id s) := by
  unfold demote
  split
  next => exact .calm .refl
  next t ht =>
    obtain rfl := h.id_eq ht
    dsimp only
    split
    next gives =>
      obtain ⟨holds, runs⟩ : t.holdsSlot ∧ t.state = .running := by simpa using gives
      have yielded : Step limits c s [] [] (s.yieldSlot t) := .demote ht holds runs
      exact .pumps (.single yielded) rfl
    next =>
      exact .calm (.single (.rewrite ht ⟨rfl, rfl, rfl, rfl, rfl, rfl, fun l => ⟨l, rfl⟩⟩))

/-! ## An attempt comes back -/

/-- An attempt that is stale is tried again, or its task is given up. -/
theorem supersede_steps (uri : Uri) (ht : s.task? t.id = some t) (runs : t.state = .running) :
    StepsWith (Step limits c) s
      (supersede limits (s.withoutAttempt t).2 uri (s.withoutAttempt t).1) := by
  unfold supersede
  split
  next again => exact .single (.retry ht runs again.1 again.2.1)
  next =>
    have ended : Step limits c s [(t.id, .error (.superseded uri t.attempts))] [] _ :=
      .finish ht runs (.superseded uri)
    dsimp only
    split <;> exact .single ended

/-- An attempt that comes back ends its task in a state that goes with the result, or the task is
tried again. -/
theorem conclude_steps (versionOf : Uri → Option Int) {outcome : Except Failure α}
    (back : c = .settle t.id t.attempts outcome) (ht : s.task? t.id = some t)
    (runs : t.state = .running) :
    StepsWith (Step limits c) s
      (conclude limits versionOf (s.withoutAttempt t).2 outcome (s.withoutAttempt t).1) := by
  unfold conclude
  split
  · exact supersede_steps _ ht runs
  · split
    · exact .single (.finish ht runs (.completed back))
    next uri _ =>
      simpa [StepsWith, Scheduler.andThen, SchedulerEffect.outcome?, SchedulerEffect.begun?, note]
        using supersede_steps uri ht runs
  · exact .single (.finish ht runs (.cancelled _))
  next f other _ => exact .single (.finish ht runs (.failed back fun reason e => other reason e))

theorem settle_made (versionOf : Uri → Option Int) {outcome : Except Failure α}
    (back : c = .settle t.id t.attempts outcome) (h : s.Sound) (ht : s.task? t.id = some t)
    (busy : t.attempt.isSome) : Made limits c s (settle limits versionOf t.id outcome s) := by
  obtain ⟨silent, unbegun⟩ :
      outcomes (if t.isTimed then [.stopTimer t.id] else [] : List (SchedulerEffect α)) = [] ∧
      begins (if t.isTimed then [.stopTimer t.id] else [] : List (SchedulerEffect α)) = [] := by
    split <;> exact ⟨rfl, rfl⟩
  rw [settle_eq_andThen versionOf outcome ht]
  by_cases ended : t.state.isTerminal
  · refine .pumps ?_ (by simp [Scheduler.andThen, ended, unbegun])
    simpa [StepsWith, Scheduler.andThen, ended, silent, unbegun]
      using Steps.single (.lapse ht busy ended)
  · have runs : t.state = .running := by
      cases e : t.state <;> simp_all [TaskState.isTerminal]
      exact absurd (h.idle_of_queued ht e) (by intro none; simp [none] at busy)
    obtain ⟨_, stops, -⟩ := conclude_stops limits versionOf outcome (s.withoutAttempt t).1
      (s.withoutAttempt t).2
    refine .pumps ?_ (by simp [Scheduler.andThen, ended, unbegun, stops.begins])
    simpa [StepsWith, Scheduler.andThen, ended, silent, unbegun] using
      conclude_steps versionOf back ht runs

/-! ## Calls -/

theorem Call.made (limits : Limits) (versionOf : Uri → Option Int) (c : Call α) (h : s.Sound)
    (allowed : c.Allowed s) : Made limits c s (c.apply limits versionOf s) := by
  cases c with
  | submit spec reason => exact submit_made spec reason h
  | declare id n read scope =>
    simp only [Call.apply]
    split
    · exact .calm (declare_calm id read scope h)
    · exact .calm .refl
  | invalidate e => exact .calm (invalidate_calm e h)
  | cancel reason id => exact .calm (cancel_calm reason id h)
  | settle id n outcome =>
    obtain ⟨t, ht, busy, rfl⟩ := underWay?_eq_some_iff.1 (by simpa [Call.Allowed] using allowed)
    obtain rfl := h.id_eq ht
    exact settle_made versionOf rfl h ht busy
  | demote id => exact demote_made id h
  | idle waiter => exact .calm (idle_calm waiter)
  | dispose => exact .calm (dispose_calm h)

theorem Made.steps {r : Result α} (made : Made limits c s r) (h : s.Sound) :
    StepsWith (Step limits c) s r := by
  cases made with
  | calm steps => exact steps.of_calm
  | pumps steps _ => exact steps.andThen (pump_steps (steps.sound h))

theorem Call.steps (limits : Limits) (versionOf : Uri → Option Int) (c : Call α) (h : s.Sound)
    (allowed : c.Allowed s) : StepsWith (Step limits c) s (c.apply limits versionOf s) :=
  (c.made limits versionOf h allowed).steps h

theorem Reached.sound {h : List (Moment α)} (run : Reached h s) : s.Sound := by
  induction run with
  | start => exact sound_empty
  | step _ allowed ih => exact (Call.steps _ _ _ ih allowed).sound ih

end Scheduler

end Quill
