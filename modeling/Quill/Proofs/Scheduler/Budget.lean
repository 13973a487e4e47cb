import Quill.Proofs.Scheduler.Slots

/-!
# Budgets

An attempt of a background task is timed while it holds a slot. When its budget is used up it gives
the slot back, and what waits starts at once; but an attempt whose task has been cancelled keeps the
slot until it comes back. Runs have a clock here: timers fire when they are due, and time does not
pass them.

## Main definitions

* `Scheduler.Clock` — the time, when the timers are due, and when the attempts began.
* `Scheduler.Timed` — runs with a clock.
* `Scheduler.KeepsSlots` — operations that leave slots, timers and attempts alone.
* `Task.Fits`, `Scheduler.InTime` — what a clock says of the tasks.
* `Moment.Yields` — what happens when a budget is used up.

## Main statements

* `Call.inTime` — every call keeps to what the clock says.
* `Timed.budget_kept` — what happens when budgets are used up, and how long slots are held.
-/

namespace Quill

structure Task.Keeps (t t' : Task) : Prop where
  id : t'.id = t.id
  spec : t'.spec = t.spec
  holdsSlot : t'.holdsSlot = t.holdsSlot
  isTimed : t'.isTimed = t.isTimed
  attempt : t'.attempt.isSome = t.attempt.isSome
  state : t'.state = t.state ∨ t'.state = .cancelled

theorem Task.Keeps.refl (t : Task) : t.Keeps t := ⟨rfl, rfl, rfl, rfl, rfl, .inl rfl⟩

theorem Task.Keeps.trans {t u v : Task} (h : t.Keeps u) (g : u.Keeps v) : t.Keeps v where
  id := g.id.trans h.id
  spec := g.spec.trans h.spec
  holdsSlot := g.holdsSlot.trans h.holdsSlot
  isTimed := g.isTimed.trans h.isTimed
  attempt := g.attempt.trans h.attempt
  state := g.state.elim (fun same => h.state.imp same.trans same.trans) .inr

namespace Scheduler

variable {α : Type} {s s₁ s' : Scheduler} {id i b : Nat} {t t' : Task} {limits : Limits}
  {effects : List (SchedulerEffect α)}

/-! ## Clocks -/

/-- The time, when the timers that run are due, and when each task last began an attempt, with the
budget it was given. -/
structure Clock where
  now : Nat := 0
  due : Dict Nat Nat := []
  since : Dict Nat (Nat × Nat) := []
  deriving DecidableEq, Repr

namespace Clock

def note (b : Nat) (k : Clock) : SchedulerEffect α → Clock
  | .startTimer id ms => { k with due := Dict.put k.due id (k.now + ms) }
  | .stopTimer id => { k with due := Dict.erase k.due id }
  | .begin id _ => { k with since := Dict.put k.since id (k.now, b) }
  | _ => k

def noteAll (b : Nat) (k : Clock) (effects : List (SchedulerEffect α)) :
    Clock := effects.foldl (note b) k

/-- The clock when a call is made: a timer that fires runs no longer. -/
def meet (k : Clock) : Call α → Clock
  | .demote id => { k with due := Dict.erase k.due id }
  | _ => k

def after (k : Clock) (m : Moment α) : Clock :=
  (k.meet m.call).noteAll m.limits.backgroundBudgetMs m.effects

def Allows (k : Clock) (time : Nat) : Bool := k.due.all fun e => decide (time ≤ e.2)

@[simp] theorem noteAll_nil (b : Nat) (k : Clock) :
    k.noteAll b ([] : List (SchedulerEffect α)) = k := rfl

theorem noteAll_append (b : Nat) (k : Clock) (e e' : List (SchedulerEffect α)) :
    k.noteAll b (e ++ e') = (k.noteAll b e).noteAll b e' := List.foldl_append

end Clock

def Call.IsDue (k : Clock) : Call α → Bool
  | .demote id => Dict.get? k.due id == some k.now
  | _ => true

/-- The scheduler `s` is reached at the time of a clock by a history, the latest moment first. -/
inductive Timed : List (Moment α) → Scheduler → Clock → Prop
  | start : Timed [] {} {}
  | wait {h : List (Moment α)} {s : Scheduler} {k : Clock} (run : Timed h s k) (ms : Nat)
    (early : k.Allows (k.now + ms)) : Timed h s { k with now := k.now + ms }
  | step {m : Moment α} {h : List (Moment α)} {k : Clock} (before : Timed h m.before k)
    (allowed : m.call.Allowed m.before) (due : m.call.IsDue k) : Timed (m :: h) m.after (k.after m)

variable {k k' : Clock}

theorem Timed.reached {h : List (Moment α)} (run : Timed h s k) : Reached h s := by
  induction run with
  | start => exact .start
  | wait _ _ _ ih => exact ih
  | step _ allowed _ ih => exact .step ih allowed

/-- The clock takes notice of an effect. -/
def IsTick : SchedulerEffect α → Bool
  | .startTimer _ _ | .stopTimer _ | .begin _ _ => true
  | _ => false

theorem noteAll_of_quiet (quiet : ∀ e ∈ effects, IsTick e = false) (b : Nat) (k : Clock) :
    k.noteAll b effects = k := by
  induction effects with
  | nil => rfl
  | cons e effects ih =>
    obtain ⟨first, others⟩ := List.forall_mem_cons.1 quiet
    have same : k.note b e = k := by cases e <;> simp_all [IsTick, Clock.note]
    rw [Clock.noteAll, List.foldl_cons, same]
    exact ih others

/-! ## Operations that leave the slots alone -/

def Numbered (s : Scheduler) : Prop := ∀ i t, s.task? i = some t → t.id = i

theorem Sound.numbered (h : s.Sound) : s.Numbered := fun _ _ ht => h.id_eq ht

/-- As far as slots go the task numbered `i` is as it was, or it is new and has never run. -/
inductive KeepsTask (i : Nat) : Option Task → Option Task → Prop
  | absent : KeepsTask i none none
  | enters {t : Task} (own : t.id = i) (free : t.holdsSlot = false) (untimed : t.isTimed = false)
    (idle : t.attempt = none) : KeepsTask i none (some t)
  | stays {t t' : Task} (keeps : t.Keeps t') : KeepsTask i (some t) (some t')

theorem KeepsTask.refl (i : Nat) (o : Option Task) : KeepsTask i o o := by
  cases o with
  | none => exact .absent
  | some t => exact .stays (.refl t)

theorem KeepsTask.trans {o o₁ o' : Option Task} (h : KeepsTask i o o₁) (g : KeepsTask i o₁ o') :
    KeepsTask i o o' := by
  cases h with
  | absent => exact g
  | enters own free untimed idle =>
    cases g with
    | stays keeps =>
      refine .enters (keeps.id.trans own) (keeps.holdsSlot.trans free) (keeps.isTimed.trans untimed)
        ?_
      simpa [idle] using keeps.attempt
  | stays keeps =>
    cases g with
    | stays keeps' => exact .stays (keeps.trans keeps')

/-- An operation that leaves slots, timers and attempts alone. -/
structure KeepsSlots (s : Scheduler) (r : Result α) : Prop where
  tasks : ∀ i, KeepsTask i (s.task? i) (r.1.task? i)
  quiet : ∀ e ∈ r.2, IsTick e = false

namespace KeepsSlots

variable {r : Result α}

theorem of_tasks (same : s'.tasks = s.tasks) (quiet : ∀ e ∈ effects, IsTick e = false) :
    KeepsSlots s (s', effects) :=
  ⟨fun i => by simpa [Scheduler.task?, same] using KeepsTask.refl i (s.task? i), quiet⟩

theorem refl (s : Scheduler) : KeepsSlots s (s, ([] : List (SchedulerEffect α))) :=
  .of_tasks rfl (by simp)

theorem of_replaces (r : s.Replaces t' s') (ht : s.task? t'.id = some t) (keeps : t.Keeps t')
    (quiet : ∀ e ∈ effects, IsTick e = false) : KeepsSlots s (s', effects) := by
  refine ⟨fun i => ?_, quiet⟩
  rw [r i]
  split
  next own => exact own ▸ ht ▸ .stays keeps
  next => exact .refl i _

theorem numbered (h : KeepsSlots s r) (own : s.Numbered) : r.1.Numbered := fun i t ht => by
  have kept := ht ▸ h.tasks i
  generalize before : s.task? i = o at kept
  cases kept with
  | enters own => exact own
  | stays keeps => exact keeps.id.trans (own i _ before)

theorem andThen {f : Scheduler → Result α} (h : KeepsSlots s r) (g : KeepsSlots r.1 (f r.1)) :
    KeepsSlots s (Scheduler.andThen r f) where
  tasks i := (h.tasks i).trans (g.tasks i)
  quiet := List.forall_mem_append.2 ⟨h.quiet, g.quiet⟩

theorem forEach {β : Type} {f : β → Scheduler → Result α}
    (step : ∀ b s, Numbered s → KeepsSlots s (f b s))
    (items : List β) (own : s.Numbered) : KeepsSlots s (forEach f items s) := by
  induction items generalizing s with
  | nil => exact .refl s
  | cons b rest ih =>
    rw [forEach_cons]
    have first := step b s own
    exact first.andThen (ih (first.numbered own))

end KeepsSlots

theorem checkIdle_keepsSlots (s : Scheduler) : KeepsSlots s (checkIdle s : Result α) := by
  unfold checkIdle
  split
  · exact .of_tasks rfl (by simp [IsTick])
  · exact .refl s

theorem fireToken_keepsSlots (reason : CancelReason) (id : Nat) (own : s.Numbered) :
    KeepsSlots s (fireToken reason id s : Result α) := by
  unfold fireToken
  split
  next t ht =>
    split
    next under_way =>
      have ht' : s.task? t.id = some t := (own id t ht).symm ▸ ht
      exact .of_replaces (replaces_put s _) ht' ⟨rfl, rfl, rfl, rfl, by simp [under_way], .inl rfl⟩
        (by simp [IsTick])
    next => exact .refl s
  next => exact .refl s

theorem cancel_keepsSlots (reason : CancelReason) (id : Nat) (own : s.Numbered) :
    KeepsSlots s (cancel reason id s : Result α) := by
  unfold cancel
  split
  next => exact .refl s
  next t ht =>
    split
    · exact .refl s
    · have ht' : s.task? t.id = some t := (own id t ht).symm ▸ ht
      have ended :
          KeepsSlots s ((s.unqueue t).finish t .cancelled, ([] : List (SchedulerEffect α))) :=
        .of_replaces (replaces_unqueue_finish s t .cancelled) ht'
          ⟨rfl, rfl, rfl, rfl, rfl, .inr rfl⟩ (by simp)
      have fired := ended.andThen (fireToken_keepsSlots reason id (ended.numbered own))
      have told := fired.andThen (f := fun s => (s, [.reject id (.cancelled reason),
        note "cancel" t [("reason", .text reason.word)]])) (.of_tasks rfl (by simp [IsTick, note]))
      exact told.andThen (checkIdle_keepsSlots _)

theorem declare_keepsSlots (read : List ReadEntry) (scope : ReadScope) (id : Nat)
    (own : s.Numbered) :
    KeepsSlots s (s.declare id read scope, ([] : List (SchedulerEffect α))) := by
  unfold declare
  split
  next t ht =>
    split
    · have ht' : s.task? t.id = some t := (own id t ht).symm ▸ ht
      exact .of_replaces (replaces_put s _) ht' ⟨rfl, rfl, rfl, rfl, rfl, .inl rfl⟩ (by simp)
    · exact .refl s
  next => exact .refl s

theorem invalidateRunning_keepsSlots (e : StoreEvent) (id : Nat) (own : s.Numbered) :
    KeepsSlots s (invalidateRunning e id s : Result α) := by
  unfold invalidateRunning
  split
  next => exact .refl s
  next t ht =>
    split
    · exact .refl s
    · split
      · exact cancel_keepsSlots .closed id own
      · have ht' : s.task? t.id = some t := (own id t ht).symm ▸ ht
        have marked : KeepsSlots s (s.put (markStale e.uri t),
            [(note "supersede" t [("uri", .text e.uri)] : SchedulerEffect α)]) :=
          .of_replaces (replaces_put s _) ht' ⟨rfl, rfl, rfl, rfl, rfl, .inl rfl⟩
            (by simp [IsTick, note])
        exact marked.andThen (fireToken_keepsSlots .superseded id (marked.numbered own))

theorem closeQueued_keepsSlots (uri : Uri) (id : Nat) (own : s.Numbered) :
    KeepsSlots s (closeQueued uri id s : Result α) := by
  unfold closeQueued
  split
  · split
    · exact cancel_keepsSlots .closed id own
    · exact .refl s
  · exact .refl s

theorem invalidate_keepsSlots (e : StoreEvent) (own : s.Numbered) :
    KeepsSlots s (invalidate e s : Result α) := by
  have running := KeepsSlots.forEach (α := α) (fun id _ => invalidateRunning_keepsSlots e id)
      s.running own
  have queued (items : List Nat) {s : Scheduler} (own : s.Numbered) :=
    KeepsSlots.forEach (α := α) (fun id _ => closeQueued_keepsSlots e.uri id) items own
  unfold invalidate
  dsimp only
  split
  · have interactive := running.andThen (f := fun s => forEach (closeQueued e.uri) s.interactive s)
      (queued _ (running.numbered own))
    exact interactive.andThen (queued _ (interactive.numbered own))
  · exact running

theorem dispose_keepsSlots (own : s.Numbered) : KeepsSlots s (dispose s : Result α) := by
  unfold dispose
  split
  · exact .refl s
  · have shut : KeepsSlots s ({ s with isDisposed := true }, ([] : List (SchedulerEffect α))) :=
      .of_tasks rfl (by simp)
    exact shut.andThen (.forEach (fun id _ => cancel_keepsSlots .disposed id) _ (shut.numbered own))

theorem idle_keepsSlots (waiter : Nat) (s : Scheduler) :
    KeepsSlots s (idle waiter s : Result α) := by
  unfold idle
  split
  · exact .of_tasks rfl (by simp [IsTick])
  · exact .of_tasks rfl (by simp)

/-- A task that enters has never run. -/
theorem record_keepsSlots (spec : TaskSpec) (fresh : s.task? s.nextTask = none) :
    KeepsSlots s (s.record spec, ([] : List (SchedulerEffect α))) := by
  refine ⟨fun i => ?_, by simp⟩
  change KeepsTask i _ ((s.record spec).task? i)
  rw [task?_record]
  split
  next own =>
    subst own
    exact fresh ▸ .enters rfl rfl rfl rfl
  next => exact .refl i _

/-! ## What a clock says of the tasks -/

end Scheduler

open Scheduler (Clock)

/-- What a clock says of a task: a timer runs just as long as it is timed, only a background attempt
that holds a slot is, an attempt that is under way belongs to a task that runs or has been
cancelled, and as long as a background task runs in a slot, the timer of its budget runs, too. -/
structure Task.Fits (k : Clock) (t : Task) : Prop where
  timer : (Dict.get? k.due t.id).isSome = t.isTimed
  timed : t.isTimed → t.holdsSlot ∧ t.spec.priority = .background
  busy : t.holdsSlot → t.attempt.isSome
  active : t.attempt.isSome → t.state = .running ∨ t.state = .cancelled
  budget : t.spec.priority = .background → t.holdsSlot → t.state = .running →
    ∃ began b, Dict.get? k.since t.id = some (began, b) ∧
    (0 < b → Dict.get? k.due t.id = some (began + b))

theorem Task.Fits.of_idle {k : Clock} {t : Task} (untimed : t.isTimed = false)
    (free : t.holdsSlot = false)
    (idle : t.attempt = none) (due : Dict.get? k.due t.id = none) : t.Fits k where
  timer := by simp [due, untimed]
  timed := by simp [untimed]
  busy := by simp [free]
  active := by simp [idle]
  budget := by simp [free]

theorem Task.Fits.idle {k : Clock} {t : Task} (fits : t.Fits k) (idle : t.attempt = none) :
    t.holdsSlot = false ∧ t.isTimed = false ∧ Dict.get? k.due t.id = none := by
  have free : t.holdsSlot = false := Bool.eq_false_iff.2 fun holds => by
    simpa [idle] using fits.busy holds
  have untimed : t.isTimed = false := Bool.eq_false_iff.2 fun timed => by
    simpa [free] using (fits.timed timed).1
  exact ⟨free, untimed, by simpa [untimed] using fits.timer⟩

theorem Task.Fits.keeps {k : Clock} {t t' : Task} (fits : t.Fits k) (keeps : t.Keeps t') :
    t'.Fits k where
  timer := by rw [keeps.id, keeps.isTimed, fits.timer]
  timed := by rw [keeps.isTimed, keeps.holdsSlot, keeps.spec]; exact fits.timed
  busy := by rw [keeps.holdsSlot, keeps.attempt]; exact fits.busy
  active := by
    rw [keeps.attempt]
    exact fun busy => keeps.state.elim (fun same => same ▸ fits.active busy) .inr
  budget := by
    rw [keeps.spec, keeps.holdsSlot, keeps.id]
    refine fun background holds runs => fits.budget background holds ?_
    exact keeps.state.elim (fun same => same ▸ runs) fun cancelled => by simp [cancelled] at runs

namespace Scheduler

variable {α : Type} {s s₁ s' : Scheduler} {id i b : Nat} {t t' : Task} {limits : Limits}
  {k k' : Clock} {effects : List (SchedulerEffect α)} {r : Result α}

/-- What a clock says of the tasks of a scheduler: no timer is late, and the tasks fit it. -/
structure InTime (s : Scheduler) (k : Clock) : Prop where
  ahead : ∀ {id d}, Dict.get? k.due id = some d → k.now ≤ d
  absent : ∀ {id}, s.task? id = none → Dict.get? k.due id = none
  fits : ∀ {id t}, s.task? id = some t → t.Fits k

theorem inTime_empty : InTime {} {} := ⟨by simp, by simp, by simp [Scheduler.task?]⟩

/-- What leaves the slots alone needs no clock. -/
theorem InTime.keepsSlots (h : s.InTime k) (keeps : KeepsSlots s r) (b : Nat) :
    r.1.InTime (k.noteAll b r.2) := by
  rw [noteAll_of_quiet keeps.quiet]
  have kept (i : Nat) := keeps.tasks i
  refine ⟨h.ahead, fun {i} none_ => ?_, fun {i t} ht => ?_⟩
  · have kept := none_ ▸ kept i
    generalize before : s.task? i = o at kept
    cases kept with
    | absent => exact h.absent before
  · have kept := ht ▸ kept i
    generalize before : s.task? i = o at kept
    cases kept with
    | enters own free untimed idle => exact .of_idle untimed free idle (own ▸ h.absent before)
    | stays keeps => exact (h.fits before).keeps keeps

/-- One task is written over, and the clock takes notice of it alone. -/
theorem InTime.write (h : s.InTime k) (numbered : s.Numbered) (r : s.Replaces t' s')
    (now : k'.now = k.now)
    (others : ∀ i ≠ t'.id, Dict.get? k'.due i = Dict.get? k.due i ∧ Dict.get? k'.since i =
      Dict.get? k.since i)
    (own : ∀ d, Dict.get? k'.due t'.id = some d → k.now ≤ d) (fits : t'.Fits k') :
    s'.InTime k' := by
  refine ⟨fun {i d} due => ?_, fun {i} none_ => ?_, fun {i t} ht => ?_⟩
  · rw [now]
    by_cases same : i = t'.id
    · exact own d (same ▸ due)
    · exact h.ahead ((others i same).1 ▸ due)
  · rw [r i] at none_
    split at none_
    · simp at none_
    next other => exact (others i other).1.trans (h.absent none_)
  · rw [r i] at ht
    split at ht
    · exact Option.some.inj ht ▸ fits
    next other =>
      have before := h.fits ht
      obtain ⟨due, since⟩ := others i other
      obtain rfl := numbered i t ht
      exact ⟨due ▸ before.timer, before.timed, before.busy, before.active,
        due ▸ since ▸ before.budget⟩

/-! ## Operations that start, end or demote attempts -/

def begun (timed : Bool) (t : Task) : Task :=
  { t with
    state := .running, attempts := t.attempts + 1, attempt := some {}, readSet := none
    supersededBy := none, holdsSlot := true, isTimed := timed || t.isTimed }

def Clock.begun (timed : Bool) (id b : Nat) (k : Clock) : Clock :=
  { k with
    due := if timed then Dict.put k.due id (k.now + b) else k.due
    since := Dict.put k.since id (k.now, b) }

theorem start_begun (α : Type) (limits : Limits) (ht : s.task? id = some t) (own : t.id = id)
    (k : Clock) :
    let b := limits.backgroundBudgetMs
    let timed := t.spec.priority == .background && decide (0 < b)
    s.Replaces (begun timed t) (start limits id s : Result α).1 ∧
      k.noteAll b (start limits id s : Result α).2 = k.begun timed id b := by
  subst own
  simp only [start, ht]
  refine ⟨fun i => task?_put s (begun _ t) i, ?_⟩
  split
  next timed => simp only [Clock.begun, timed]; rfl
  next untimed => simp only [Clock.begun, Bool.not_eq_true _ ▸ untimed]; rfl

theorem start_inTime (h : s.InTime k) (sound : s.Sound) (next : s.dequeue? = some (id, s₁)) :
    (start limits id s₁ : Result α).1.InTime
      (k.noteAll limits.backgroundBudgetMs (start limits id s₁ : Result α).2) := by
  obtain ⟨t, ht, queued, ht₁⟩ := sound.dequeued next
  obtain rfl := sound.id_eq ht
  obtain ⟨-, untimed, due⟩ := (h.fits ht).idle (sound.idle_of_queued ht queued)
  obtain ⟨writes, clock⟩ := start_begun α limits ht₁ rfl k
  have writes : s.Replaces _ (start limits t.id s₁ : Result α).1 := fun i => by
    rw [writes i, dequeue?_frame next]
    rfl
  rw [clock]
  generalize limits.backgroundBudgetMs = b at writes ⊢
  cases timed : t.spec.priority == .background && decide (0 < b) with
  | false =>
    have none_ : t.spec.priority = .background → ¬ 0 < b := by simpa using timed
    rw [timed] at writes
    refine h.write sound.numbered writes rfl (fun i other => ⟨rfl, Dict.get?_put_of_ne _ _ other⟩)
      (by simp [Clock.begun, begun, due]) ?_
    refine ⟨by simp [Clock.begun, begun, due, untimed], by simp [begun,
      untimed], fun _ => rfl, fun _ => .inl rfl, fun background _ _ => ?_⟩
    exact ⟨k.now, b, Dict.get?_put_self .., fun pos => absurd pos (none_ background)⟩
  | true =>
    obtain ⟨background, pos⟩ : t.spec.priority = .background ∧ 0 < b := by simpa using timed
    rw [timed] at writes
    refine h.write sound.numbered writes rfl
      (fun i other => ⟨Dict.get?_put_of_ne _ _ other, Dict.get?_put_of_ne _ _ other⟩)
      (by simp [Clock.begun, begun]) ?_
    refine ⟨by simp [Clock.begun, begun], fun _ => ⟨rfl,
      background⟩, fun _ => rfl, fun _ => .inl rfl, fun _ _ _ => ?_⟩
    exact ⟨k.now, b, Dict.get?_put_self .., fun _ => Dict.get?_put_self ..⟩

theorem pumpAtMost_inTime (n : Nat) (h : s.InTime k) (sound : s.Sound) :
    (pumpAtMost limits n s : Result α).1.InTime
      (k.noteAll limits.backgroundBudgetMs (pumpAtMost limits n s : Result α).2) := by
  induction n generalizing s k with
  | zero => exact h
  | succ n ih =>
    unfold pumpAtMost
    split
    · split
      next id s₁ next =>
        simp only [andThen, Clock.noteAll_append]
        exact ih (start_inTime h sound next) (start_leads (α := α) sound next).sound
      next => exact h
    · exact h

theorem pump_inTime (h : s.InTime k) (sound : s.Sound) :
    (pump limits s : Result α).1.InTime
      (k.noteAll limits.backgroundBudgetMs (pump limits s : Result α).2) := by
  simp only [pump, andThen, Clock.noteAll_append]
  exact (pumpAtMost_inTime _ h sound).keepsSlots (checkIdle_keepsSlots _) _

theorem supersede_quiet (t : Task) (uri : Uri) (s : Scheduler) :
    ∀ e ∈ (supersede limits t uri s : Result α).2, IsTick e = false := by
  unfold supersede
  split
  · simp [IsTick, note]
  · dsimp only
    split <;> simp [IsTick]

theorem conclude_quiet (versionOf : Uri → Option Int) (t : Task) (outcome : Except Failure α)
    (s : Scheduler) :
    ∀ e ∈ (conclude limits versionOf t outcome s).2, IsTick e = false := by
  unfold conclude
  split
  · exact supersede_quiet t _ s
  · split
    · simp [IsTick]
    next uri _ => exact List.forall_mem_cons.2 ⟨rfl, supersede_quiet t uri s⟩
  · simp [IsTick]
  · simp [IsTick]

/-- An attempt that comes back gives up its slot and its timer, whatever becomes of its task. -/
theorem settle_inTime (versionOf : Uri → Option Int) (outcome : Except Failure α) (h : s.InTime k)
    (sound : s.Sound) (ht : s.task? t.id = some t) (busy : t.attempt.isSome) :
    (settle limits versionOf t.id outcome s).1.InTime
      (k.noteAll limits.backgroundBudgetMs (settle limits versionOf t.id outcome s).2) := by
  rw [settle_eq_andThen versionOf outcome ht]
  generalize released_eq :
      (if t.isTimed then [.stopTimer t.id] else [] : List (SchedulerEffect α)) = released
  obtain ⟨now, due, others⟩ : (k.noteAll limits.backgroundBudgetMs released).now = k.now ∧
      Dict.get? (k.noteAll limits.backgroundBudgetMs released).due t.id = none ∧
      ∀ i ≠ t.id, Dict.get? (k.noteAll limits.backgroundBudgetMs released).due i =
        Dict.get? k.due i ∧
        Dict.get? (k.noteAll limits.backgroundBudgetMs released).since i = Dict.get? k.since i := by
    have timer := (h.fits ht).timer
    subst released_eq
    cases timed : t.isTimed with
    | false => exact ⟨rfl, by simpa [timed] using timer, fun _ _ => ⟨rfl, rfl⟩⟩
    | true => exact ⟨rfl, Dict.get?_erase_self ..,
      fun i other => ⟨Dict.get?_erase_of_ne _ other, rfl⟩⟩
  -- the task without its attempt fits the clock in any state
  have fits (state : TaskState) : Task.Fits (k.noteAll limits.backgroundBudgetMs released)
      { (s.withoutAttempt t).2 with state } := .of_idle rfl rfl rfl due
  have back : (s.withoutAttempt t).1.InTime (k.noteAll limits.backgroundBudgetMs released) :=
    h.write sound.numbered (replaces_put s (s.withoutAttempt t).2) now others
      (by simp [withoutAttempt, due]) (fits t.state)
  by_cases ended : t.state.isTerminal
  · simp only [andThen, ended, if_true, List.append_nil, Clock.noteAll_append]
    exact pump_inTime back (withoutAttempt_sound sound ht busy ended)
  · obtain ⟨state, stops, -⟩ :=
      conclude_stops limits versionOf outcome (s.withoutAttempt t).1 (s.withoutAttempt t).2
    obtain ⟨writes, sound'⟩ := stops.sound sound ht busy
    simp only [andThen, ended, Bool.false_eq_true, if_false, Clock.noteAll_append,
      noteAll_of_quiet (conclude_quiet versionOf _ outcome _)]
    exact pump_inTime (h.write sound.numbered writes now others (by simp [withoutAttempt, due])
      (fits state)) sound'

/-- A timer that fires is over, and so is the slot of an attempt that runs. -/
theorem demote_inTime (h : s.InTime k) (sound : s.Sound) (ht : s.task? t.id = some t) :
    (demote limits t.id s : Result α).1.InTime
      (({ k with due := Dict.erase k.due t.id } : Clock).noteAll
      limits.backgroundBudgetMs (demote limits t.id s : Result α).2) := by
  have fits := h.fits ht
  have others (i : Nat) (other : i ≠ t.id) : Dict.get? (Dict.erase k.due t.id) i =
      Dict.get? k.due i ∧
      Dict.get? k.since i = Dict.get? k.since i := ⟨Dict.get?_erase_of_ne _ other, rfl⟩
  have own (d : Nat) (due : Dict.get? (Dict.erase k.due t.id) t.id = some d) : k.now ≤ d := by
    simp at due
  unfold demote
  simp only [ht]
  split
  next gives =>
    obtain ⟨holds, runs⟩ : t.holdsSlot ∧ t.state = .running := by simpa using gives
    have yielded : (s.yieldSlot t).InTime { k with due := Dict.erase k.due t.id } :=
      h.write sound.numbered (replaces_yieldSlot s t) rfl others own
        ⟨by simp, by simp, by simp, fits.active, by simp⟩
    have step : Step limits (.demote t.id : Call α) s [] [] (s.yieldSlot t) := .demote ht holds runs
    exact pump_inTime yielded (step.sound sound)
  next keeps =>
    refine h.write sound.numbered (replaces_put s { t with isTimed := false }) rfl others own
      ⟨by simp, by simp, fits.busy, fits.active, fun _ holds runs => ?_⟩
    exact absurd (by simpa using ⟨holds, runs⟩) keeps

theorem submit_inTime (spec : TaskSpec) (reason : Option CancelReason) (h : s.InTime k)
    (sound : s.Sound) :
    (submit limits spec reason s : Result α).1.InTime
      (k.noteAll limits.backgroundBudgetMs (submit limits spec reason s : Result α).2) := by
  have fresh : s.task? s.nextTask = none := Option.eq_none_iff_forall_ne_some.2 fun t ht =>
    absurd (sound.lt_next ht) (Nat.lt_irrefl _)
  have recorded : KeepsSlots s (s.record spec, ([] : List (SchedulerEffect α))) :=
    record_keepsSlots spec fresh
  have own := recorded.numbered sound.numbered
  unfold submit
  dsimp only
  split
  · exact h.keepsSlots (recorded.andThen (cancel_keepsSlots .disposed s.nextTask own)) _
  · have entered : KeepsSlots s ((s.record spec).enqueue { id := s.nextTask, spec },
        ([note "submit" { id := s.nextTask, spec } [("priority", .text spec.priority.word)]] :
          List (SchedulerEffect α))) := by
      refine recorded.andThen (f := fun s' => (s'.enqueue { id := s.nextTask, spec }, _))
        (.of_tasks ?_ ?_)
      · unfold enqueue
        split <;> rfl
      · simp [IsTick, note]
    have step : Step limits (.submit spec reason : Call α) s [] [] _ := .enter spec
    simp only [andThen, Clock.noteAll_append]
    cases reason with
    | none => exact pump_inTime (h.keepsSlots entered _) (step.sound sound)
    | some reason =>
      have cancelled := cancel_keepsSlots (α := α) reason s.nextTask
          (entered.numbered sound.numbered)
      have sound' := (cancel_calm (α := α) reason s.nextTask (step.sound sound)).sound_of_calm
          (step.sound sound)
      exact pump_inTime ((h.keepsSlots entered _).keepsSlots cancelled _) sound'

/-- Every call keeps to what the clock says. -/
theorem Call.inTime (versionOf : Uri → Option Int) (c : Call α) (h : s.InTime k) (sound : s.Sound)
    (allowed : c.Allowed s) : (c.apply limits versionOf s).1.InTime
      ((k.meet c).noteAll limits.backgroundBudgetMs (c.apply limits versionOf s).2) := by
  cases c with
  | submit spec reason => exact submit_inTime spec reason h sound
  | declare id n read scope =>
    simp only [Call.apply]
    split
    · exact h.keepsSlots (declare_keepsSlots (α := α) read scope id sound.numbered) _
    · exact h
  | invalidate e => exact h.keepsSlots (invalidate_keepsSlots (α := α) e sound.numbered) _
  | cancel reason id => exact h.keepsSlots (cancel_keepsSlots (α := α) reason id sound.numbered) _
  | settle id n outcome =>
    obtain ⟨t, ht, busy, -⟩ := underWay?_eq_some_iff.1 (by simpa [Call.Allowed] using allowed)
    obtain rfl := sound.id_eq ht
    exact settle_inTime versionOf outcome h sound ht busy
  | demote id =>
    obtain ⟨t, ht, -⟩ : ∃ t, s.task? id = some t ∧ t.isTimed := by
      simpa [Call.Allowed, isTimed, Option.any_eq_true] using allowed
    obtain rfl := sound.id_eq ht
    exact demote_inTime h sound ht
  | idle waiter => exact h.keepsSlots (idle_keepsSlots (α := α) waiter s) _
  | dispose => exact h.keepsSlots (dispose_keepsSlots (α := α) sound.numbered) _

/-! ## Runs with a clock -/

/-- At every time of a run the clock tells what is so. -/
theorem Timed.inTime {h : List (Moment α)} (run : Timed h s k) : s.InTime k := by
  induction run with
  | start => exact inTime_empty
  | @wait h s k run ms early ih =>
    refine ⟨fun {id d} due => ?_, ih.absent, fun ht => ?_⟩
    · obtain ⟨front, behind, eq, -⟩ := Dict.get?_eq_some_split due
      exact of_decide_eq_true (List.all_eq_true.1 early (id, d) (eq ▸ by simp))
    · have fits := ih.fits ht
      exact ⟨fits.timer, fits.timed, fits.busy, fits.active, fits.budget⟩
  | step before allowed _ ih => exact Call.inTime _ _ ih before.reached.sound allowed

/-- Starting tasks leaves those alone that have an attempt under way. -/
theorem task?_pump (sound : s.Sound) (busy : s.IsBusy id) :
    (pump limits s : Result α).1.task? id = s.task? id := by
  have started (n : Nat) (s : Scheduler) (sound : s.Sound) (busy : s.IsBusy id) :
      (pumpAtMost limits n s : Result α).1.task? id = s.task? id := by
    induction n generalizing s with
    | zero => rfl
    | succ n ih =>
      unfold pumpAtMost
      split
      · split
        next id' s₁ next =>
          obtain ⟨t, ht, queued, -⟩ := sound.dequeued next
          obtain ⟨t', starts, -, writes, -⟩ := sound.starts (α := α) limits next ht
          have own : t'.id = id' := starts.id.trans (sound.id_eq ht)
          have other : id ≠ t'.id := by
            rintro rfl
            simp [own, isBusy_iff ht, sound.idle_of_queued ht queued] at busy
          have same := (writes id).trans (if_neg other)
          refine (ih _ (start_leads (α := α) sound next).sound ?_).trans same
          simpa only [IsBusy, same] using busy
        next => rfl
      · rfl
  have idle (s : Scheduler) : (checkIdle s : Result α).1.task? id = s.task? id := by
    unfold checkIdle
    split <;> rfl
  exact (idle _).trans (started _ s sound busy)

/-- What happens when the budget of a task is used up. It is that of a background attempt that still
holds its slot. Its task runs, stale or not, or it has been cancelled; if it runs, then and only
then the slot is given back, and what is queued starts as far as there are slots. -/
structure Moment.Yields (m : Moment α) (t : Task) : Prop where
  background : t.spec.priority = .background
  holds : t.holdsSlot
  unwinds : t.attempt.isSome
  state : t.state = .running ∨ t.state = .cancelled
  freed : m.after.holdsSlot t.id = false ↔ t.state = .running
  full : t.state = .running → m.after.Full m.limits

theorem demote_yields {m : Moment α} (h : m.before.InTime k) (sound : m.before.Sound)
    (call : m.call = .demote id)
    (allowed : m.call.Allowed m.before) : ∃ t, m.before.task? id = some t ∧ m.Yields t := by
  obtain ⟨t, ht, timed⟩ : ∃ t, m.before.task? id = some t ∧ t.isTimed := by
    simpa [call, Call.Allowed, isTimed, Option.any_eq_true] using allowed
  obtain rfl := sound.id_eq ht
  have fits := h.fits ht
  obtain ⟨holds, background⟩ := fits.timed timed
  have busy := fits.busy holds
  have after : m.after = (demote m.limits t.id m.before : Result α).1 := by
    rw [Moment.after, Moment.result, call]
    rfl
  by_cases runs : t.state = .running
  · have step : Step m.limits m.call m.before [] [] (m.before.yieldSlot t) := .demote ht holds runs
    have yields : (demote m.limits t.id m.before : Result α) =
        andThen (m.before.yieldSlot t, [note "demote" t []]) (pump m.limits) := by
      simp only [demote, ht]
      exact if_pos (by simp [holds, runs])
    have sound' := step.sound sound
    have own : (m.before.yieldSlot t).task? t.id =
        some { t with isTimed := false, holdsSlot := false } :=
      (replaces_yieldSlot m.before t t.id).trans (if_pos rfl)
    have kept : m.after.task? t.id = some { t with isTimed := false, holdsSlot := false } := by
      rw [after, yields]
      exact (task?_pump sound' ⟨_, own, busy⟩).trans own
    refine ⟨t, ht, background, holds, busy, .inl runs, ?_, fun _ => ?_⟩
    · simp [Scheduler.holdsSlot, kept, runs]
    · rw [after, yields]
      exact full_pump sound'
  · have keeps : demote m.limits t.id m.before =
        (m.before.put { t with isTimed := false }, ([] : List (SchedulerEffect α))) := by
      simp [demote, ht, runs]
    refine ⟨t, ht, background, holds, busy, fits.active busy, ?_, fun r => absurd r runs⟩
    rw [after, keeps]
    simp [Scheduler.holdsSlot, holds, runs]

/-- When a budget is used up, the attempt gives its slot back and what is queued starts, unless the
task has been cancelled; and no background task that has not been cancelled holds a slot longer than
its budget. -/
theorem Timed.budget_kept {h : List (Moment α)} (run : Timed h s k) :
    (∀ m ∈ h, ∀ id, m.call = .demote id → ∃ t, m.before.task? id = some t ∧ m.Yields t) ∧
    ∀ {id t}, s.task? id = some t → t.spec.priority = .background → t.holdsSlot →
    t.state = .running →
      ∃ began b, Dict.get? k.since id = some (began, b) ∧ (0 < b → k.now ≤ began + b) := by
  constructor
  · induction run with
    | start => simp
    | wait _ _ _ ih => exact ih
    | @step m h k before allowed _ ih =>
      refine List.forall_mem_cons.2 ⟨fun id call => ?_, ih⟩
      exact demote_yields before.inTime before.reached.sound call allowed
  · intro id t ht background holds runs
    have inTime := run.inTime
    obtain ⟨began, b, since, due⟩ := (inTime.fits ht).budget background holds runs
    obtain rfl := run.reached.sound.id_eq ht
    exact ⟨began, b, since, fun pos => inTime.ahead (due pos)⟩

/-! ## Given runs -/

/-- Time passes, or a call is made. -/
inductive Event (α : Type) where
  | wait (ms : Nat)
  | call (c : Call α)

/-- The run of given events, the latest first, under limits and versions that stay as they are. -/
def rehearse (limits : Limits) (versionOf : Uri → Option Int) :
    List (Event α) → List (Moment α) × Scheduler × Clock
  | [] => ([], {}, {})
  | .wait ms :: earlier =>
    let (h, s, k) := rehearse limits versionOf earlier
    (h, s, { k with now := k.now + ms })
  | .call c :: earlier =>
    let (h, s, k) := rehearse limits versionOf earlier
    let m : Moment α := ⟨limits, versionOf, s, c⟩
    (m :: h, m.after, k.after m)

/-- Each call is allowed when it is made, and no timer is missed. -/
def IsPunctual (limits : Limits) (versionOf : Uri → Option Int) : List (Event α) → Bool
  | [] => true
  | .wait ms :: earlier =>
    let (_, _, k) := rehearse limits versionOf earlier
    IsPunctual limits versionOf earlier && k.Allows (k.now + ms)
  | .call c :: earlier =>
    let (_, s, k) := rehearse limits versionOf earlier
    IsPunctual limits versionOf earlier && (c.Allowed s && c.IsDue k)

theorem timed_rehearse (limits : Limits) (versionOf : Uri → Option Int) (events : List (Event α))
    (punctual : IsPunctual limits versionOf events) :
    Timed (rehearse limits versionOf events).1 (rehearse limits versionOf events).2.1
      (rehearse limits versionOf events).2.2 := by
  induction events with
  | nil => exact .start
  | cons e earlier ih =>
    cases e with
    | wait ms =>
      simp only [IsPunctual, Bool.and_eq_true] at punctual
      exact .wait (ih punctual.1) ms punctual.2
    | call c =>
      simp only [IsPunctual, Bool.and_eq_true] at punctual
      exact .step (m := ⟨limits, versionOf, _, c⟩) (ih punctual.1) punctual.2.1 punctual.2.2

/-- With one slot: an attempt of a background task is made stale while an interactive task waits,
and then its budget is used up. -/
def staleRun : List (Moment Nat) × Scheduler × Clock :=
  rehearse ⟨1, 2, 500⟩ (fun _ => none)
    [.call (.demote 1), .wait 300, .call (.invalidate ⟨.edit, "/m", some 2⟩), .wait 200,
      .call (.submit ⟨"b", .interactive, none⟩ none),
      .call (.submit ⟨"a", .background, some "/m"⟩ none)]

/-- The stale attempt gives its slot to the task that waits. -/
theorem budget_kept_stale : Timed staleRun.1 staleRun.2.1 staleRun.2.2 ∧ staleRun.2.1.running =
    [1, 2] ∧
    (∀ m ∈ staleRun.1, ∀ id, m.call = .demote id → ∃ t, m.before.task? id = some t ∧ m.Yields t) ∧
    ∀ {id t}, staleRun.2.1.task? id = some t → t.spec.priority = .background → t.holdsSlot →
    t.state = .running →
      ∃ began b, Dict.get? staleRun.2.2.since id = some (began, b) ∧
      (0 < b → staleRun.2.2.now ≤ began + b) := by
  have run : Timed staleRun.1 staleRun.2.1 staleRun.2.2 := timed_rehearse _ _ _ (by decide +kernel)
  exact ⟨run, by decide +kernel, run.budget_kept⟩

def cancelledRun : List (Moment Nat) × Scheduler × Clock :=
  rehearse ⟨1, 2, 500⟩ (fun _ => none)
    [.call (.demote 1), .wait 500, .call (.submit ⟨"b", .interactive, none⟩ none),
      .call (.cancel .client 1), .call (.submit ⟨"a", .background, none⟩ none)]

/-- An attempt whose task has been cancelled keeps its slot when its budget is used up. -/
theorem not_slot_free_of_demote :
    ¬ ∀ (h : List (Moment Nat)) (s : Scheduler) (k : Clock), Timed h s k →
    (∀ m ∈ h, 0 < m.limits.backgroundBudgetMs) →
    ∀ m ∈ h, ∀ id, m.call = .demote id → m.after.holdsSlot id = false := by
  intro all
  have run : Timed cancelledRun.1 cancelledRun.2.1 cancelledRun.2.2 :=
    timed_rehearse _ _ _ (by decide +kernel)
  have budget : ∀ m ∈ cancelledRun.1, 0 < m.limits.backgroundBudgetMs := by decide +kernel
  have freed : cancelledRun.2.1.holdsSlot 1 = false :=
    all _ _ _ run budget _ (List.Mem.head _) 1 rfl
  exact absurd freed (by decide +kernel)

end Scheduler

end Quill
