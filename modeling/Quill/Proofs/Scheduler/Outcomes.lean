import Quill.Proofs.Scheduler.Steps

/-!
# Every task ends once

A task that is over stays as it is, whatever comes back later. It gets its result at the moment at
which it ends, once, and the result goes with the state it ends in. The counters add up.

## Main definitions

* `Moment.given`, `Scheduler.attemptsIn` — the results a task gets at a moment, and how many of its
  attempts begin in a history.
* `Scheduler.EndedAt` — a task ended at a moment of a history.
* `Scheduler.Change` — what a call may do to one task.

## Main statements

* `Reached.ended_once` — every task ends at one moment at most, and all tasks are accounted for.
-/

namespace Quill.Scheduler

variable {α : Type} {s s' : Scheduler} {id : Nat} {t t' : Task} {limits : Limits} {c : Call α}

/-! ## Counting -/

def endedCount (s : Scheduler) : Nat :=
  s.counters.completed + s.counters.cancelled + s.counters.superseded + s.counters.failed

def unfinished (s : Scheduler) : Nat := s.tasks.countP fun e => !e.2.state.isTerminal

def Balanced (s : Scheduler) : Prop := s.counters.submitted = s.endedCount + s.unfinished

theorem unfinished_put (s : Scheduler) (t : Task) :
    (s.put t).unfinished + (if (s.task? t.id).any (!·.state.isTerminal) then 1 else 0) =
      s.unfinished + if !t.state.isTerminal then 1 else 0 :=
  Dict.countP_put s.tasks t.id t (!·.state.isTerminal)

/-- A task that is written over by one that has ended just as little, or just as much, changes no
number. -/
theorem unfinished_put_of_eq (ht : s.task? t.id = some t) (id : t'.id = t.id)
    (same : t'.state.isTerminal = t.state.isTerminal) : (s.put t').unfinished = s.unfinished := by
  have := unfinished_put s t'
  rw [id, ht, same] at this
  simpa using this

theorem balanced_finish {state : TaskState} (h : s.Balanced) (ht : s.task? t.id = some t)
    (active : t.state.isTerminal = false) (ended : state.isTerminal) :
    (s.finish t state).Balanced := by
  have fewer : (s.put { t with state }).unfinished + 1 = s.unfinished := by
    have := unfinished_put s { t with state }
    simpa [ht, active, ended] using this
  have same : (s.finish t state).unfinished = (s.put { t with state }).unfinished := rfl
  unfold Balanced at *
  rw [same]
  cases state with
  | queued | running => simp [TaskState.isTerminal] at ended
  | completed | cancelled | superseded | failed =>
    simp only [finish, count, put, endedCount] at *
    omega

/-- The counters and how many tasks have not ended decide. -/
theorem Balanced.congr (h : s.Balanced) (submitted : s'.counters.submitted = s.counters.submitted)
    (ended : s'.endedCount = s.endedCount) (unfinished : s'.unfinished = s.unfinished) :
    s'.Balanced := by
  unfold Balanced at *
  omega

/-- A task that is new is not in the table. -/
theorem Sound.task?_nextTask (h : s.Sound) : s.task? s.nextTask = none := by
  cases ht : s.task? s.nextTask with
  | none => rfl
  | some u => exact absurd (h.lt_next ht) (Nat.lt_irrefl _)

theorem balanced_record (h : s.Sound) (balanced : s.Balanced) (spec : TaskSpec) :
    (s.record spec).Balanced := by
  have more : (s.record spec).unfinished = s.unfinished + 1 := by
    have := unfinished_put s { id := s.nextTask, spec }
    rw [h.task?_nextTask] at this
    exact this
  unfold Balanced at *
  rw [more]
  simp only [record, count, put, endedCount] at *
  omega

theorem Balanced.unqueue (h : s.Balanced) (t : Task) : (s.unqueue t).Balanced := by
  unfold Scheduler.unqueue
  split <;> exact h

theorem Balanced.enqueue (h : s.Balanced) (t : Task) : (s.enqueue t).Balanced := by
  unfold Scheduler.enqueue
  split <;> exact h

/-- A task whose attempt has come back is where it was. -/
theorem Balanced.withoutAttempt (h : s.Balanced) (ht : s.task? t.id = some t) :
    (s.withoutAttempt t).1.Balanced := by
  have same : (s.put (s.withoutAttempt t).2).unfinished = s.unfinished :=
    unfinished_put_of_eq ht rfl rfl
  exact h.congr rfl rfl same

theorem task?_withoutAttempt (s : Scheduler) (t : Task) :
    (s.withoutAttempt t).1.task? t.id = some (s.withoutAttempt t).2 := by
  change (s.put (s.withoutAttempt t).2).task? t.id = _
  simp [Scheduler.withoutAttempt]

/-- No step loses a task. -/
theorem Calm.balanced {given : List (Nat × Except Failure α)} {begun : List (Nat × Nat)}
    (sound : s.Sound) (h : s.Balanced) (step : Calm s given begun s') : s'.Balanced := by
  cases step with
  | rewrite ht stands =>
    exact h.congr rfl rfl (unfinished_put_of_eq ht stands.id (congrArg _ stands.state))
  | cancel ht active _ => exact balanced_finish (h.unqueue _) (by simpa using ht) active rfl
  | refuse spec _ =>
    exact balanced_finish ((balanced_record sound h spec).unqueue _) (by simp) rfl rfl
  | wake | wait | shut => exact h

theorem Step.balanced {given : List (Nat × Except Failure α)} {begun : List (Nat × Nat)}
    (sound : s.Sound) (h : s.Balanced) (step : Step limits c s given begun s') : s'.Balanced := by
  have active {t : Task} (runs : t.state = .running) : t.state.isTerminal = false := by
    simp [runs, TaskState.isTerminal]
  cases step with
  | calm step => exact step.balanced sound h
  | enter spec => exact (balanced_record sound h spec).enqueue _
  | @start _ s₁ i t _ next ht =>
    obtain ⟨t', starts, queued, -, eq⟩ := sound.starts (α := α) limits next ht
    have ht : s.task? t.id = some t := by rw [sound.id_eq ht, ht]
    have same := unfinished_put_of_eq ht starts.id (by rw [starts.state, queued]; rfl)
    rw [eq]
    exact h.congr rfl rfl same
  | lapse ht _ _ => exact h.withoutAttempt ht
  | finish ht runs ends =>
    exact balanced_finish (h.withoutAttempt ht) (task?_withoutAttempt _ _) (active runs)
      ends.isTerminal
  | @retry _ t ht runs _ _ =>
    let t' : Task := { (s.withoutAttempt t).2 with state := .queued }
    have same : ((s.withoutAttempt t).1.put t').unfinished = (s.withoutAttempt t).1.unfinished :=
      unfinished_put_of_eq (t := (s.withoutAttempt t).2) (task?_withoutAttempt s t) rfl
        (active runs).symm
    exact (h.withoutAttempt ht).congr rfl rfl same
  | demote ht _ _ => exact h.congr rfl rfl (unfinished_put_of_eq ht rfl rfl)

theorem Steps.balanced {given : List (Nat × Except Failure α)} {begun : List (Nat × Nat)}
    (sound : s.Sound) (h : s.Balanced) (steps : Steps (Step limits c) s given begun s') :
    s'.Balanced := by
  induction steps with
  | refl => exact h
  | step first _ ih => exact ih (first.sound sound) (first.balanced sound h)

/-! ## One task -/

def resultsOf (id : Nat) (given : List (Nat × Except Failure α)) : List (Except Failure α) :=
  given.filterMap fun p => if p.1 = id then some p.2 else none

@[simp] theorem resultsOf_append (id : Nat) (a b : List (Nat × Except Failure α)) :
    resultsOf id (a ++ b) = resultsOf id a ++ resultsOf id b := by simp [resultsOf]

/-- How many of the attempts that begin are of one task. -/
def beginsOf (id : Nat) (begun : List (Nat × Nat)) : Nat := begun.countP (·.1 = id)

@[simp] theorem beginsOf_append (id : Nat) (a b : List (Nat × Nat)) :
    beginsOf id (a ++ b) = beginsOf id a + beginsOf id b := by simp [beginsOf]

def Pending (o : Option Task) : Prop := ∀ t, o = some t → t.state.isTerminal = false

def tries (o : Option Task) : Nat := (o.map Task.attempts).getD 0

/-- What may happen to one task: nothing that counts, once it is over; else attempts begin, and it
may end, with a result that goes with its state. -/
inductive Change (c : Call α) (id : Nat) :
    Option Task → List (Except Failure α) → Nat → Option Task → Prop
  | absent : Change c id none [] 0 none
  | remains {t t' : Task} (ended : t.state.isTerminal) (state : t'.state = t.state)
    (attempts : t'.attempts = t.attempts) : Change c id (some t) [] 0 (some t')
  | goesOn {o : Option Task} {t' : Task} {n : Nat} (before : Pending o)
    (after : t'.state.isTerminal = false) (attempts : t'.attempts = tries o + n) :
    Change c id o [] n (some t')
  | ends {o : Option Task} {t' : Task} {n : Nat} {r : Except Failure α} (before : Pending o)
    (attempts : t'.attempts = tries o + n) (ends : EndsWith c id t'.attempts t'.state r) :
    Change c id o [r] n (some t')

theorem Change.refl (o : Option Task) : Change c id o [] 0 o := by
  cases o with
  | none => exact .absent
  | some t =>
    by_cases ended : t.state.isTerminal
    · exact .remains ended rfl rfl
    · exact .goesOn (by simpa [Pending] using ended) (by simpa using ended) rfl

theorem Change.trans {o o' o'' : Option Task} {a b : List (Except Failure α)} {m n : Nat}
    (h : Change c id o a m o') (g : Change c id o' b n o'') :
    Change c id o (a ++ b) (m + n) o'' := by
  cases h with
  | absent => simpa using g
  | remains ended state attempts =>
    cases g with
    | remains _ state' attempts' =>
      exact .remains ended (state'.trans state) (attempts'.trans attempts)
    | goesOn before => exact absurd (before _ rfl) (by simp [state, ended])
    | ends before => exact absurd (before _ rfl) (by simp [state, ended])
  | goesOn before after attempts =>
    cases g with
    | remains ended => exact absurd ended (by simp [after])
    | goesOn _ after' attempts' =>
      exact .goesOn before after' (by simp [attempts', tries, attempts]; omega)
    | ends _ attempts' ends =>
      exact .ends before (by simp [attempts', tries, attempts]; omega) ends
  | ends before attempts ends =>
    cases g with
    | remains _ state' attempts' =>
      exact .ends before (attempts'.trans attempts) (by rwa [state', attempts'])
    | goesOn before' => exact absurd (before' _ rfl) (by simp [ends.isTerminal])
    | ends before' => exact absurd (before' _ rfl) (by simp [ends.isTerminal])

section Consequences

variable {o o' : Option Task} {given : List (Except Failure α)} {n : Nat}

/-- A task is tried as often as its attempts begin. -/
theorem Change.tries (h : Change c id o given n o') : tries o' = tries o + n := by
  cases h with
  | absent => rfl
  | remains _ _ attempts | goesOn _ _ attempts | ends _ attempts _ =>
    simpa [Scheduler.tries] using attempts

/-- A task that has not ended had not ended before and gets no result. -/
theorem Change.pending (h : Change c id o given n o') (pending : Pending o') :
    Pending o ∧ given = [] := by
  cases h with
  | absent => exact ⟨pending, rfl⟩
  | remains ended state _ => exact absurd (pending _ rfl) (by simp [state, ended])
  | goesOn before _ _ => exact ⟨before, rfl⟩
  | ends _ _ ends => exact absurd (pending _ rfl) (by simp [ends.isTerminal])

theorem Change.ended (h : Change c id o given n o') (ht : o' = some t')
    (ended : t'.state.isTerminal) :
    (∃ t, o = some t ∧ t.state.isTerminal ∧ t'.state = t.state ∧ t'.attempts = t.attempts ∧
      given = []) ∨
    Pending o ∧ ∃ r, given = [r] ∧ EndsWith c id t'.attempts t'.state r := by
  cases h with
  | absent => simp at ht
  | remains before state attempts =>
    obtain rfl := Option.some.inj ht
    exact .inl ⟨_, rfl, before, state, attempts, rfl⟩
  | goesOn _ after _ =>
    obtain rfl := Option.some.inj ht
    simp [after] at ended
  | ends before _ ends =>
    obtain rfl := Option.some.inj ht
    exact .inr ⟨before, _, rfl, ends⟩

end Consequences

theorem Change.of_replaces {given : List (Nat × Except Failure α)} {begun : List (Nat × Nat)}
    (r : s.Replaces t' s') (results : ∀ p ∈ given, p.1 = t'.id) (begins : ∀ p ∈ begun, p.1 = t'.id)
    (own : Change c t'.id (s.task? t'.id) (resultsOf t'.id given) (beginsOf t'.id begun) (some t'))
    (id : Nat) :
    Change c id (s.task? id) (resultsOf id given) (beginsOf id begun) (s'.task? id) := by
  rw [r id]
  split
  next e => exact e ▸ own
  next e =>
    have none : resultsOf id given = [] := by
      refine List.filterMap_eq_nil_iff.2 fun p hp => if_neg ?_
      exact fun same => e (same.symm.trans (results p hp))
    have zero : beginsOf id begun = 0 := by
      refine List.countP_eq_zero.2 fun p hp => ?_
      simpa using fun same => e (same.symm.trans (begins p hp))
    rw [none, zero]
    exact .refl _

theorem Change.of_tasks (same : s'.tasks = s.tasks) (id : Nat) :
    Change c id (s.task? id) [] 0 (s'.task? id) := by
  have eq : s'.task? id = s.task? id := by simp [Scheduler.task?, same]
  rw [eq]
  exact .refl _

theorem pending_none : Pending none := by simp [Pending]

theorem pending_some (active : t.state.isTerminal = false) : Pending (some t) := by
  simpa [Pending] using active

theorem Calm.change {given : List (Nat × Except Failure α)} {begun : List (Nat × Nat)}
    (sound : s.Sound) (step : Calm s given begun s') (id : Nat) :
    Change c id (s.task? id) (resultsOf id given) (beginsOf id begun) (s'.task? id) := by
  cases step with
  | @rewrite _ t t' ht stands =>
    refine .of_replaces (replaces_put s t') (by simp) (by simp) ?_ id
    rw [stands.id, ht]
    by_cases ended : t.state.isTerminal
    · exact .remains ended stands.state stands.attempts
    · have ended : t.state.isTerminal = false := by simpa using ended
      exact .goesOn (pending_some ended) (by rw [stands.state, ended]) stands.attempts
  | @cancel _ t ht active reason =>
    refine .of_replaces (replaces_unqueue_finish s t .cancelled) (by simp) (by simp) ?_ id
    rw [ht]
    simpa [resultsOf] using .ends (pending_some active) rfl (.cancelled reason)
  | refuse spec reason =>
    refine .of_replaces (replaces_refuse s spec) (by simp) (by simp) ?_ id
    rw [sound.task?_nextTask]
    simpa [resultsOf] using .ends pending_none rfl (.cancelled reason)
  | wake | wait | shut => exact .of_tasks rfl id

theorem Step.change {given : List (Nat × Except Failure α)} {begun : List (Nat × Nat)}
    (sound : s.Sound) (step : Step limits c s given begun s') (id : Nat) :
    Change c id (s.task? id) (resultsOf id given) (beginsOf id begun) (s'.task? id) := by
  have active {t : Task} (runs : t.state = .running) : t.state.isTerminal = false := by
    simp [runs, TaskState.isTerminal]
  cases step with
  | calm step => exact step.change sound id
  | enter spec =>
    refine .of_replaces (replaces_enter s spec) (by simp) (by simp) ?_ id
    rw [sound.task?_nextTask]
    exact .goesOn pending_none rfl rfl
  | @start _ s₁ i t _ next ht =>
    obtain ⟨t', starts, queued, r, -⟩ := sound.starts (α := α) limits next ht
    have same := starts.id.trans (sound.id_eq ht)
    refine .of_replaces r (by simp) (by simp [same]) ?_ id
    rw [same, ht]
    simpa [beginsOf] using .goesOn (pending_some (by simp [queued, TaskState.isTerminal]))
      (by simp [starts.state, TaskState.isTerminal]) starts.attempts
  | @lapse _ t ht _ ended =>
    refine .of_replaces (replaces_put s (s.withoutAttempt t).2) (by simp) (by simp) ?_ id
    exact ht ▸ .remains ended rfl rfl
  | @finish _ t state r ht runs ends =>
    have stops := finish_stops (α := α) (s.withoutAttempt t).1 (s.withoutAttempt t).2
      ends.isTerminal [] rfl
    refine .of_replaces (stops.sound sound ht (sound.busy_of_running ht runs)).1
      (by simp [Scheduler.withoutAttempt]) (by simp) ?_ id
    have own : Change c t.id (some t) [r] 0 (some { (s.withoutAttempt t).2 with state }) :=
      .ends (pending_some (active runs)) rfl ends
    simpa [resultsOf, beginsOf, ht, Scheduler.withoutAttempt] using own
  | @retry _ t ht runs interactive _ =>
    have stops := retry_stops (α := α) (s.withoutAttempt t).1 (s.withoutAttempt t).2 interactive
        [] rfl
    refine .of_replaces (stops.sound sound ht (sound.busy_of_running ht runs)).1 (by simp)
      (by simp) ?_ id
    exact ht ▸ .goesOn (pending_some (active runs)) rfl rfl
  | @demote _ t ht _ runs =>
    refine .of_replaces (replaces_yieldSlot s t) (by simp) (by simp) ?_ id
    exact ht ▸ .goesOn (pending_some (active runs)) (active runs) rfl

theorem Steps.change {given : List (Nat × Except Failure α)} {begun : List (Nat × Nat)}
    (sound : s.Sound) (steps : Steps (Step limits c) s given begun s') (id : Nat) :
    Change c id (s.task? id) (resultsOf id given) (beginsOf id begun) (s'.task? id) := by
  induction steps with
  | refl => exact .refl _
  | step first _ ih =>
    rw [resultsOf_append, beginsOf_append]
    exact (first.change sound id).trans (ih (first.sound sound))

/-! ## Histories -/

def Moment.given (m : Moment α) (id : Nat) : List (Except Failure α) :=
  resultsOf id (outcomes m.effects)

/-- How many attempts of a task begin in a history. -/
def attemptsIn (h : List (Moment α)) (id : Nat) : Nat :=
  beginsOf id (h.flatMap fun m => begins m.effects)

/-- The task `t` ended at the moment `m`: there it got its result, which goes with its state and
with how often it was tried. It got none before and gets none after it, and it was not over before
and stays as it ended. -/
structure EndedAt (id : Nat) (t : Task) (later : List (Moment α)) (m : Moment α)
    (earlier : List (Moment α)) : Prop where
  result : ∃ r, m.given id = [r] ∧ EndsWith m.call id t.attempts t.state r
  once : ∀ m' ∈ later ++ earlier, m'.given id = []
  active : ∀ m' ∈ m :: earlier, ∀ u, m'.before.task? id = some u → u.state.isTerminal = false
  stays : ∀ m' ∈ m :: later, ∃ u, m'.after.task? id = some u ∧ u.state = t.state ∧
    u.attempts = t.attempts

/-- What a history tells of a task. -/
structure Told (id : Nat) (h : List (Moment α)) (o : Option Task) : Prop where
  tries : tries o = attemptsIn h id
  pending : Pending o → ∀ m ∈ h, m.given id = [] ∧ Pending (m.before.task? id)
  ended : ∀ t, o = some t → t.state.isTerminal →
    ∃ later m earlier, h = later ++ m :: earlier ∧ EndedAt id t later m earlier

theorem Told.step {m : Moment α} {h : List (Moment α)} (told : Told id h (m.before.task? id))
    (change : Change m.call id (m.before.task? id) (m.given id) (beginsOf id (begins m.effects))
      (m.after.task? id)) :
    Told id (m :: h) (m.after.task? id) where
  tries := by
    have more : attemptsIn (m :: h) id = beginsOf id (begins m.effects) + attemptsIn h id :=
      beginsOf_append id (begins m.effects) _
    rw [change.tries, told.tries, more, Nat.add_comm]
  pending := by
    intro open' m' hm
    obtain ⟨before, silent⟩ := change.pending open'
    rcases List.mem_cons.1 hm with rfl | hm
    · exact ⟨silent, before⟩
    · exact told.pending before m' hm
  ended := by
    intro t after ended
    obtain ⟨u, before, ended, state, attempts, silent⟩ | ⟨before, r, gives, ends⟩ :=
      change.ended after ended
    · obtain ⟨later, n, earlier, rfl, at_n⟩ := told.ended u before ended
      refine ⟨m :: later, n, earlier, rfl, ?_, ?_, at_n.active, ?_⟩
      · rw [state, attempts]
        exact at_n.result
      · rw [List.cons_append]
        exact List.forall_mem_cons.2 ⟨silent, at_n.once⟩
      · intro m' hm
        rw [state, attempts]
        rcases List.mem_cons.1 hm with rfl | hm
        · exact at_n.stays _ List.mem_cons_self
        rcases List.mem_cons.1 hm with rfl | hm
        · exact ⟨t, after, state, attempts⟩
        · exact at_n.stays m' (List.mem_cons_of_mem _ hm)
    · have quiet := told.pending before
      refine ⟨[], m, h, rfl, ⟨r, gives, ends⟩, fun m' hm => (quiet m' hm).1, ?_, ?_⟩
      · exact List.forall_mem_cons.2 ⟨before, fun m' hm => (quiet m' hm).2⟩
      · simpa using ⟨t, after, rfl, rfl⟩

/-- Every task gets its result once, at the moment at which it ends; from then on it stays as it is.
At all times the tasks that were submitted are those that ended and those that did not. -/
theorem Reached.ended_once {h : List (Moment α)} (run : Reached h s) :
    s.counters.submitted = s.endedCount + s.unfinished ∧
    ∀ id t, s.task? id = some t →
      t.attempts = attemptsIn h id ∧
      (t.state.isTerminal = false → ∀ m ∈ h, m.given id = []) ∧
      (t.state.isTerminal →
        ∃ later m earlier, h = later ++ m :: earlier ∧ EndedAt id t later m earlier) := by
  have told (id) : Told id h (s.task? id) := by
    induction run with
    | start => exact ⟨rfl, by simp, by simp [Scheduler.task?]⟩
    | step before allowed ih =>
      exact ih.step ((Call.steps _ _ _ before.sound allowed).change before.sound id)
  have balanced : s.Balanced := by
    clear told
    induction run with
    | start => rfl
    | step before allowed ih =>
      exact (Call.steps _ _ _ before.sound allowed).balanced before.sound ih
  refine ⟨balanced, fun id t ht => ⟨?_, fun active m hm => ?_, (told id).ended t ht⟩⟩
  · simpa [tries, ht] using (told id).tries
  · exact ((told id).pending (ht ▸ pending_some active) m hm).1

/-- A task is cancelled while its attempt runs, and the attempt comes back with a value
afterwards. -/
def lateValue : List (Moment Nat) × Scheduler :=
  play ⟨2, 2, 500⟩ (fun _ => none)
    [.settle 1 1 (.ok 5), .cancel .client 1, .submit ⟨"late", .interactive, none⟩ none]

/-- The value that comes too late reaches nobody. -/
theorem ended_once_lateValue :
    Reached lateValue.1 lateValue.2 ∧
    (lateValue.2.task? 1).map Task.state = some .cancelled ∧
    lateValue.2.counters.submitted = lateValue.2.endedCount + lateValue.2.unfinished ∧
    ∃ t later m earlier, lateValue.2.task? 1 = some t ∧
      lateValue.1 = later ++ m :: earlier ∧ EndedAt 1 t later m earlier := by
  have run : Reached lateValue.1 lateValue.2 := reached_play _ _ (by decide)
  have cancelled : (lateValue.2.task? 1).map Task.state = some .cancelled := by decide
  obtain ⟨t, ht, state⟩ := Option.map_eq_some_iff.1 cancelled
  obtain ⟨balanced, tasks⟩ := run.ended_once
  obtain ⟨-, -, ended⟩ := tasks 1 t ht
  obtain ⟨later, m, earlier, eq, at_m⟩ := ended (by simp [state, TaskState.isTerminal])
  exact ⟨run, cancelled, balanced, t, later, m, earlier, ht, eq, at_m⟩

end Quill.Scheduler
