import Quill.Proofs.Scheduler.Steps

/-!
# What is published is current

An attempt publishes its value only if nothing it depends on changed while it was under way: not its
target until it said what it had read, nothing that it had read from then on, and no document that
came in addition for an attempt that depends on all of them. At the end the documents it has read
are at the versions it read. A document that changed and changed back does not pass, since the
change was noticed when it happened.

## Main definitions

* `Moment.Names`, `Moment.Opens`, `Moment.Declares` — what the call of a moment is about.
* `DeclaresOnce` — no attempt says twice what it has read.
* `Scheduler.Undisturbed` — the history of an attempt that nothing has disturbed.
* `Scheduler.Lives` — how an attempt can be live after a call.

## Main statements

* `Reached.resolve_undisturbed` — an attempt that publishes its value was not disturbed.
-/

namespace Quill

def Task.declared? (t : Task) : Option (List ReadEntry × ReadScope) :=
  t.readSet.map fun read => (read, t.readScope)

namespace Scheduler

variable {α : Type} {s s' : Scheduler} {id : Nat} {t t' : Task} {limits : Limits}

/-- The call tells of a change of the document. -/
def Moment.Names (m : Moment α) (uri : Uri) : Prop := ∃ e, m.call = .invalidate e ∧ e.uri = uri

/-- The call tells of a document that was opened. -/
def Moment.Opens (m : Moment α) : Prop := ∃ e, m.call = .invalidate e ∧ e.kind = .open

/-- The task and the attempt that say what they have read. -/
def Call.declaration? : Call α → Option (Nat × Nat)
  | .declare id n _ _ => some (id, n)
  | _ => none

/-- The attempt says what it has read. -/
def Moment.Declares (m : Moment α) (id n : Nat) : Prop := m.call.declaration? = some (id, n)

/-- No attempt says twice what it has read. -/
def DeclaresOnce (h : List (Moment α)) : Prop := (h.filterMap (·.call.declaration?)).Nodup

instance (h : List (Moment α)) : Decidable (DeclaresOnce h) :=
  inferInstanceAs (Decidable (List.Nodup _))

theorem DeclaresOnce.of_cons {m : Moment α} {h : List (Moment α)} (once : DeclaresOnce (m :: h)) :
    DeclaresOnce h ∧ ∀ id n, m.Declares id n → ∀ m' ∈ h, ¬ m'.Declares id n := by
  unfold DeclaresOnce at once ⊢
  cases declares : m.call.declaration? with
  | none => exact ⟨by simpa [declares] using once, by simp [Moment.Declares, declares]⟩
  | some p =>
    have cons : (m :: h).filterMap (·.call.declaration?) = p :: h.filterMap (·.call.declaration?) :=
      List.filterMap_cons_some declares
    rw [cons, List.nodup_cons] at once
    refine ⟨once.2, fun id n eq m' hm again => once.1 ?_⟩
    obtain rfl : p = (id, n) := by simpa [Moment.Declares, declares] using eq
    exact List.mem_filterMap.2 ⟨m', hm, again⟩

/-- Since the attempt `n` of the task began, nothing happened that disturbs it: no event named its
target before it said what it had read, if it did; and from then on no event named a document it had
read, nor was any document opened if it depends on all of them. The latest moment is first. -/
inductive Undisturbed (id n : Nat) (target : Option Uri) :
    Option (List ReadEntry × ReadScope) → List (Moment α) → Prop
  | undeclared {since earlier : List (Moment α)} {start : Moment α}
    (starts : .begin id n ∈ start.effects)
    (last : ∀ m ∈ since, ∀ k, .begin id k ∉ m.effects)
    (silent : ∀ m ∈ since, ¬ m.Declares id n)
    (before : ∀ m ∈ since, ∀ uri, target = some uri → ¬ m.Names uri) :
    Undisturbed id n target none (since ++ start :: earlier)
  | declared {since between earlier : List (Moment α)} {declaration start : Moment α}
    {read : List ReadEntry} {scope : ReadScope}
    (starts : .begin id n ∈ start.effects)
    (last : ∀ m ∈ since ++ declaration :: between, ∀ k, .begin id k ∉ m.effects)
    (declares : declaration.call = .declare id n read scope)
    (before : ∀ m ∈ between, ∀ uri, target = some uri → ¬ m.Names uri)
    (after : ∀ m ∈ since, ∀ e ∈ read, ¬ m.Names e.uri)
    (closed : scope = .workspace → ∀ m ∈ since, ¬ m.Opens) :
    Undisturbed id n target (some (read, scope))
      (since ++ declaration :: between ++ start :: earlier)

/-- How an attempt is live after a call: it began, it went on undisturbed, or it said what it has
read. -/
inductive Lives (m : Moment α) (id : Nat) (t' : Task) : Prop
  | begun (starts : .begin id t'.attempts ∈ m.effects) (unread : t'.readSet = none)
  | kept {t : Task} (ht : m.before.task? id = some t) (live : t.IsLive) (same : t.Continues t')
    (last : ∀ k, .begin id k ∉ m.effects) (silent : ¬ m.Declares id t.attempts)
    (unaffected : ∀ e, m.call = .invalidate e → t.isAffectedBy e = false)
  | declared {t : Task} {read : List ReadEntry} {scope : ReadScope}
    (ht : m.before.task? id = some t) (live : t.IsLive)
    (call : m.call = .declare id t.attempts read scope)
    (written : t' = { t with readSet := some read, readScope := scope })

/-- What is live after steps that begin these attempts. -/
theorem Leads.lives {m : Moment α} (leads : Leads m.before m.after (begins m.effects))
    (sound : m.before.Sound) (silent : ∀ n, ¬ m.Declares id n)
    (other : ∀ e, m.call ≠ .invalidate e) (ht : m.after.task? id = some t') (live : t'.IsLive) :
    Lives m id t' := by
  obtain ⟨new, unread⟩ | ⟨t, ht, live, same⟩ := leads.live ht live
  · exact .begun (mem_begins.1 new) unread
  · refine .kept ht live same ?_ (silent _) fun e eq => absurd eq (other e)
    intro k new
    exact (leads.begun (mem_begins.2 new)).1 ⟨t, ht, sound.busy_of_running ht live.1⟩

theorem Moment.lives {m : Moment α} (sound : m.before.Sound) (allowed : m.call.Allowed m.before)
    (ht : m.after.task? id = some t') (live : t'.IsLive) : Lives m id t' := by
  obtain ⟨limits, versionOf, s, call⟩ := m
  cases call with
  | submit spec reason =>
    exact (submit_leads (α := α) spec reason sound).lives sound
      (by simp [Moment.Declares, Call.declaration?]) (by simp) ht live
  | cancel reason i =>
    exact (cancel_leads (α := α) reason i sound).lives sound
      (by simp [Moment.Declares, Call.declaration?]) (by simp) ht live
  | demote i =>
    exact (demote_leads (α := α) i sound).lives sound (by simp [Moment.Declares, Call.declaration?])
      (by simp) ht live
  | idle waiter =>
    exact (idle_leads (α := α) waiter sound).lives sound
      (by simp [Moment.Declares, Call.declaration?]) (by simp) ht live
  | dispose =>
    exact (dispose_leads (α := α) sound).lives sound (by simp [Moment.Declares, Call.declaration?])
      (by simp) ht live
  | invalidate e =>
    obtain ⟨t, before, live, same, unaffected⟩ := live_of_invalidate (α := α) e sound ht live
    refine .kept before live same ?_ (by simp [Moment.Declares, Call.declaration?]) ?_
    · intro k new
      have none : begins (Scheduler.invalidate e s : Result α).2 = [] := begins_invalidate e s
      have new : (id, k) ∈ begins (Scheduler.invalidate e s : Result α).2 := mem_begins.2 new
      simp [none] at new
    · intro e' eq
      obtain rfl : e = e' := by simpa using eq
      exact unaffected
  | declare i n read scope =>
    have after : (Moment.after ⟨limits, versionOf, s, .declare (α := α) i n read scope⟩) =
        if s.underWay? i = some n then s.declare i read scope else s := rfl
    rw [after] at ht
    split at ht
    next current =>
      obtain ⟨t, ht', busy, rfl⟩ := underWay?_eq_some_iff.1 current
      rw [task?_declare read scope sound] at ht
      split at ht
      next e =>
        subst e
        obtain rfl : { t with readSet := some read, readScope := scope } = t' := by
          simpa [ht', busy] using ht
        exact .declared ht' ⟨live.1, live.2⟩ rfl rfl
      next e =>
        refine .kept ht live (.refl t') (by simp [Moment.effects, Moment.result, Call.apply]) ?_
          (by simp)
        intro declares
        simp only [Moment.Declares, Call.declaration?, Option.some.injEq, Prod.mk.injEq] at declares
        exact e declares.1.symm
    next late =>
      refine .kept ht live (.refl t') (by simp [Moment.effects, Moment.result, Call.apply]) ?_
        (by simp)
      intro declares
      obtain ⟨rfl, rfl⟩ : i = id ∧ n = t'.attempts := by
        simpa [Moment.Declares, Call.declaration?] using declares
      exact late (underWay?_eq_some_iff.2 ⟨t', ht, sound.busy_of_running ht live.1, rfl⟩)
  | settle i n outcome =>
    obtain ⟨t₀, ht₀, busy, rfl⟩ := underWay?_eq_some_iff.1 (by simpa [Call.Allowed] using allowed)
    obtain rfl := sound.id_eq ht₀
    obtain ⟨u, s', effects, ends, result⟩ : ∃ u s' effects,
        EndsAttempt versionOf outcome t₀ s u s' effects ∧
        Moment.result ⟨limits, versionOf, s, .settle t₀.id t₀.attempts outcome⟩ =
          andThen (s', effects) (pump limits) := settle_eq versionOf outcome sound ht₀ busy
    have pumped : Leads s' (pump limits s' : Result α).1 (begins (pump limits s' : Result α).2) :=
      pump_leads ends.sound
    have begun (k) :
        .begin id k ∈ Moment.effects ⟨limits, versionOf, s, .settle t₀.id t₀.attempts outcome⟩ ↔
        (id, k) ∈ begins (pump limits s' : Result α).2 := by
      rw [Moment.effects, result, ← mem_begins]
      simp [andThen, ends.begins]
    rw [Moment.after, result] at ht
    obtain ⟨new, unread⟩ | ⟨t, ht, live, same⟩ := pumped.live ht live
    · exact .begun ((begun _).2 new) unread
    have other : id ≠ u.id := by
      rintro rfl
      rw [ends.replaces, if_pos rfl] at ht
      obtain rfl := Option.some.inj ht
      exact ends.stops live.1
    have before : s.task? id = some t := by rw [← ht, ends.replaces, if_neg other]
    refine .kept before live same ?_ (by simp [Moment.Declares, Call.declaration?]) (by simp)
    intro k new
    exact (pumped.begun ((begun k).1 new)).1 ⟨t, ht, ends.sound.busy_of_running ht live.1⟩

/-- An event that does not concern an attempt that has not said what it has read does not name its
target. -/
theorem not_names_target {m : Moment α} (unread : t.declared? = none)
    (unaffected : ∀ e, m.call = .invalidate e → t.isAffectedBy e = false) (uri : Uri)
    (target : t.spec.target = some uri) : ¬ m.Names uri := by
  rintro ⟨e, call, rfl⟩
  have none : t.readSet = none := by simpa [Task.declared?] using unread
  simpa [Task.isAffectedBy, none, target] using unaffected e call

/-- An event that does not concern an attempt names nothing it has read, and opens nothing if the
attempt depends on all documents. -/
theorem not_names_read {m : Moment α} {read : List ReadEntry} {scope : ReadScope}
    (declared : t.declared? = some (read, scope))
    (unaffected : ∀ e, m.call = .invalidate e → t.isAffectedBy e = false) :
    (∀ e ∈ read, ¬ m.Names e.uri) ∧ (scope = .workspace → ¬ m.Opens) := by
  obtain ⟨_, some, eq⟩ := Option.map_eq_some_iff.1 declared
  obtain ⟨rfl, rfl⟩ : _ = read ∧ _ = scope := by simpa using eq
  constructor
  · rintro entry mem ⟨e, call, named⟩
    have free := unaffected e call
    simp only [Task.isAffectedBy, some, Bool.or_eq_false_iff, List.any_eq_false] at free
    exact free.1 entry mem (by simp [named])
  · rintro workspace ⟨e, call, opened⟩
    have free := unaffected e call
    simp [Task.isAffectedBy, some, workspace, opened] at free

/-- An attempt that a call leaves alone is still undisturbed after it. -/
theorem Undisturbed.cons {m : Moment α} {h : List (Moment α)}
    (und : Undisturbed id t.attempts t.spec.target t.declared? h)
    (last : ∀ k, .begin id k ∉ m.effects) (silent : ¬ m.Declares id t.attempts)
    (unaffected : ∀ e, m.call = .invalidate e → t.isAffectedBy e = false) :
    Undisturbed id t.attempts t.spec.target t.declared? (m :: h) := by
  generalize declared : t.declared? = d at und ⊢
  cases und with
  | @undeclared since earlier start starts last' silent' before =>
    change Undisturbed id t.attempts t.spec.target none ((m :: since) ++ start :: earlier)
    exact .undeclared starts (List.forall_mem_cons.2 ⟨last, last'⟩)
      (List.forall_mem_cons.2 ⟨silent, silent'⟩)
      (List.forall_mem_cons.2 ⟨not_names_target declared unaffected, before⟩)
  | @declared since between earlier declaration start read scope starts last' declares before
    after closed =>
    obtain ⟨read', opens⟩ := not_names_read declared unaffected
    change Undisturbed id t.attempts t.spec.target (some (read, scope))
      ((m :: since) ++ declaration :: between ++ start :: earlier)
    exact .declared starts (List.forall_mem_cons.2 ⟨last, last'⟩) declares before
      (List.forall_mem_cons.2 ⟨read', after⟩)
      fun workspace => List.forall_mem_cons.2 ⟨opens workspace, closed workspace⟩

/-- What an attempt says it has read is said once, so it had not said anything before. -/
theorem Undisturbed.declare {m : Moment α} {h : List (Moment α)} {n : Nat} {target : Option Uri}
    {d : Option (List ReadEntry × ReadScope)} {read : List ReadEntry} {scope : ReadScope}
    (und : Undisturbed id n target d h) (call : m.call = .declare id n read scope)
    (last : ∀ k, .begin id k ∉ m.effects)
    (once : ∀ m' ∈ h, ¬ m'.Declares id n) :
    Undisturbed id n target (some (read, scope)) (m :: h) := by
  cases und with
  | @undeclared since earlier start starts last' _ before =>
    change Undisturbed id n target (some (read, scope)) ([] ++ m :: since ++ start :: earlier)
    exact .declared starts (List.forall_mem_cons.2 ⟨last, last'⟩) call before (by simp) (by simp)
  | @declared since between earlier declaration start read scope _ _ declares =>
    have said : declaration.Declares id n := by simp [Moment.Declares, declares, Call.declaration?]
    exact absurd said (once declaration (by simp))

theorem Reached.undisturbed {h : List (Moment α)} (run : Reached h s) (once : DeclaresOnce h)
    (ht : s.task? id = some t) (live : t.IsLive) :
    Undisturbed id t.attempts t.spec.target t.declared? h := by
  induction run generalizing t with
  | start => simp [Scheduler.task?] at ht
  | @step m h before allowed ih =>
    obtain ⟨once, first⟩ := once.of_cons
    cases Moment.lives before.sound allowed ht live with
    | begun starts unread =>
      have undeclared : t.declared? = none := by simp [Task.declared?, unread]
      rw [undeclared]
      change Undisturbed id t.attempts t.spec.target none ([] ++ m :: h)
      exact .undeclared starts (by simp) (by simp) (by simp)
    | kept hu live same last silent unaffected =>
      have und := (ih once hu live).cons last silent unaffected
      rwa [← same.attempts, ← same.spec, Task.declared?, ← same.readSet, ← same.readScope] at und
    | @declared u read scope hu live call written =>
      have last (k) : .begin id k ∉ m.effects := by
        simp [Moment.effects, Moment.result, call, Call.apply]
      subst written
      exact (ih once hu live).declare call last
        (first id _ (by simp [Moment.Declares, call, Call.declaration?]))

/-- A value is given only when the attempt comes back with it. -/
theorem Steps.settle_of_value {c : Call α} {given : List (Nat × Except Failure α)}
    {begun : List (Nat × Nat)} (steps : Steps (Step limits c) s given begun s') {value : α}
    (mem : (id, .ok value) ∈ given) : ∃ n, c = .settle id n (.ok value) := by
  induction steps with
  | refl => simp at mem
  | step first _ ih =>
    rcases List.mem_append.1 mem with mem | mem
    · cases first with
      | calm h => cases h <;> simp at mem
      | finish _ _ ends =>
        obtain ⟨rfl, rfl⟩ := by simpa using mem
        cases ends with | completed back => exact ⟨_, back⟩
      | enter | start | lapse | retry | demote => simp at mem
    · exact ih mem

theorem mem_outcomes_ok {effects : List (SchedulerEffect α)} {value : α} :
    (id, .ok value) ∈ outcomes effects ↔ .resolve id value ∈ effects := by
  simp only [outcomes, List.mem_filterMap]
  constructor
  · rintro ⟨e, he, eq⟩
    cases e <;> simp_all [SchedulerEffect.outcome?]
  · exact fun h => ⟨_, h, rfl⟩

/-- An attempt publishes its value only when it comes back with it, nothing has disturbed it since
it began, and every document it has read is open at the version it read, or not open if it was not
read from the client. -/
theorem Reached.resolve_undisturbed {m : Moment α} {h : List (Moment α)} (run : Reached (m :: h) s)
    (once : DeclaresOnce h) {value : α} (published : .resolve id value ∈ m.effects) :
    ∃ t, m.before.task? id = some t ∧ m.call = .settle id t.attempts (.ok value) ∧
      Undisturbed id t.attempts t.spec.target t.declared? h ∧
      ∀ read scope, t.declared? = some (read, scope) → ∀ e ∈ read,
        (e.origin = .memory → m.versionOf e.uri = some e.version) ∧
        (e.origin ≠ .memory → m.versionOf e.uri = none) := by
  cases run with | step before allowed =>
  have sound := before.sound
  obtain ⟨n, call⟩ := (m.call.steps m.limits m.versionOf sound allowed).settle_of_value
    (mem_outcomes_ok.2 published)
  rw [call] at allowed
  obtain ⟨t, ht, busy, rfl⟩ := underWay?_eq_some_iff.1 (by simpa [Call.Allowed] using allowed)
  have result : m.result = settle m.limits m.versionOf id (.ok value) m.before := by
    rw [Moment.result, call]
    rfl
  rw [Moment.effects, result] at published
  obtain ⟨u, hu, -, live, -, current⟩ :=
    resolve_settle m.versionOf (.ok value) sound ⟨t, ht, busy⟩ published
  obtain rfl : t = u := by simpa [ht] using hu
  refine ⟨t, ht, call, before.undisturbed once ht live, ?_⟩
  intro read scope declared e mem
  obtain ⟨_, some, eq⟩ := Option.map_eq_some_iff.1 declared
  obtain ⟨rfl, -⟩ : _ = read ∧ _ = scope := by simpa using eq
  have at_version := Task.staleUri?_eq_none_iff.1 current _ some e mem
  constructor <;> intro origin <;> simpa [Task.isCurrent, origin] using at_version

/-- One document is open, at its first version. -/
def onlyA (uri : Uri) : Option Int := if uri = "a" then some 1 else none

def unconcerned : List (Moment Nat) × Scheduler :=
  play ⟨2, 2, 500⟩ onlyA
    [.invalidate ⟨.edit, "b", some 2⟩, .declare 1 1 [⟨"a", 1, .memory⟩] .document,
      .submit ⟨"read", .interactive, some "a"⟩ none]

/-- The attempt comes back. -/
def unconcernedEnd : Moment Nat := ⟨⟨2, 2, 500⟩, onlyA, unconcerned.2, .settle 1 1 (.ok 5)⟩

/-- Its value is published, and it was not disturbed. -/
theorem resolve_undisturbed_unconcerned :
    Reached (unconcernedEnd :: unconcerned.1) unconcernedEnd.after ∧ DeclaresOnce unconcerned.1 ∧
    .resolve 1 5 ∈ unconcernedEnd.effects ∧
    ∃ t, unconcernedEnd.before.task? 1 = some t ∧
      unconcernedEnd.call = .settle 1 t.attempts (.ok 5) ∧
      Undisturbed 1 t.attempts t.spec.target t.declared? unconcerned.1 ∧
      ∀ read scope, t.declared? = some (read, scope) → ∀ e ∈ read,
        (e.origin = .memory → unconcernedEnd.versionOf e.uri = some e.version) ∧
        (e.origin ≠ .memory → unconcernedEnd.versionOf e.uri = none) := by
  have run : Reached (unconcernedEnd :: unconcerned.1) unconcernedEnd.after :=
    .step (reached_play _ _ (by decide)) (by decide)
  have once : DeclaresOnce unconcerned.1 := by decide
  have given : outcomes unconcernedEnd.effects = [(1, .ok 5)] := rfl
  have published : .resolve 1 5 ∈ unconcernedEnd.effects := mem_outcomes_ok.1 (by simp [given])
  exact ⟨run, once, published, run.resolve_undisturbed once published⟩

end Scheduler

end Quill
