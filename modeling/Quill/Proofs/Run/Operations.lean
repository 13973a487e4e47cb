import Quill.Proofs.Run.Steps

/-!
# What an operation does to the threads

An operation from outside carries no flow on. It may let what waits go on, submit tasks that begin
an attempt, or bring in a flow of its own.

## Main definitions

* `Engine.Operated` — what an operation has done; `apply_operated` says that it always has.
-/

namespace Quill

/-- The operation submits a task for this work: that of a query that is asked. -/
def Operation.Submits : Operation → TaskBody → Prop
  | .ask _ q _, body => body = .flow fun _ => q.run.bind fun a => .done (.ok (.answered a))
  | _, _ => False

namespace Engine

structure Operated (e : Engine) (o : Operation) (r : Step) (begun : List (Nat × Nat)) : Prop where
  host : r.1.host = e.host
  leases : r.1.leases = e.leases
  scheduler : e.scheduler.Leads r.1.scheduler begun
  /-- An engine is disposed of once; everything else leaves a disposed engine so. -/
  disposal : r.1.isDisposed = e.isDisposed ∧ e.scheduler.Stays r.1.scheduler begun ∨
    e.isDisposed = false ∧ r.1.isDisposed = true ∧
      r.1.scheduler = (Scheduler.dispose e.scheduler : Scheduler.Result Fact).1
  bodies : e.Submits r.1.bodies o.Submits
  mem : ∀ {x}, x ∈ after r → x.owner?.isSome → x ∈ e.held ∨
    (∃ task n, (task, n) ∈ begun ∧ x = .begin task n) ∨
    ∃ ticket f, o = .errand ticket f ∧ x = .go (.errand ticket) f
  count : ∀ task, countOf (.attempt task) (after r) ≤
    countOf (.attempt task) e.held + bornOf (.attempt task) begun

variable {e e' : Engine} {o : Operation} {actions : List EngineAction} {begun : List (Nat × Nat)}

/-- An operation that moves no flow. -/
theorem operated_still (sound : e.scheduler.Sound) (host : e'.host = e.host)
    (leases : e'.leases = e.leases) (scheduler : e'.scheduler = e.scheduler)
    (bodies : e'.bodies = e.bodies) (held : e'.held = e.held)
    (isDisposed : e'.isDisposed = e.isDisposed)
    (none : ∀ x ∈ worksOf actions, x.owner? = none) : Operated e o (e', actions) [] where
  host := host
  leases := leases
  scheduler := by
    rw [scheduler]
    exact .refl sound
  disposal := by
    rw [scheduler]
    exact .inl ⟨isDisposed, .refl _⟩
  bodies := .inl bodies
  mem := by
    intro x hx own
    rw [after, held] at hx
    rcases List.mem_append.1 hx with hx | hx
    · simp [none x hx] at own
    · exact .inl hx
  count := by
    intro task
    rw [after, countOf_append, countOf_eq_zero none, held]
    omega

theorem operated_schedule (e e' : Engine) (f : Scheduler → Scheduler.Result Fact)
    (host : e'.host = e.host) (leases : e'.leases = e.leases)
    (leads : e.scheduler.Leads (f e'.scheduler).1 (Scheduler.begins (f e'.scheduler).2))
    (disposal : e'.isDisposed = e.isDisposed ∧ e.scheduler.StaysWith (f e'.scheduler) ∨
      e.isDisposed = false ∧ e'.isDisposed = true ∧
        (f e'.scheduler).1 = (Scheduler.dispose e.scheduler : Scheduler.Result Fact).1)
    (bodies : e.Submits e'.bodies o.Submits)
    (held : e'.held = e.held) :
    Operated e o (e'.schedule f) (Scheduler.begins (f e'.scheduler).2) where
  host := host
  leases := leases
  scheduler := leads
  disposal := disposal
  bodies := bodies
  mem := by
    intro x hx own
    rcases List.mem_append.1 hx with hx | hx
    · obtain ⟨task, n, rfl, new⟩ := mem_worksOf_scheduler hx own
      exact .inr (.inl ⟨task, n, new, rfl⟩)
    · exact .inl (held ▸ hx)
  count := by
    intro task
    have same : (e'.schedule f).1.held = e.held := held
    rw [after, countOf_append, same, schedule, countOf_worksOf_scheduler]
    exact Nat.le_of_eq (Nat.add_comm ..)

/-- What carries no flow on may be done before and after. -/
theorem Operated.around {before behind : List EngineAction} (h : Operated e o (e', actions) begun)
    (first : ∀ x ∈ worksOf before, x.owner? = none) (last : ∀ x ∈ worksOf behind, x.owner? = none) :
    Operated e o (e', before ++ actions ++ behind) begun where
  host := h.host
  leases := h.leases
  scheduler := h.scheduler
  disposal := h.disposal
  bodies := h.bodies
  mem := by
    intro x hx own
    refine h.mem ?_ own
    simp only [after, worksOf_append, List.mem_append] at hx ⊢
    rcases hx with ((hx | hx) | hx) | hx
    · simp [first x hx] at own
    · exact .inl hx
    · simp [last x hx] at own
    · exact .inr hx
  count := by
    intro task
    have := h.count task
    simp only [after, worksOf_append, countOf_append, countOf_eq_zero first,
      countOf_eq_zero last] at this ⊢
    omega

theorem publisher_silent (e : Engine) (f : Surroundings → Publisher → Publisher.Result) :
    ∀ x ∈ worksOf (e.publish f).2, x.owner? = none := fun _ hx => owner?_of_publisher hx

theorem publish_operated (sound : e.scheduler.Sound)
    (f : Surroundings → Publisher → Publisher.Result) : Operated e o (e.publish f) [] :=
  operated_still sound rfl rfl rfl rfl rfl rfl (e.publisher_silent f)

/-- The parts of the engine hear of a change of the store. -/
theorem afterStore_operated (sound : e.scheduler.Sound) (r : StoreResult) :
    Operated e o ((e.afterStore r).engine, (e.afterStore r).actions) [] := by
  unfold afterStore
  simp only
  split
  next => exact operated_still sound rfl rfl rfl rfl rfl rfl (by simp)
  next event _ =>
    split
    next => exact operated_still sound rfl rfl rfl rfl rfl rfl (by simp)
    next =>
      have leads := Scheduler.invalidate_leads (α := Fact) event sound
      have scheduled : Operated e o (Engine.schedule { e with store := r.store }
          (Scheduler.invalidate event)) [] := by
        have := operated_schedule (o := o) e { e with store := r.store }
            (Scheduler.invalidate event) rfl rfl
          (by simpa using leads) (.inl ⟨rfl, Scheduler.stays_invalidate event _⟩) (.inl rfl) rfl
        simpa using this
      exact scheduled.around (by simp) (by simp [Action.work?, EngineWork.owner?])

theorem submitFor_operated (sound : e.scheduler.Sound) (ticket : Nat) (spec : TaskSpec)
    {f : Nat → Flow Fact} (token : Option Text) (submits : o.Submits (.flow f)) :
    ∃ begun, Operated e o (e.submitFor ticket spec f token) begun := by
  unfold submitFor submit
  exact ⟨_, operated_schedule e _ _ rfl rfl (Scheduler.submit_leads (α := Fact) _ _ sound)
    (.inl ⟨rfl, Scheduler.stays_submit _ _ _⟩) (.inr ⟨_, submits, rfl⟩) rfl⟩

theorem openGate_operated (sound : e.scheduler.Sound) (name : Text) :
    Operated e o (e.openGate name) [] := by
  have works (ws : List (Text × Owner × Flow Fact)) :
      worksOf (ws.map fun w => (.later 0 (.go w.2.1 w.2.2) : EngineAction)) =
        ws.map fun w => .go w.2.1 w.2.2 := by
    simp [worksOf, List.filterMap_map, Function.comp_def, Action.work?]
  have perm : (after (e.openGate name)).Perm e.held := by
    have split := List.filter_append_perm (fun w : Text × Owner × Flow Fact => w.1 = name) e.waiting
    unfold openGate after
    simp only [List.partition_eq_filter_filter, works, held]
    refine (List.perm_append_comm_assoc _ _ _).trans (List.Perm.append_left _ ?_)
    refine (List.perm_append_comm_assoc _ _ _).trans (List.Perm.append_left _ ?_)
    rw [← List.map_append]
    exact split.map _
  refine ⟨rfl, rfl, .refl sound, .inl ⟨rfl, .refl _⟩, .inl rfl,
    fun hx _ => .inl (perm.mem_iff.1 hx), ?_⟩
  exact fun task => Nat.le_of_eq (by simp [countOf, perm.countP_eq, bornOf])

theorem releaseFile_operated (sound : e.scheduler.Sound) (uri : Uri) :
    Operated e o (e.releaseFile uri) [] := by
  have works (ps : List (Uri × Reader)) :
      worksOf (ps.map fun p => (.later 0 (.lookUp p.2 uri) : EngineAction)) =
        ps.map fun p => .lookUp p.2 uri := by
    simp [worksOf, List.filterMap_map, Function.comp_def, Action.work?]
  have free : ((e.parked.filter fun p => p.1 = uri).map fun p => EngineWork.lookUp p.2 uri) =
      (e.parked.filter fun p => p.1 = uri).map fun p => .lookUp p.2 p.1 := by
    refine List.map_congr_left fun p hp => ?_
    rw [of_decide_eq_true (List.mem_filter.1 hp).2]
  have perm : (after (e.releaseFile uri)).Perm e.held := by
    have split := List.filter_append_perm (fun p : Uri × Reader => p.1 = uri) e.parked
    unfold releaseFile after
    simp only [List.partition_eq_filter_filter, works, free, held]
    refine (List.perm_append_comm_assoc _ _ _).trans (List.Perm.append_left _ ?_)
    rw [← List.append_assoc, ← List.map_append]
    exact (split.map _).append_right _
  refine ⟨rfl, rfl, .refl sound, .inl ⟨rfl, .refl _⟩, .inl rfl,
    fun hx _ => .inl (perm.mem_iff.1 hx), ?_⟩
  exact fun task => Nat.le_of_eq (by simp [countOf, perm.countP_eq, bornOf])

theorem configure_operated (sound : e.scheduler.Sound) (p : ConfigPatch) :
    Operated e o ((e.configure p).engine, (e.configure p).actions) [] := by
  have waiters (c : Cache Nat Call Fact Number) (w : Number) :
      (c.setMaxWeight w).1.waiters = c.waiters :=
    (Cache.trims_setMaxWeight c w).waiters
  unfold configure
  simp only
  split
  · refine operated_still sound rfl rfl rfl rfl (held_eq (waiters _ _) rfl rfl) rfl ?_
    intro x hx
    rw [worksOf_append, worksOf_traces, List.nil_append] at hx
    exact publisher_silent _ _ x hx
  · exact operated_still sound rfl rfl rfl rfl (held_eq (waiters _ _) rfl rfl) rfl (by simp)

theorem focusMain_operated (sound : e.scheduler.Sound) (uri : Option Text) (source : FocusSource) :
    Operated e o ((e.focusMain uri source).engine, (e.focusMain uri source).actions) [] := by
  cases source <;> simp only [focusMain, Bool.false_eq_true, if_false] <;> (repeat' split) <;>
    dsimp only <;> refine operated_still sound rfl rfl rfl rfl rfl rfl ?_ <;>
    simp only [worksOf_nil, worksOf_cons, Action.work?, Option.toList_none, List.nil_append,
      List.not_mem_nil, false_imp_iff, implies_true]
  all_goals exact publisher_silent _ fun w => Publisher.refocus w (uri.map Uri.ofInput)

theorem dispose_operated (sound : e.scheduler.Sound) : ∃ begun, Operated e o e.dispose begun := by
  unfold dispose
  split
  next => exact ⟨[], operated_still sound rfl rfl rfl rfl rfl rfl (by simp)⟩
  next alive =>
    let e' : Engine := { e with isDisposed := true }
    have scheduled := operated_schedule (o := o) e e' Scheduler.dispose rfl rfl
      (Scheduler.dispose_leads (α := Fact) sound) (.inr ⟨Bool.eq_false_iff.2 alive, rfl, rfl⟩)
      (.inl rfl) rfl
    have nothing : ∀ x ∈ worksOf [], x.owner? = none := by simp
    have ended := scheduled.around nothing
      (publisher_silent (e'.schedule Scheduler.dispose).1 fun _ => Publisher.dispose)
    exact ⟨_, ended.host, ended.leases, ended.scheduler, ended.disposal, ended.bodies,
      ended.mem, ended.count⟩

theorem apply_operated (sound : e.scheduler.Sound) (o : Operation) :
    ∃ begun, Operated e o (o.apply e) begun := by
  cases o with
  | «open» uri text version language => exact ⟨[], afterStore_operated sound _⟩
  | edit uri changes version => exact ⟨[], afterStore_operated sound _⟩
  | close uri => exact ⟨[], afterStore_operated sound _⟩
  | ask ticket q token =>
    change ∃ begun, Operated e _ (e.ask ticket q token) begun
    unfold ask
    split
    · exact ⟨[], operated_still sound rfl rfl rfl rfl rfl rfl (by simp [Action.work?])⟩
    · exact submitFor_operated sound _ _ _ rfl
  | errand ticket f =>
    refine ⟨[], rfl, rfl, .refl sound, .inl ⟨rfl, .refl _⟩, .inl rfl, ?_, ?_⟩
    · intro x hx _
      rcases List.mem_append.1 hx with hx | hx
      · exact .inr (.inr ⟨ticket, f, rfl, by simpa [Operation.apply, run, Action.work?] using hx⟩)
      · exact .inl hx
    · intro task
      simp [Operation.apply, run, after, Action.work?, EngineWork.owner?]
  | cancelToken token reason =>
    change ∃ begun, Operated e _ (e.cancelToken token reason) begun
    unfold cancelToken
    split
    · exact ⟨[], operated_still sound rfl rfl rfl rfl rfl rfl (by simp)⟩
    · exact ⟨_, operated_schedule e _ _ rfl rfl
        (Scheduler.forEach_leads (α := Fact) (fun id _ h => Scheduler.cancel_leads reason id h) _
          sound)
        (.inl ⟨rfl, Scheduler.stays_forEach (fun id s => Scheduler.stays_cancel reason id s) _ _⟩)
        (.inl rfl) rfl⟩
  | compile ticket uri =>
    exact ⟨[], operated_still sound rfl rfl rfl rfl rfl rfl
      (by simp [Action.work?, EngineWork.owner?])⟩
  | configure p => exact ⟨[], configure_operated sound p⟩
  | pinMain uri =>
    exact ⟨[], publish_operated sound fun w => Publisher.pin w (uri.map Uri.ofInput)⟩
  | focusMain uri source => exact ⟨[], focusMain_operated sound uri source⟩
  | refresh =>
    exact ⟨[], publish_operated sound fun w => Publisher.forEach (Publisher.trigger w) e.store.all⟩
  | clearCache => exact ⟨[],
    operated_still sound rfl rfl rfl rfl (held_eq rfl rfl rfl) rfl (by simp)⟩
  | settle ticket =>
    exact ⟨[], operated_still sound rfl rfl rfl rfl rfl rfl
      (by simp [Action.work?, EngineWork.owner?])⟩
  | dispose => exact dispose_operated sound
  | openGate name => exact ⟨[], openGate_operated sound name⟩
  | write uri content => exact ⟨[], operated_still sound rfl rfl rfl rfl rfl rfl (by simp)⟩
  | hold uri => exact ⟨[], operated_still sound rfl rfl rfl rfl rfl rfl (by simp)⟩
  | release uri => exact ⟨[], releaseFile_operated sound uri⟩

end Engine

end Quill
