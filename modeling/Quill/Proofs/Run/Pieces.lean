import Quill.Proofs.Run.Operations

/-!
# The pieces of a session

Whatever happens to a session takes one piece of work out of it, or none, and puts what follows in
its place; all other pieces stay. So an attempt under way is one piece at any time, and only
attempts under way have a piece.

## Main definitions

* `Happening.Does` — what happens to the pieces.
* `Session.Sound` — every attempt is one piece; `Run.sound` says that this holds throughout a run.
* `Happening.Does.origin` — where the pieces come from that are there then.
-/

namespace Quill

inductive Happening.Does (s : Session) : Happening → Session → Prop where
  /-- Work changes its place, or is dropped. -/
  | shuffles {x s'} (parked : List (Uri × Reader)) (state : s'.state = { s.state with parked })
    (pieces : ∀ p : EngineWork → Bool, s'.pieces.countP p ≤ s.pieces.countP p) : Does s x s'
  | performs {s' w rest} (others : List EngineWork) (head : s.agenda.actions = .now w :: rest)
    (state : s'.state = (Engine.perform s.agenda.clock w s.state).1)
    (old : ∀ p : EngineWork → Bool, s.pieces.countP p = (w :: (s.state.held ++ others)).countP p)
    (new : ∀ p : EngineWork → Bool, s'.pieces.countP p =
      (Engine.after (Engine.perform s.agenda.clock w s.state) ++ others).countP p) :
    Does s .work s'
  | operates {s' o} (state : s'.state = (o.apply s.state).1)
    (old : ∀ p : EngineWork → Bool, s.pieces.countP p = (s.state.held ++ s.works).countP p)
    (new : ∀ p : EngineWork → Bool, s'.pieces.countP p =
      (Engine.after (o.apply s.state) ++ s.works).countP p) : Does s (.operation o) s'

/-- Lists in which as many pieces have any property have the same pieces. -/
theorem mem_of_countP_le {l m : List EngineWork}
    (h : ∀ p : EngineWork → Bool, l.countP p ≤ m.countP p) {x : EngineWork} (hx : x ∈ l) :
    x ∈ m := by
  classical
  have pos : 0 < l.countP fun y => y = x := List.countP_pos_iff.2 ⟨x, hx, by simp⟩
  obtain ⟨y, hy, eq⟩ := List.countP_pos_iff.1 (Nat.lt_of_lt_of_le pos (h _))
  exact of_decide_eq_true eq ▸ hy

theorem mem_congr_of_countP {l m : List EngineWork}
    (h : ∀ p : EngineWork → Bool, l.countP p = m.countP p) {x : EngineWork} : x ∈ l ↔ x ∈ m :=
  ⟨mem_of_countP_le fun p => Nat.le_of_eq (h p), mem_of_countP_le fun p => Nat.le_of_eq (h p).symm⟩

namespace Session

variable {s s' : Session} {x : Happening}

/-- Nothing is under way at the beginning. -/
@[simp] theorem pieces_start (host : Host) (config : EngineConfig) :
    pieces (.start (.start host config)) = [] := rfl

theorem mem_pieces_of_head {w : EngineWork} {rest : List EngineAction}
    (head : s.agenda.actions = .now w :: rest) : w ∈ s.pieces := by
  simp [pieces, works, head, Action.work?]

/-- An action that is no work to be done now only changes the place of its work. -/
theorem countP_note (p : EngineWork → Bool) {a : EngineAction} {rest : List EngineAction}
    (now : ∀ w, a ≠ .now w) (head : s.agenda.actions = a :: rest) :
    (pieces { s with agenda := ({ s.agenda with actions := rest } : Agenda _ _ _).note a }).countP
      p ≤
      s.pieces.countP p := by
  cases a with
  | now w => exact absurd rfl (now w)
  | later turns w | soon w | setTimer key ms w | emit o =>
    simp [pieces, works, Agenda.note, head, Action.work?, List.countP_cons] <;> omega
  | clearTimer key =>
    have fewer : List.countP p ((s.agenda.timers.filter (·.key ≠ key)).map Timer.work) ≤ _ :=
      (List.filter_sublist.map Timer.work).countP_le
    simp [pieces, works, Agenda.note, head, Action.work?] at fewer ⊢
    omega

theorem countP_turn (p : EngineWork → Bool) {w? : Option EngineWork} {agenda : Agenda _ _ _}
    (idle : s.agenda.actions = []) (h : s.agenda.turn? = some (w?, agenda)) :
    (pieces { s with agenda := { agenda with actions := w?.toList.map .now } }).countP p =
      s.pieces.countP p := by
  unfold Agenda.turn? at h
  split at h
  case h_4 => simp at h
  all_goals
    obtain ⟨rfl, rfl⟩ : _ ∧ _ := by simpa using h
    simp_all [pieces, works, List.countP_cons, Action.work?]
    try omega

/-- The timer that is taken is one of those that are set. -/
theorem mem_of_first? {κ ω : Type} {timers : List (Timer κ ω)} {t : Timer κ ω}
    (h : Agenda.first? timers = some t) : t ∈ timers := by
  have best (rest : List (Timer κ ω)) (b : Timer κ ω) :
      rest.foldl (fun best t => if t.due < best.due then t else best) b ∈ b :: rest := by
    induction rest generalizing b with
    | nil => simp
    | cons c rest ih =>
      rw [List.foldl_cons]
      have := ih (if c.due < b.due then c else b)
      split at this <;> grind
  cases timers with
  | nil => simp [Agenda.first?] at h
  | cons b rest =>
    obtain rfl := Option.some.inj h
    exact best rest b

theorem countP_fire (p : EngineWork → Bool) {time : Nat} {agenda : Agenda _ _ _}
    (h : s.agenda.fire? time = some agenda) :
    (pieces { s with agenda }).countP p ≤ s.pieces.countP p := by
  unfold Agenda.fire? at h
  split at h
  next t ht =>
    obtain rfl := Option.some.inj h
    have set : t ∈ s.agenda.timers := mem_of_first? (Option.eq_some_of_filter_eq_some ht)
    have fewer : List.countP p (((s.agenda.timers.filter (·.key ≠ t.key)) ++ [t]).map Timer.work) ≤
        (s.agenda.timers.map Timer.work).countP p := by
      obtain ⟨before, behind, eq⟩ := List.append_of_mem set
      have one : ∀ l : List (Timer TimerKey EngineWork), List.countP p
          ((l.filter (·.key ≠ t.key)).map Timer.work) ≤ (l.map Timer.work).countP p :=
        fun l => (List.filter_sublist.map Timer.work).countP_le
      have := one before
      have := one behind
      rw [eq]
      simp [List.filter_append, List.countP_cons] at *
      omega
    simp [pieces, works, Action.work?, List.countP_cons] at fewer ⊢
    omega
  next => simp at h

/-- A reader that waits goes on. -/
theorem countP_readOn (p : EngineWork → Bool) {n : Nat} (h : s.readOn? n = some s') :
    (∃ parked, s'.state = { s.state with parked }) ∧ s'.pieces.countP p ≤ s.pieces.countP p := by
  unfold readOn? at h
  obtain ⟨⟨uri, reader⟩, found, rfl⟩ := Option.map_eq_some_iff.1 h
  obtain ⟨lt, found⟩ := List.getElem?_eq_some_iff.1 found
  refine ⟨⟨_, rfl⟩, ?_⟩
  have parts : s.state.parked =
      s.state.parked.take n ++ (uri, reader) :: s.state.parked.drop (n + 1) := by
    rw [← found, List.getElem_cons_drop, List.take_append_drop]
  have count := congrArg
      (fun ps => (ps.map fun p : Uri × Reader => EngineWork.lookUp p.2 p.1).countP p)
    parts
  simp only [List.countP_append, List.map_append, List.map_cons, List.countP_cons] at count
  simp only [pieces, works, Engine.held, List.eraseIdx_eq_take_drop_succ, List.countP_append,
    List.map_append, List.map_cons, List.map_nil, List.countP_cons, List.countP_nil, count]
  omega

end Session

open Session in
theorem Happening.does {s s' : Session} {x : Happening} (next : x.after? s = some s') :
    x.Does s s' := by
  cases x with
  | work =>
    simp only [Happening.after?, Machine.step?] at next
    split at next
    next w rest head =>
      obtain rfl := Option.some.inj next
      refine .performs (worksOf rest ++ (s.agenda.ready.map Prod.snd ++ (s.agenda.soon ++
        s.agenda.timers.map Timer.work))) head rfl ?_ ?_
      · intro p
        simp only [pieces, works, head, worksOf_cons, Action.work?, Option.toList_some,
          List.countP_append, List.countP_cons, List.countP_nil]
        omega
      · intro p
        simp only [pieces, works, Engine.after, worksOf_append, List.countP_append]
        omega
    next a rest now head =>
      obtain rfl := Option.some.inj next
      exact .shuffles s.state.parked rfl fun p => countP_note p (fun w eq => now w (eq ▸ rfl)) head
    next head =>
      obtain ⟨⟨w?, agenda⟩, turn, rfl⟩ := Option.map_eq_some_iff.1 next
      exact .shuffles s.state.parked rfl fun p => Nat.le_of_eq (countP_turn p head turn)
  | timer time =>
    simp only [Happening.after?] at next
    split at next
    · obtain ⟨agenda, fire, rfl⟩ := Option.map_eq_some_iff.1 next
      exact .shuffles s.state.parked rfl fun p => countP_fire p fire
    · simp at next
  | tick time =>
    obtain rfl := Option.some.inj next
    exact .shuffles s.state.parked rfl fun p => Nat.le_refl _
  | read n =>
    simp only [Happening.after?] at next
    split at next
    · obtain ⟨parked, state⟩ := (countP_readOn (fun _ => true) next).1
      exact .shuffles parked state fun p => (countP_readOn p next).2
    · simp at next
  | operation o =>
    simp only [Happening.after?] at next
    split at next
    next idle =>
      obtain rfl := Option.some.inj next
      have idle := List.isEmpty_iff.1 idle
      refine .operates rfl (fun p => ?_) fun p => ?_
      · simp only [pieces, List.countP_append]
        omega
      · simp only [operate, pieces, works, Engine.after, idle, List.countP_append, worksOf_nil,
          List.nil_append]
        omega
    next => simp at next

/-! ## Every attempt is one piece -/

/-- Every attempt is one piece at most, and only attempts under way have one. When the engine is
disposed, none is live any more. -/
structure Session.Sound (s : Session) : Prop where
  scheduler : s.state.scheduler.Sound
  once : ∀ task, countOf (.attempt task) s.pieces ≤ 1
  busy : ∀ {task}, 0 < countOf (.attempt task) s.pieces → s.state.scheduler.IsBusy task
  isDisposed : s.state.scheduler.isDisposed = s.state.isDisposed
  shut : s.state.isDisposed → s.state.scheduler.Shut
  dead : s.state.isDisposed → ∀ {i t}, s.state.scheduler.task? i = some t → ¬ t.IsLive

theorem Scheduler.Sound.declareFor {s : Scheduler} (h : s.Sound) (o : Owner) (read : List ReadEntry)
    (scope : ReadScope) : (s.declareFor o read scope).Sound := by
  cases o with
  | attempt task => exact declare_sound read scope h
  | flight id | errand ticket => exact h

/-- What a flow says of what it has read leaves the tables sound, and every task as busy as it
was. -/
theorem Flow.Walks.sound {o : Owner} {s s' : Scheduler} {f f' : Flow Fact} (h : f.Walks o s s' f')
    (sound : s.Sound) : s'.Sound ∧ ∀ task, s'.IsBusy task ↔ s.IsBusy task := by
  induction h with
  | refl => exact ⟨sound, fun _ => .rfl⟩
  | release _ ih | trace _ ih | say _ ih => exact ih sound
  | look m _ ih => exact ih sound
  | @declare s s' read scope next f h ih =>
    obtain ⟨sound', busy⟩ := ih (sound.declareFor o read scope)
    refine ⟨sound', fun task => (busy task).trans ?_⟩
    cases o with
    | attempt id => exact Scheduler.isBusy_declare read scope sound task
    | flight id | errand ticket => exact .rfl

theorem Flow.Walks.task {o : Owner} {s s' : Scheduler} {f f' : Flow Fact} (h : f.Walks o s s' f')
    (sound : s.Sound) {i : Nat} {t' : Task} (ht : s'.task? i = some t') :
    ∃ t, s.task? i = some t ∧ t' = { t with readSet := t'.readSet, readScope := t'.readScope } := by
  induction h with
  | refl => exact ⟨t', ht, rfl⟩
  | release _ ih | trace _ ih | say _ ih => exact ih sound ht
  | look m _ ih => exact ih sound ht
  | @declare s s' read scope next f h ih =>
    obtain ⟨u, hu, eq⟩ := ih (sound.declareFor o read scope) ht
    cases o with
    | flight id | errand ticket => exact ⟨u, hu, eq⟩
    | attempt id =>
      change (s.declare id read scope).task? i = some u at hu
      rw [Scheduler.task?_declare read scope sound] at hu
      split at hu
      next isIt =>
        obtain ⟨t, ht, rfl⟩ := Option.map_eq_some_iff.1 hu
        refine ⟨t, isIt ▸ ht, ?_⟩
        rw [eq]
        split <;> rfl
      next => exact ⟨u, hu, eq⟩

theorem Flow.Walks.stays {o : Owner} {s s' : Scheduler} {f f' : Flow Fact} (h : f.Walks o s s' f') :
    s.Stays s' [] := by
  induction h with
  | refl => exact .refl _
  | release _ ih | trace _ ih | say _ ih => exact ih
  | look m _ ih => exact ih
  | @declare s s' read scope next f h ih =>
    cases o with
    | attempt id => exact (Scheduler.stays_declare id read scope s).trans ih
    | flight id | errand ticket => exact ih

/-- Pieces of idle tasks come up only with an attempt that begins. -/
theorem Scheduler.Leads.count {s s' : Scheduler} {begun : List (Nat × Nat)} {task n m : Nat}
    (h : s.Leads s' begun) (once : m ≤ 1) (busy : 0 < m → s.IsBusy task)
    (le : n ≤ m + Engine.bornOf (.attempt task) begun) : n ≤ 1 ∧ (0 < n → s'.IsBusy task) := by
  have born : Engine.bornOf (.attempt task) begun ≤ 1 := List.nodup_iff_count.1 h.nodup task
  by_cases none : Engine.bornOf (.attempt task) begun = 0
  · exact ⟨by omega, fun pos => h.busy (busy (by omega))⟩
  · have mem : task ∈ begun.map Prod.fst := List.count_pos_iff.1 (Nat.pos_of_ne_zero none)
    obtain ⟨⟨_, k⟩, new, rfl⟩ := List.mem_map.1 mem
    obtain ⟨idle, under⟩ := h.begun new
    have : m = 0 := Nat.eq_zero_of_not_pos fun pos => idle (busy pos)
    exact ⟨by omega, fun _ => under⟩

/-- What a piece of work leaves of the scheduler is sound again. -/
theorem Engine.Moves.sound {e : Engine} {w : EngineWork} {begun : List (Nat × Nat)} {s' : Scheduler}
    (h : Moves e w begun s') (sound : e.scheduler.Sound) : s'.Sound := by
  cases h with
  | leads h _ _ => exact h.sound
  | ended _ _ leads _ => exact leads.sound
  | walks h | begins h => exact (h.sound sound).1

theorem Engine.Moves.stays {e : Engine} {w : EngineWork} {begun : List (Nat × Nat)} {s' : Scheduler}
    (h : Moves e w begun s') : e.scheduler.Stays s' begun := by
  cases h with
  | leads _ _ stays | ended _ _ _ stays => exact stays
  | walks h | begins h => exact h.stays

theorem Engine.Moves.live {e : Engine} {w : EngineWork} {begun : List (Nat × Nat)} {s' : Scheduler}
    (h : Moves e w begun s') (sound : e.scheduler.Sound) {i : Nat} {t' : Task}
    (ht : s'.task? i = some t') (live : t'.IsLive) :
    ((i, t'.attempts) ∈ begun ∧ t'.readSet = none) ∨
      ∃ t, e.scheduler.task? i = some t ∧ t.IsLive ∧ t'.attempts = t.attempts ∧
      t'.spec = t.spec := by
  cases h with
  | leads leads _ _ =>
    obtain new | ⟨t, old, was, same⟩ := leads.live ht live
    · exact .inl new
    · exact .inr ⟨t, old, was, same.attempts, same.spec⟩
  | @ended t u _ s _ _ _ hs ends leads _ =>
    obtain new | ⟨v, hv, was, same⟩ := leads.live ht live
    · exact .inl new
    · rw [ends.replaces i] at hv
      split at hv
      · obtain rfl := Option.some.inj hv
        exact absurd was.1 ends.stops
      · exact .inr ⟨v, hv, was, same.attempts, same.spec⟩
  | walks h | begins h =>
    obtain ⟨t, old, eq⟩ := h.task sound ht
    rw [eq] at live
    exact .inr ⟨t, old, live, by rw [eq], by rw [eq]⟩

namespace Session.Sound

variable {s s' : Session} {x : Happening} {w : EngineWork}

theorem isBusy_of_attemptEnded (h : s.Sound) {task : Nat} {r : Except Failure Fact}
    (mem : .attemptEnded task r ∈ s.pieces) : s.state.scheduler.IsBusy task :=
  h.busy (countOf_pos_iff.2 ⟨_, mem, rfl⟩)

/-- The next action has done what a piece of work may do. -/
theorem exists_performed (h : s.Sound) {rest : List EngineAction}
    (head : s.agenda.actions = .now w :: rest) :
    ∃ begun, s.state.Performed w (Engine.perform s.agenda.clock w s.state) begun :=
  Engine.perform_performed s.agenda.clock w h.scheduler fun _ r eq =>
    h.isBusy_of_attemptEnded (r := r) (mem_pieces_of_head (eq ▸ head))

theorem performed (h : s.Sound) {others : List EngineWork} {r : Engine.Step}
    {begun : List (Nat × Nat)} (done : s.state.Performed w r begun) (state : s'.state = r.1)
    (old : ∀ p : EngineWork → Bool, s.pieces.countP p = (w :: (s.state.held ++ others)).countP p)
    (new : ∀ p : EngineWork → Bool, s'.pieces.countP p = (Engine.after r ++ others).countP p) :
    s'.Sound := by
  have counts (task : Nat) : countOf (.attempt task) s'.pieces ≤ 1 ∧
      (0 < countOf (.attempt task) s'.pieces → r.1.scheduler.IsBusy task) := by
    have before : countOf (.attempt task) s.pieces =
        countOf (.attempt task) (w :: (s.state.held ++ others)) := old _
    have behind : countOf (.attempt task) s'.pieces =
        countOf (.attempt task) (Engine.after r ++ others) := new _
    rw [countOf_cons, countOf_append] at before
    rw [countOf_append] at behind
    have bound := done.count (.attempt task)
    simp only [reduceCtorEq, if_false, Nat.add_zero] at bound
    have once := h.once task
    have busy : 0 < countOf (.attempt task) s.pieces → _ := h.busy
    have moves := done.scheduler
    generalize r.1.scheduler = sched at moves ⊢
    cases moves with
    | leads leads _ _ => exact leads.count once busy (by omega)
    | walks walks | begins walks =>
      have same := (walks.sound h.scheduler).2 task
      have none : Engine.bornOf (.attempt task) [] = 0 := rfl
      exact ⟨by omega, fun pos => same.2 (busy (by omega))⟩
    | @ended t t' _ sched _ _ _ ht ends leads _ =>
      by_cases own : task = t.id
      · subst own
        have last := done.last rfl
        simp only [EngineWork.owner?, if_true] at before
        exact leads.count (m := countOf (.attempt t.id) s.pieces - 1) (by omega) (by omega)
          (by omega)
      · simp only [EngineWork.owner?, Option.some.injEq, Owner.attempt.injEq, Ne.symm own,
          if_false] at before bound
        have same := ends.replaces.isBusy_iff (i := task) (ends.id_eq ▸ own)
        exact leads.count once (fun pos => same.2 (busy pos)) (by omega)
  have stays := done.scheduler.stays
  have was (d : s'.state.isDisposed) : s.state.isDisposed := by
    rwa [state, done.world.isDisposed] at d
  refine ⟨state ▸ done.scheduler.sound h.scheduler, fun task => (counts task).1, fun pos => ?_, ?_,
    ?_, ?_⟩
  · rw [state]
    exact (counts _).2 pos
  · rw [state, stays.isDisposed, h.isDisposed, done.world.isDisposed]
  · intro d
    rw [state]
    exact (stays.shut (h.shut (was d))).1
  · intro d i t' ht live
    rw [state] at ht
    obtain ⟨new, -⟩ | ⟨t, old, live', -⟩ := done.scheduler.live h.scheduler ht live
    · simp [(stays.shut (h.shut (was d))).2] at new
    · exact h.dead (was d) old live'

/-- Whatever happens leaves every attempt in one piece. -/
theorem does (h : s.Sound) (d : x.Does s s') : s'.Sound := by
  cases d with
  | shuffles parked state pieces =>
    have sub (task : Nat) : countOf (.attempt task) s'.pieces ≤ countOf (.attempt task) s.pieces :=
      pieces _
    refine ⟨state ▸ h.scheduler, fun task => Nat.le_trans (sub task) (h.once task),
      fun {task} pos => ?_, ?_, ?_, ?_⟩ <;> rw [state]
    · exact h.busy (Nat.lt_of_lt_of_le pos (sub task))
    · exact h.isDisposed
    · exact h.shut
    · exact h.dead
  | @performs _ w rest others head state old new =>
    obtain ⟨begun, done⟩ := h.exists_performed head
    exact h.performed done state old new
  | @operates _ o state old new =>
    obtain ⟨begun, done⟩ := Engine.apply_operated h.scheduler o
    have counts (task : Nat) := done.scheduler.count (n := countOf (.attempt task) s'.pieces)
      (h.once task) h.busy (by
        have before : countOf (.attempt task) s.pieces = countOf (.attempt task) _ := old _
        have behind : countOf (.attempt task) s'.pieces = countOf (.attempt task) _ := new _
        have bound := done.count task
        rw [countOf_append] at before behind
        omega)
    refine ⟨state ▸ done.scheduler.sound, fun task => (counts task).1, fun pos => ?_,
      ?_, ?_, ?_⟩ <;>
      rw [state]
    · exact (counts _).2 pos
    · rcases done.disposal with ⟨same, stays⟩ | ⟨alive, now, eq⟩
      · rw [stays.isDisposed, h.isDisposed, same]
      · rw [eq, now, (Scheduler.shut_dispose h.scheduler (h.isDisposed.trans alive)).1.isDisposed]
    · rcases done.disposal with ⟨same, stays⟩ | ⟨alive, now, eq⟩
      · exact fun d => (stays.shut (h.shut (same ▸ d))).1
      · exact fun _ => eq ▸ (Scheduler.shut_dispose h.scheduler (h.isDisposed.trans alive)).1
    · rcases done.disposal with ⟨same, stays⟩ | ⟨alive, now, eq⟩
      · intro d i t' ht live
        obtain ⟨new, -⟩ | ⟨t, old, live', -⟩ := done.scheduler.live ht live
        · simp [(stays.shut (h.shut (same ▸ d))).2] at new
        · exact h.dead (same ▸ d) old live'
      · rw [eq]
        exact fun _ => (Scheduler.shut_dispose h.scheduler (h.isDisposed.trans alive)).2

end Session.Sound

/-! ## Where pieces come from -/

/-- The piece stands for a flow that is at its beginning, or has just been told what it waited
for. -/
def EngineWork.SetsOut : EngineWork → Prop
  | .go _ _ | .begin _ _ | .settleFlight _ _ => True
  | _ => False

namespace Happening.Does

variable {s s' : Session} {x : Happening} {y : EngineWork}

/-- A piece of a flow was there before, or takes the place of the work that was done, or stands for
a flow that goes on. -/
theorem origin (d : x.Does s s') (sound : s.Sound) (mem : y ∈ s'.pieces) (own : y.owner?.isSome) :
    y ∈ s.pieces ∨ (∃ w rest sched, x = .work ∧ s.agenda.actions = .now w :: rest ∧
      s.state.Follows sched w y) ∨
      y.SetsOut := by
  cases d with
  | shuffles _ _ pieces => exact .inl (mem_of_countP_le pieces mem)
  | @performs _ w rest others head state old new =>
    obtain ⟨begun, done⟩ := sound.exists_performed head
    have stays {z} (hz : z ∈ s.state.held ++ others) : z ∈ s.pieces :=
      (mem_congr_of_countP old).2 (List.mem_cons_of_mem _ hz)
    rcases List.mem_append.1 ((mem_congr_of_countP new).1 mem) with mem | other
    · cases done.mem mem own with
      | held waits => exact .inl (stays (List.mem_append_left _ waits))
      | told | begins => exact .inr (.inr trivial)
      | starts starts =>
        obtain ⟨_, rfl | ⟨_, -, rfl⟩⟩ := starts <;> exact .inr (.inr trivial)
      | follows follows => exact .inr (.inl ⟨w, rest, _, rfl, head, follows⟩)
    · exact .inl (stays (List.mem_append_right _ other))
  | @operates _ o state old new =>
    obtain ⟨begun, done⟩ := Engine.apply_operated sound.scheduler o
    have stays {z} (hz : z ∈ s.state.held ++ s.works) : z ∈ s.pieces :=
      (mem_congr_of_countP old).2 hz
    rcases List.mem_append.1 ((mem_congr_of_countP new).1 mem) with mem | other
    · obtain waits | ⟨task, n, -, rfl⟩ | ⟨ticket, f, -, rfl⟩ := done.mem mem own
      · exact .inl (stays (List.mem_append_left _ waits))
      · exact .inr (.inr trivial)
      · exact .inr (.inr trivial)
    · exact .inl (stays (List.mem_append_right _ other))

/-- What an engine is given never changes. Leases are only given back, but for one that is taken for
a flow that waits for it. -/
theorem keeps (d : x.Does s s') (sound : s.Sound) : s'.state.host = s.state.host ∧
    (s'.state.leases.LeftOf s.state.leases ∨ ∃ o next built rest,
      s.agenda.actions = .now (.intern o next built) :: rest ∧
        s'.state.leases = (s.state.leases.take built).1) := by
  cases d with
  | shuffles parked state =>
    rw [state]
    exact ⟨rfl, .inl (.refl _)⟩
  | @performs _ w rest others head state =>
    obtain ⟨begun, done⟩ := sound.exists_performed head
    rw [state]
    refine ⟨done.world.host, done.leases.imp_right ?_⟩
    rintro ⟨o, next, built, rfl, eq⟩
    exact ⟨o, next, built, rest, head, eq⟩
  | @operates _ o state =>
    obtain ⟨begun, done⟩ := Engine.apply_operated sound.scheduler o
    rw [state]
    exact ⟨done.host, .inl (done.leases ▸ .refl _)⟩

end Happening.Does

/-- Throughout a run every attempt is one piece. -/
theorem Run.sound {host : Host} {config : EngineConfig} {h : History} {s : Session}
    (run : Run host config h s) : s.Sound := by
  induction run with
  | start =>
    exact ⟨Scheduler.sound_empty, fun task => Nat.zero_le 1,
      fun pos => absurd pos (Nat.lt_irrefl 0),
      rfl, fun d => absurd d Bool.false_ne_true, fun d => absurd d Bool.false_ne_true⟩
  | step x run next ih => exact ih.does (Happening.does next)

end Quill
