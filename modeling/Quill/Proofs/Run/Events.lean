import Quill.Proofs.Run.Pieces

/-!
# What an attempt hears of, and what becomes of it

A change of the store is an event that the scheduler hears of before anything else happens, but for
one kind of change: an edit that breaks off in the middle. An attempt that is still live after an
event does not depend on the document, as far as the scheduler knows.

A live attempt has one piece. After a piece of work that is the beginning of the attempt, or what
was there before the work, or what follows the work.

## Main definitions

* `Operation.BreaksOff` — an edit that changes the text and fails.

## Main statements

* `Operation.store_cases` — how an operation changes what the store has of a document.
* `Operation.live_cases` — what is known of an attempt that is live after an operation.
* `Engine.Follows.owner_eq` — what follows a piece of work carries the same flow on.
* `Engine.Moves.continues` — work for others does not change an attempt.
* `Session.Sound.attempt_cases` — where the piece of a live attempt comes from.
-/

namespace Quill

/-- The operation is an edit that fails after it may have changed the text. -/
def Operation.BreaksOff (e : Engine) (o : Operation) : Prop :=
  match o with
  | .edit uri changes version =>
    (e.store.edit uri changes version e.host.library.1).outcome = .error Store.malformedChange
  | _ => False

namespace Engine

variable {e : Engine} {x : Uri}

theorem afterStore_store (e : Engine) (r : StoreResult) :
    (e.afterStore r).engine.store = r.store := by
  unfold afterStore
  simp only
  split
  · rfl
  · split <;> rfl

theorem afterStore_scheduler (alive : e.isDisposed = false) {r : StoreResult} {event : StoreEvent}
    (h : r.outcome = .ok event) : (e.afterStore r).engine.scheduler =
      (Scheduler.invalidate event e.scheduler : Scheduler.Result Fact).1 := by
  unfold afterStore
  simp only [h, alive, Bool.false_eq_true, if_false]
  rfl

end Engine

namespace Store

variable {s : Store} {x : Uri}

theorem get?_put_of_ne (s : Store) {uri : Uri} (d : OpenDocument) (h : x ≠ uri) :
    Dict.get? (s.put uri d).documents x = Dict.get? s.documents x := Dict.get?_put_of_ne _ _ h

theorem open_cases (s : Store) (input text : Text) (version : Int) (language : Text) (x : Uri) :
    Dict.get? (s.open input text version language).store.documents x = Dict.get? s.documents x ∨
      ∃ event, (s.open input text version language).outcome = .ok event ∧ event.uri = x ∧
        event.kind = .open := by
  by_cases eq : x = Uri.ofInput input
  · subst eq
    simp only [Store.open]
    split
    · exact .inr ⟨_, rfl, rfl, rfl⟩
    · split
      · exact .inl rfl
      · exact .inr ⟨_, rfl, rfl, rfl⟩
  · left
    simp only [Store.open]
    split
    · exact get?_put_of_ne s _ eq
    · split
      · rfl
      · exact get?_put_of_ne s _ eq

/-- An edit changes no other document, and is an event unless it breaks off. -/
theorem edit_cases {library : TextLibrary} (lawful : library.IsLawful) (s : Store) (input : Text)
    (changes : List ContentChange) (version : Int) (x : Uri) :
    let r := s.edit input changes version library
    Dict.get? r.store.documents x = Dict.get? s.documents x ∨
      (s.has x ∧ r.outcome = .error malformedChange) ∨
      ∃ event, r.outcome = .ok event ∧ event.uri = x ∧ s.has x := by
  unfold Store.edit
  simp only
  split
  next => exact .inl rfl
  next d hd =>
    split
    · exact .inl rfl
    · by_cases eq : x = Uri.ofInput input
      · subst eq
        have isOpen : s.has (Uri.ofInput input) := by simp [Store.has, Dict.has, hd]
        split
        · exact .inr (.inr ⟨_, rfl, rfl, isOpen⟩)
        next f failed =>
          exact .inr (.inl ⟨isOpen, by rw [lawful.eq_malformedChange (congrArg Prod.snd failed)]⟩)
      · left
        split <;> exact get?_put_of_ne s _ eq

theorem close_cases (s : Store) (input : Text) (x : Uri) :
    Dict.get? (s.close input).store.documents x = Dict.get? s.documents x ∨
      ∃ event, (s.close input).outcome = .ok event ∧ event.uri = x ∧ s.has x := by
  unfold Store.close
  simp only
  split
  next isOpen =>
    by_cases eq : x = Uri.ofInput input
    · subst eq
      exact .inr ⟨_, rfl, rfl, isOpen⟩
    · exact .inl (Dict.get?_erase_of_ne _ eq)
  next => exact .inl rfl

end Store

namespace Operation

variable {e : Engine} {x : Uri}

/-- An operation leaves a document as it is, or breaks off while it edits it, or is an event that
the scheduler hears of. Only an opening brings a new document in. -/
theorem store_cases (alive : e.isDisposed = false) (o : Operation) (x : Uri) :
    Dict.get? (o.apply e).1.store.documents x = Dict.get? e.store.documents x ∨
      (o.BreaksOff e ∧ e.store.has x) ∨
      ∃ event : StoreEvent, event.uri = x ∧ (e.store.has x ∨ event.kind = .open) ∧
        (o.apply e).1.scheduler =
          (Scheduler.invalidate event e.scheduler : Scheduler.Result Fact).1 := by
  have heard {r : StoreResult} {event : StoreEvent} (h : r.outcome = .ok event) :=
    e.afterStore_scheduler alive h
  cases o with
  | «open» uri text version language =>
    obtain same | ⟨event, ok, isIt, opens⟩ :=
      e.store.open_cases uri text version (language.getD Store.defaultLanguage) x
    · exact .inl (by simpa [apply, Engine.open, Engine.afterStore_store] using same)
    · exact .inr (.inr ⟨event, isIt, .inr opens, heard ok⟩)
  | edit uri changes version =>
    obtain same | ⟨isOpen, failed⟩ | ⟨event, ok, isIt, isOpen⟩ :=
      Store.edit_cases e.host.library.2 e.store uri changes version x
    · exact .inl (by simpa [apply, Engine.edit, Engine.afterStore_store] using same)
    · exact .inr (.inl ⟨failed, isOpen⟩)
    · exact .inr (.inr ⟨event, isIt, .inl isOpen, heard ok⟩)
  | close uri =>
    obtain same | ⟨event, ok, isIt, isOpen⟩ := e.store.close_cases uri x
    · exact .inl (by simpa [apply, Engine.close, Engine.afterStore_store] using same)
    · exact .inr (.inr ⟨event, isIt, .inl isOpen, heard ok⟩)
  | ask ticket q token =>
    left
    simp only [apply, Engine.ask]
    split <;> rfl
  | cancelToken token reason =>
    left
    simp only [apply, Engine.cancelToken]
    split <;> rfl
  | configure p =>
    left
    simp only [apply, Engine.configure]
    split <;> rfl
  | focusMain uri source =>
    left
    simp only [apply, Engine.focusMain]
    cases source <;> simp only [Bool.false_eq_true, if_false] <;> (repeat' split) <;> rfl
  | dispose =>
    left
    simp only [apply, Engine.dispose, alive, Bool.false_eq_true, if_false]
    rfl
  | errand | compile | pinMain | refresh | clearCache | settle | openGate | write | hold
  | release =>
    exact .inl rfl

/-- An attempt that is live after an operation has begun with it, or was live before and does not
depend on what has changed, as far as the scheduler has heard of it and knows. -/
theorem live_cases (sound : e.scheduler.Sound) (alive : e.isDisposed = false) {o : Operation}
    {begun : List (Nat × Nat)} (leads : e.scheduler.Leads (o.apply e).1.scheduler begun) {id : Nat}
    {t' : Task} (ht : (o.apply e).1.scheduler.task? id = some t') (live : t'.IsLive) :
    ((id, t'.attempts) ∈ begun ∧ t'.readSet = none) ∨
      ∃ t, e.scheduler.task? id = some t ∧ t.IsLive ∧ t.Continues t' ∧ ∀ x,
        Dict.get? (o.apply e).1.store.documents x = Dict.get? e.store.documents x ∨
          (o.BreaksOff e ∧ e.store.has x) ∨
          ∃ event : StoreEvent, event.uri = x ∧ (e.store.has x ∨ event.kind = .open) ∧
            t.isAffectedBy event = false := by
  obtain new | ⟨t, old, was, same⟩ := leads.live ht live
  · exact .inl new
  · refine .inr ⟨t, old, was, same, fun x => ?_⟩
    obtain unchanged | broken | ⟨event, isIt, how, heard⟩ := store_cases alive o x
    · exact .inl unchanged
    · exact .inr (.inl broken)
    · rw [heard] at ht
      obtain ⟨u, hu, -, -, unaffected⟩ := Scheduler.live_of_invalidate event sound ht live
      obtain rfl : t = u := by simpa [old] using hu
      exact .inr (.inr ⟨event, isIt, how, unaffected⟩)

end Operation

/-! ## What becomes of an attempt -/

namespace Engine

variable {e : Engine} {w x : EngineWork} {begun : List (Nat × Nat)} {s' : Scheduler} {i n : Nat}
  {t' : Task}

theorem Stops.owner_eq {o : Owner} {f : Flow Fact} (h : Stops e o f x) : x.owner? = some o := by
  cases h <;> rfl

theorem Follows.owner_eq (h : Follows e s' w x) : x.owner? = w.owner? := by
  cases h with
  | go _ stops => exact stops.owner_eq
  | begin _ _ stops | diagnose _ _ stops => exact stops.owner_eq
  | _ => rfl

theorem Starts.owner_eq (h : e.Starts x) : x.owner? = some (.flight e.cache.nextFlight) := by
  obtain ⟨c, rfl | ⟨r, -, rfl⟩⟩ := h <;> rfl

/-- Whoever else says what it has read, an attempt does not change. -/
theorem task?_of_walks {o : Owner} {s s' : Scheduler} {f f' : Flow Fact} (h : f.Walks o s s' f')
    (sound : s.Sound) (other : o ≠ .attempt i) : s'.task? i = s.task? i := by
  induction h with
  | refl => rfl
  | release _ ih | trace _ ih | say _ ih => exact ih sound
  | look m _ ih => exact ih sound
  | @declare s s' read scope next f h ih =>
    rw [ih (sound.declareFor o read scope)]
    cases o with
    | flight id | errand ticket => rfl
    | attempt id =>
      have ne : i ≠ id := fun eq => other (eq ▸ rfl)
      exact (Scheduler.task?_declare read scope sound i).trans (if_neg ne)

/-- Work that is not for an attempt leaves it as it is, or begins it. -/
theorem Moves.continues (h : Moves e w begun s') (sound : e.scheduler.Sound)
    (other : w.owner? ≠ some (.attempt i)) (ht : s'.task? i = some t') (live : t'.IsLive) :
    ((i, t'.attempts) ∈ begun ∧ t'.readSet = none) ∨
      ∃ t, e.scheduler.task? i = some t ∧ t.IsLive ∧ t.Continues t' := by
  cases h with
  | leads leads _ _ => exact leads.live ht live
  | @ended t u _ s _ _ _ hs ends leads _ =>
    have ne : i ≠ u.id := by
      rintro rfl
      exact other (ends.id_eq ▸ rfl)
    obtain new | ⟨v, hv, was, same⟩ := leads.live ht live
    · exact .inl new
    · rw [ends.replaces i, if_neg ne] at hv
      exact .inr ⟨v, hv, was, same⟩
  | @walks o _ _ _ h =>
    have ne : o ≠ .attempt i := fun eq => other (congrArg some eq)
    rw [task?_of_walks h sound ne] at ht
    exact .inr ⟨t', ht, live, .refl t'⟩
  | @begins task _ _ _ _ h =>
    have ne : Owner.attempt task ≠ .attempt i := fun eq => other (congrArg some eq)
    rw [task?_of_walks h sound ne] at ht
    exact .inr ⟨t', ht, live, .refl t'⟩

/-- An attempt that has just begun has read nothing. -/
theorem Moves.readSet_of_begun (h : Moves e w begun s') (new : (i, n) ∈ begun)
    (sound : e.scheduler.Sound) (ht : s'.task? i = some t') (live : t'.IsLive) :
    t'.readSet = none := by
  have fresh {s : Scheduler} (leads : s.Leads s' begun) (sound : s.Sound) : t'.readSet = none := by
    obtain ⟨-, empty⟩ | ⟨t, old, was, -⟩ := leads.live ht live
    · exact empty
    · exact absurd ⟨t, old, sound.busy_of_running old was.1⟩ (leads.begun new).1
  cases h with
  | leads leads _ _ => exact fresh leads sound
  | ended _ ends leads _ => exact fresh leads ends.sound
  | walks | begins => simp at new

theorem Moves.ends_of_begun (h : Moves e w begun s') (new : (i, n) ∈ begun)
    (busy : e.scheduler.IsBusy i) : ∃ r, w = .attemptEnded i r := by
  cases h with
  | leads leads _ _ => exact absurd busy (leads.begun new).1
  | @ended t u r s _ _ _ hs ends leads _ =>
    by_cases eq : i = t.id
    · exact ⟨r, eq ▸ rfl⟩
    · have same := ends.replaces.isBusy_iff (i := i) (ends.id_eq ▸ eq)
      exact absurd (same.2 busy) (leads.begun new).1
  | walks | begins => simp at new

/-- Work on an attempt changes what is known of it only where the flow goes on. -/
theorem Moves.continues_of_follows (h : Moves e w begun s') (follows : Follows e s' w x)
    (fresh : (i, t'.attempts) ∉ begun) (go : ∀ o f, w ≠ .go o f)
    (begin_ : ∀ task k, w ≠ .begin task k) (ht : s'.task? i = some t') (live : t'.IsLive) :
    ∃ t, e.scheduler.task? i = some t ∧ t.IsLive ∧ t.Continues t' := by
  cases h with
  | leads leads _ _ => exact (leads.live ht live).resolve_left fun new => fresh new.1
  | ended => cases follows
  | walks => exact absurd rfl (go _ _)
  | begins => exact absurd rfl (begin_ _ _)

end Engine

namespace Session.Sound

variable {s s' : Session} {w x : EngineWork} {others : List EngineWork} {r : Engine.Step}
  {begun : List (Nat × Nat)} {task : Nat} {t' : Task}

theorem alone (h : s.Sound)
    (old : ∀ p : EngineWork → Bool, s.pieces.countP p = (w :: (s.state.held ++ others)).countP p)
    (own : w.owner? = some (.attempt task)) (mem : x ∈ s.state.held ++ others) :
    x.owner? ≠ some (.attempt task) := by
  intro eq
  have once : countOf (.attempt task) (w :: (s.state.held ++ others)) ≤ 1 :=
    Nat.le_trans (Nat.le_of_eq (old _).symm) (h.once task)
  have pos : 0 < countOf (.attempt task) (s.state.held ++ others) := countOf_pos_iff.2 ⟨x, mem, eq⟩
  rw [countOf_cons, if_pos own] at once
  omega

theorem attempt_cases (h : s.Sound) (done : s.state.Performed w r begun)
    (old : ∀ p : EngineWork → Bool, s.pieces.countP p = (w :: (s.state.held ++ others)).countP p)
    (mem : x ∈ Engine.after r ++ others) (own : x.owner? = some (.attempt task))
    (ht : r.1.scheduler.task? task = some t') (live : t'.IsLive) :
    ((∃ n, x = .begin task n) ∧ t'.readSet = none) ∨
      (∃ t, s.state.scheduler.task? task = some t ∧ t.IsLive ∧ t.Continues t' ∧ ∃ y ∈ s.pieces,
        y.owner? = some (.attempt task) ∧
          (y = x ∨ ∃ id call r, y = .join id call ∧ x = .go call.owner (call.next r))) ∨
      w.owner? = some (.attempt task) ∧ s.state.Follows r.1.scheduler w x ∧
        (task, t'.attempts) ∉ begun := by
  have rest {y} (hy : y ∈ s.state.held ++ others) (owner : y.owner? = some (.attempt task))
      (goes : y = x ∨ ∃ id call r, y = .join id call ∧ x = .go call.owner (call.next r)) :
      ∃ t, s.state.scheduler.task? task = some t ∧ t.IsLive ∧ t.Continues t' ∧ ∃ y ∈ s.pieces,
        y.owner? = some (.attempt task) ∧
          (y = x ∨ ∃ id call r, y = .join id call ∧ x = .go call.owner (call.next r)) := by
    have before : y ∈ s.pieces := (mem_congr_of_countP old).2 (List.mem_cons_of_mem _ hy)
    have other : w.owner? ≠ some (.attempt task) := fun mine => h.alone old mine hy owner
    have busy := h.busy (countOf_pos_iff.2 ⟨y, before, owner⟩)
    obtain ⟨new, -⟩ | ⟨t, was, live', same⟩ := done.scheduler.continues h.scheduler other ht live
    · obtain ⟨r, rfl⟩ := done.scheduler.ends_of_begun new busy
      exact absurd rfl other
    · exact ⟨t, was, live', same, y, before, owner, goes⟩
  rcases List.mem_append.1 mem with mem | mem
  · cases done.mem mem (by simp [own]) with
    | held waits => exact .inr (.inl (rest (List.mem_append_left _ waits) own (.inl rfl)))
    | told waits => exact .inr (.inl
      (rest (List.mem_append_left _ waits) own (.inr ⟨_, _, _, rfl, rfl⟩)))
    | starts starts => simp [starts.owner_eq] at own
    | @begins id n new =>
      obtain rfl : id = task := by simpa [EngineWork.owner?] using own
      exact .inl ⟨⟨n, rfl⟩, done.scheduler.readSet_of_begun new h.scheduler ht live⟩
    | follows follows =>
      have mine : w.owner? = some (.attempt task) := follows.owner_eq ▸ own
      refine .inr (.inr ⟨mine, follows, fun new => ?_⟩)
      have done' : w ∈ s.pieces := (mem_congr_of_countP old).2 List.mem_cons_self
      obtain ⟨r, rfl⟩ := done.scheduler.ends_of_begun new
        (h.busy (countOf_pos_iff.2 ⟨w, done', mine⟩))
      cases follows
  · exact .inr (.inl (rest (List.mem_append_right _ mem) own (.inl rfl)))

end Session.Sound

end Quill
