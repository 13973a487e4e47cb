import Quill.Proofs.Flow.Leases
import Quill.Proofs.Run.Carried
import Quill.Proofs.Snapshot.Leases

/-!
# Leases in a run

Every lease that has not been given back is owed by a piece of work that carries on the flow that
took it: whatever that piece is told, the flow will give the lease back.

## Main definitions

* `Owner.Borrows` — whose flows may take leases.
* `EngineWork.GivesBack` — whatever the piece is told, its flow gives a certain lease back.
* `EngineWork.Tidy` — whatever the piece is told, its flow gives back each lease that it takes.
* `Session.Lends` — every live lease is owed by a piece of work.
* `Session.Runs` — a query of an owner is running.
* `Happening.Tidy` — callers give back what they take.

## Main statements

* `Run.lends` — every live lease is owed throughout a run.
* `Run.leases_counted` — what is in use, and that nothing is where no query is running.
-/

namespace Quill

/-- The attempts of tasks may take leases, and callers with certain tickets. Computations may
not. -/
def Owner.Borrows (may : Nat → Prop) : Owner → Prop
  | .attempt _ => True
  | .flight _ => False
  | .errand ticket => may ticket

/-- Whatever the waiter is told, its flow gives the lease back. -/
def SnapshotWaiter.GivesBack (id : Nat) : SnapshotWaiter → Prop
  | .build _ next => ∀ r, (next r).GivesBack id
  | .lease _ next => ∀ r, (next r).GivesBack id

/-- Whatever the waiter is told, its flow gives back each lease that it takes. -/
def SnapshotWaiter.Tidy (may : Nat → Prop) : SnapshotWaiter → Prop
  | .build o next => ∀ r, (next r).Tidy (o.Borrows may)
  | .lease o next => o.Borrows may ∧ (∀ r, (next r).Tidy (o.Borrows may)) ∧
    ∀ l, (next (.ok l)).GivesBack l.id

namespace EngineWork

/-- Whatever the piece is told, its flow gives the lease back. -/
def GivesBack (id : Nat) : EngineWork → Prop
  | .go _ f => f.GivesBack id
  | .wake _ next | .recheck _ next => ∀ r, (next r).GivesBack id
  | .join _ call => ∀ r, (call.next r).GivesBack id
  | .collect w _ | .loaded w _ _ _ | .received w _ _ _ | .assemble w _
  | .lookUp (.building w _) _ => w.GivesBack id
  | .intern _ next _ => ∀ r, (next r).GivesBack id
  | _ => False

/-- Whatever the piece is told, its flow gives back each lease that it takes. -/
def Tidy (may : Nat → Prop) : EngineWork → Prop
  | .go o f => f.Tidy (o.Borrows may)
  | .wake o next | .recheck o next => ∀ r, (next r).Tidy (o.Borrows may)
  | .join _ call => ∀ r, (call.next r).Tidy (call.owner.Borrows may)
  | .collect w _ | .loaded w _ _ _ | .received w _ _ _ | .assemble w _
  | .lookUp (.building w _) _ => w.Tidy may
  | .intern o next _ => SnapshotWaiter.Tidy may (.lease o next)
  | _ => True

variable {may : Nat → Prop} {x y : EngineWork} {id : Nat}

theorem tidy_of_owner?_eq_none (h : x.owner? = none) : x.Tidy may := by
  cases x with
  | lookUp r uri =>
    cases r with
    | building => simp [owner?] at h
    | oneShot => exact trivial
  | go | wake | recheck | join | collect | loaded | received | assemble | intern =>
    simp [owner?] at h
  | _ => exact trivial

theorem GoesOn.givesBack (h : x.GoesOn y) (back : x.GivesBack id) :
    y.owner? = x.owner? ∧ y.GivesBack id := by
  cases h with
  | stays => exact ⟨rfl, back⟩
  | told _ _ r => exact ⟨rfl, back r⟩

end EngineWork

/-! ## Flows under way -/

theorem Flow.Walks.tidy {o : Owner} {s s' : Scheduler} {f f' : Flow Fact} {may : Prop}
    (h : f.Walks o s s' f') (tidy : f.Tidy may) : f'.Tidy may := by
  induction h with
  | refl => exact tidy
  | release _ ih | declare _ ih | trace _ ih | say _ ih => exact ih tidy
  | look m _ ih => exact ih (tidy m)

theorem SnapshotWaiter.Tidy.refused {may : Nat → Prop} {w : SnapshotWaiter} (h : w.Tidy may)
    (f : Failure) : (w.refused f).Tidy (w.owner.Borrows may) := by
  cases w with
  | build o next => exact h _
  | lease o next => exact h.2.1 _

namespace Engine

variable {e : Engine} {s' : Scheduler} {may : Nat → Prop} {w x : EngineWork}

/-- Tasks give back what they take. -/
structure Tidy (e : Engine) : Prop where
  bodies : ∀ {task f}, Dict.get? e.bodies task = some (.flow f) → ∀ n, (f n).Tidy True
  diagnose : ∀ root n, (e.host.diagnose root n).Tidy True

theorem Stops.tidy {o : Owner} {f : Flow Fact} (h : Stops e o f x)
    (tidy : f.Tidy (o.Borrows may)) : x.Tidy may := by
  cases h with
  | attemptDone | flightDone => exact trivial
  | noLease => exact tidy.2.1 _
  | refused | dropped | hit | noBuild => exact tidy _
  | pause | safe | joined | lease | build | gate => exact tidy

/-- What takes the place of a piece is as tidy as that was. -/
theorem Follows.tidy (h : Follows e s' w x) (engine : e.Tidy) (tidy : w.Tidy may) :
    x.Tidy may := by
  cases h with
  | go walks stops => exact stops.tidy (walks.tidy tidy)
  | begin body walks stops => exact stops.tidy (walks.tidy (engine.bodies body _))
  | diagnose body walks stops => exact stops.tidy (walks.tidy (engine.diagnose _ _))
  | unread | unreceived => exact SnapshotWaiter.Tidy.refused tidy _
  | recheck | built => exact tidy _
  | interned => exact tidy.2.1 _
  | wake | join | complete | memory | load | found | absent | opened | file | received
  | assembled => exact tidy

/-- The computation of a kept value takes no lease. -/
theorem Starts.tidy (h : e.Starts x) : x.Tidy may := by
  obtain ⟨c, rfl | ⟨r, -, rfl⟩⟩ := h
  · exact c.tidy_body _
  · exact trivial

theorem ComesFrom.tidy {begun : List (Nat × Nat)} (h : ComesFrom e s' w begun x) (engine : e.Tidy)
    (held : ∀ x ∈ e.held, x.Tidy may) (tidy : w.Tidy may) : x.Tidy may := by
  cases h with
  | held waits => exact held _ waits
  | @told id call r waits => exact held _ waits r
  | starts starts => exact starts.tidy
  | begins => exact trivial
  | follows follows => exact follows.tidy engine tidy

/-! ## Leases that are owed -/

variable {id : Nat}

/-- The lease is not live after the step, or a piece of the owner still owes it. -/
def Settles (id : Nat) (o? : Option Owner) (r : Step) : Prop :=
  Dict.get? r.1.leases.live id = none ∨ ∃ y ∈ carried r, y.owner? = o? ∧ y.GivesBack id

/-- One piece goes on in place of another. -/
theorem settles_one {o? : Option Owner} {actions : List EngineAction} {a : EngineAction}
    (mem : a ∈ actions) (sure : a.sure? = some x) (own : x.owner? = o?) (back : x.GivesBack id) :
    Settles id o? (e, actions) :=
  .inr ⟨x, List.mem_append_left _ (List.mem_filterMap.2 ⟨a, mem, sure⟩), own, back⟩

theorem settles_only {o? : Option Owner} {a : EngineAction} (sure : a.sure? = some x)
    (own : x.owner? = o?) (back : x.GivesBack id) : Settles id o? (e, [a]) :=
  settles_one (List.mem_singleton.2 rfl) sure own back

theorem settles_held {o? : Option Owner} {actions : List EngineAction} (mem : x ∈ e.held)
    (own : x.owner? = o?) (back : x.GivesBack id) : Settles id o? (e, actions) :=
  .inr ⟨x, List.mem_append_right _ mem, own, back⟩

theorem request_settles (e : Engine) (now : Nat) (o : Owner) (c : Computation)
    {next : Except Failure Fact → Flow Fact} (back : ∀ r, (next r).GivesBack id) :
    Settles id (some o) (e.request now o c next) := by
  unfold request
  split
  · exact settles_only rfl rfl (back _)
  · simp only
    split
    · exact settles_one (List.mem_append_right _ (List.mem_singleton.2 rfl)) rfl rfl (back _)
    · exact settles_one (List.mem_append_right _ (List.mem_singleton.2 rfl)) rfl rfl back
    · exact settles_one (List.mem_append_right _ (List.mem_singleton.2 rfl)) rfl rfl back

/-- A flow that owes a lease gives it back before its next stop, or still owes it there. -/
theorem go_settles (e : Engine) (now : Nat) (o : Owner) {f : Flow Fact} (back : f.GivesBack id) :
    Settles id (some o) (e.go now o f) := by
  induction f generalizing e with
  | done r => exact back.elim
  | pause next => exact settles_only rfl rfl back
  | checkpoint next =>
    unfold go
    split
    · exact settles_only rfl rfl (back _)
    · exact settles_only rfl rfl back
  | compute c next => exact request_settles e now o c back
  | lease scope next | build scope next =>
    unfold go
    split
    · exact settles_only rfl rfl back
    · exact settles_only rfl rfl (back _)
  | release n next ih =>
    obtain rfl | back := back
    · obtain ⟨leases, s, f', went⟩ := go_wentTo { e with leases := e.leases.release n } now o next
      refine .inl (Option.eq_none_iff_forall_ne_some.2 fun fp live => ?_)
      have live := (went.leases_eq ▸ went.left).live live
      simp at live
    · exact ih { e with leases := e.leases.release n } back
  | declare read scope next ih =>
    cases o with
    | attempt task => exact ih { e with scheduler := e.scheduler.declare task read scope } back
    | flight _ | errand _ => exact ih e back
  | look next ih => exact ih _ e (back _)
  | trace t next ih | say t next ih => exact ih e back
  | gate name next =>
    unfold go
    split
    · exact settles_only rfl rfl back
    · refine settles_held (x := .go o next) (mem_held.2 (.inr (.inr ⟨(name, o, next), ?_, rfl⟩)))
        rfl back
      exact List.mem_append_right _ (List.mem_singleton.2 rfl)

theorem load_settles (e : Engine) {w : SnapshotWaiter} (b : Building) (uri : Uri)
    (back : w.GivesBack id) : Settles id (some w.owner) (e.load (.building w b) uri) := by
  unfold load
  split
  · refine settles_held (x := .lookUp (.building w b) uri) ?_ rfl back
    exact mem_held.2 (.inr (.inl ⟨(uri, .building w b), by simp, rfl⟩))
  · exact settles_one (List.mem_cons_of_mem _ (List.mem_singleton.2 rfl)) rfl rfl back

/-- A flow that cannot have its snapshot hears of it. -/
theorem refuse_settles {w : SnapshotWaiter} (depth : Nat) (f : Failure) (back : w.GivesBack id) :
    Settles id (some w.owner) (e, [refuse w depth f]) := by
  cases w with
  | build o next => exact settles_only rfl rfl (back _)
  | lease o next => exact settles_only rfl rfl (back _)

/-- A piece that owes a lease is replaced by another one that does, unless it gives it back. -/
theorem perform_settles (now : Nat) (e : Engine) (back : w.GivesBack id) :
    Settles id w.owner? (perform now w e) := by
  cases w with
  | go o f => exact go_settles e now o back
  | wake o next => exact settles_only rfl rfl back
  | recheck o next => exact settles_only rfl rfl (back _)
  | join id call =>
    refine settles_held (x := .join id call) (mem_held.2 (.inl ⟨_, List.mem_append_right _
      (List.mem_singleton.2 rfl), rfl⟩)) rfl back
  | collect w b =>
    simp only [perform, collect]
    split
    · exact settles_only rfl rfl back
    · split
      · exact settles_only rfl rfl back
      · exact load_settles e _ _ back
  | lookUp r uri =>
    cases r with
    | oneShot => exact back.elim
    | building w b =>
      cases read : e.disk.read uri with
      | ok text =>
        simp only [perform, lookUp, read]
        exact settles_only rfl rfl back
      | error f =>
        simp only [perform, lookUp, read]
        exact refuse_settles _ _ back
  | loaded w b uri text =>
    simp only [perform, loaded]
    split <;> exact settles_only rfl rfl back
  | received w b uri doc =>
    simp only [perform, received]
    split
    · exact settles_only rfl rfl back
    · exact refuse_settles _ _ back
  | assemble w b =>
    cases w with
    | build o next =>
      exact settles_one (List.mem_cons_of_mem _ (List.mem_singleton.2 rfl)) rfl rfl (back _)
    | lease o next =>
      exact settles_one (List.mem_cons_of_mem _ (List.mem_singleton.2 rfl)) rfl rfl back
  | intern o next s =>
    exact settles_one (List.mem_append_right _ (List.mem_singleton.2 rfl)) rfl rfl (back _)
  | _ => exact back.elim

/-- A lease that is taken is owed by the flow that waited for it. -/
theorem intern_owes (e : Engine) {o : Owner} {next : Except Failure Lease → Flow Fact}
    {s : Snapshot} (back : ∀ l, (next (.ok l)).GivesBack l.id) : ∃ y ∈ carried (e.intern o next s),
      y.owner? = some o ∧ y.GivesBack (e.leases.take s).2.1.id :=
  ⟨.go o (next (.ok (e.leases.take s).2.1)), by simp [carried, intern, Action.sure?], rfl, back _⟩

end Engine

/-! ## Sessions -/

/-- Every live lease is owed by a piece of work, and no flow takes one that it will not give
back. -/
structure Session.Lends (may : Nat → Prop) (s : Session) : Prop where
  reached : s.state.leases.Reached
  apart : s.state.cache.Apart
  engine : s.state.Tidy
  tidy : ∀ x ∈ s.pieces, x.Tidy may
  owed : ∀ {id fp}, Dict.get? s.state.leases.live id = some fp →
    ∃ y ∈ s.carried, y.GivesBack id ∧ ∃ o, y.owner? = some o ∧ o.Borrows may

/-- A query of the owner is running: an attempt of its task is under way, or a flow of a caller with
one of the tickets. -/
def Session.Runs (may : Nat → Prop) (s : Session) : Owner → Prop
  | .attempt task => task ∈ s.state.scheduler.running
  | .errand ticket => may ticket ∧ ∃ y ∈ s.pieces, y.owner? = some (.errand ticket)
  | .flight _ => False

/-- Callers give back what they take, and take leases only under certain tickets. -/
def Happening.Tidy (may : Nat → Prop) : Happening → Prop
  | .operation (.errand ticket f) => f.Tidy (may ticket)
  | _ => True

/-- Whatever is submitted gives back what it takes, if it is the task of a query or of a root. -/
theorem Engine.Tidy.submits {e e' : Engine} (h : e.Tidy) (host : e'.host = e.host)
    {fits : TaskBody → Prop} (submits : e.Submits e'.bodies fits)
    (tidy : ∀ f, fits (.flow f) → ∀ n, (f n).Tidy True) : e'.Tidy where
  bodies := fun found => (submits.of_get? found).elim h.bodies (tidy _)
  diagnose := host ▸ h.diagnose

theorem Operation.Submits.tidy {o : Operation} {f : Nat → Flow Fact} (h : o.Submits (.flow f))
    (n : Nat) :
    (f n).Tidy True := by
  cases o with
  | ask ticket q token =>
    obtain rfl := TaskBody.flow.inj h
    exact q.tidy_run trivial fun r => by cases r <;> exact trivial
  | _ => exact h.elim

namespace Session.Lends

variable {may : Nat → Prop} {s s' : Session} {x : Happening}

theorem engine_does (h : s.Lends may) (sound : s.Sound) (d : x.Does s s') : s'.state.Tidy := by
  cases d with
  | shuffles parked state => exact state ▸ ⟨h.engine.bodies, h.engine.diagnose⟩
  | @performs _ w rest others head state =>
    obtain ⟨begun, done⟩ := sound.exists_performed head
    exact state ▸ h.engine.submits done.world.host done.bodies fun f fits => by simp at fits
  | @operates _ o state =>
    obtain ⟨begun, done⟩ := Engine.apply_operated sound.scheduler o
    exact state ▸ h.engine.submits done.host done.bodies fun f fits => fits.tidy

theorem tidy_does (h : s.Lends may) (sound : s.Sound) (d : x.Does s s') (tidy : x.Tidy may) :
    ∀ y ∈ s'.pieces, y.Tidy may := by
  intro y mem
  cases own : y.owner? with
  | none => exact EngineWork.tidy_of_owner?_eq_none own
  | some o =>
    cases d with
    | shuffles _ _ pieces => exact h.tidy y (mem_of_countP_le pieces mem)
    | @performs _ w rest others head state old new =>
      obtain ⟨begun, done⟩ := sound.exists_performed head
      have stays {z} (hz : z ∈ s.state.held ++ others) : z.Tidy may :=
        h.tidy z ((mem_congr_of_countP old).2 (List.mem_cons_of_mem _ hz))
      rcases List.mem_append.1 ((mem_congr_of_countP new).1 mem) with mem | other
      · exact (done.mem mem (by simp [own])).tidy h.engine
          (fun z hz => stays (List.mem_append_left _ hz)) (h.tidy w (mem_pieces_of_head head))
      · exact stays (List.mem_append_right _ other)
    | @operates _ o state old new =>
      obtain ⟨begun, done⟩ := Engine.apply_operated sound.scheduler o
      have stays {z} (hz : z ∈ s.state.held ++ s.works) : z.Tidy may :=
        h.tidy z ((mem_congr_of_countP old).2 hz)
      rcases List.mem_append.1 ((mem_congr_of_countP new).1 mem) with mem | other
      · obtain waits | ⟨task, n, -, rfl⟩ | ⟨ticket, f, rfl, rfl⟩ := done.mem mem (by simp [own])
        · exact stays (List.mem_append_left _ waits)
        · exact trivial
        · exact tidy
      · exact stays (List.mem_append_right _ other)

theorem owed_before (h : s.Lends may) (c : x.Carries s s') {id : Nat} {fp fp' : Text}
    (before : Dict.get? s.state.leases.live id = some fp)
    (live : Dict.get? s'.state.leases.live id = some fp') :
    ∃ y ∈ s'.carried, y.GivesBack id ∧ ∃ o, y.owner? = some o ∧ o.Borrows may := by
  obtain ⟨y, mem, back, o, own, borrows⟩ := h.owed before
  obtain ⟨z, hz, goes⟩ | ⟨state, new⟩ := c.goesOn h.apart mem
  · obtain ⟨same, back⟩ := goes.givesBack back
    exact ⟨z, hz, back, o, same.trans own, borrows⟩
  · obtain settled | ⟨z, hz, same, back⟩ := Engine.perform_settles s.agenda.clock s.state back
    · rw [state, settled] at live
      cases live
    · exact ⟨z, new z hz, back, o, same.trans own, borrows⟩

theorem owed_does (h : s.Lends may) (sound : s.Sound) (c : x.Carries s s') {id : Nat} {fp : Text}
    (live : Dict.get? s'.state.leases.live id = some fp) :
    ∃ y ∈ s'.carried, y.GivesBack id ∧ ∃ o, y.owner? = some o ∧ o.Borrows may := by
  have before {fp} (was : Dict.get? s.state.leases.live id = some fp) := h.owed_before c was live
  cases c with
  | shuffles parked state =>
    rw [state] at live
    exact before live
  | @performs _ w rest head state new =>
    obtain ⟨begun, done⟩ := sound.exists_performed head
    rw [state] at live
    obtain left | ⟨o, next, built, rfl, eq⟩ := done.leases
    · exact before (left.live live)
    · obtain rfl | was := Leases.live_of_take (eq ▸ live)
      · obtain ⟨borrows, -, back⟩ := h.tidy _ (mem_pieces_of_head head)
        obtain ⟨y, hy, own, owes⟩ := Engine.intern_owes s.state (s := built) back
        exact ⟨y, new y hy, owes, o, own, borrows⟩
      · exact before was
  | @operates _ o state =>
    obtain ⟨begun, done⟩ := Engine.apply_operated sound.scheduler o
    rw [state, done.leases] at live
    exact before live

theorem does (h : s.Lends may) (sound : s.Sound) (next : x.after? s = some s') (tidy : x.Tidy may) :
    s'.Lends may := by
  have d := Happening.does next
  have c := Happening.carries next
  refine ⟨?_, c.apart h.apart, h.engine_does sound d, h.tidy_does sound d tidy, h.owed_does sound c⟩
  obtain left | ⟨o, next, built, rest, -, eq⟩ := (d.keeps sound).2
  · exact h.reached.leftOf left
  · exact eq ▸ h.reached.take built

end Session.Lends

theorem Session.Sound.runs {s : Session} {may : Nat → Prop} {y : EngineWork} {o : Owner}
    (sound : s.Sound)
    (mem : y ∈ s.pieces) (own : y.owner? = some o) (borrows : o.Borrows may) : s.Runs may o := by
  cases o with
  | attempt task => exact sound.scheduler.mem_running.2 (sound.busy
    (countOf_pos_iff.2 ⟨y, mem, own⟩))
  | flight id => exact borrows
  | errand ticket => exact ⟨borrows, y, mem, own⟩

theorem Host.tidy_askDiagnostics (root : Uri) : (askDiagnostics root).Tidy True := by
  unfold askDiagnostics Flow.call Flow.bind
  rw [Flow.andThen_assoc]
  refine Query.tidy_run _ trivial fun r => ?_
  cases r <;> exact trivial

namespace Run

variable {host : Host} {config : EngineConfig} {h : History} {s : Session} {may : Nat → Prop}

/-- Throughout a run, every live lease is owed by a piece of work. -/
theorem lends (run : Run host config h s)
    (diagnose : ∀ root n, host.diagnose root n = Host.askDiagnostics root)
    (tidy : ∀ p ∈ h, p.2.Tidy may) : s.Lends may := by
  induction run with
  | start =>
    have engine : Engine.Tidy (Engine.start host config) := by
      refine ⟨by simp [Engine.start], fun root n => ?_⟩
      exact (diagnose root n).symm ▸ Host.tidy_askDiagnostics root
    exact ⟨.empty, ⟨List.nodup_nil, by simp [Session.start, Engine.start]⟩, engine, by simp,
      by simp [Session.start, Engine.start]⟩
  | step x run next ih =>
    exact (ih fun p hp => tidy p (List.mem_cons_of_mem _ hp)).does run.sound next
      (tidy _ List.mem_cons_self)

/-- Leases are counted exactly, whatever is taken and given back in whatever order. In a run, every
live lease will be given back by a flow under way: that of a task that is running, or of a caller
with one of the tickets. So where no query is running, nothing is in use. -/
theorem leases_counted :
    (∀ events, (Leases.after events).1.Counts (Leases.after events).2) ∧
      ∀ (host : Host) (config : EngineConfig) (h : History) (s : Session) (may : Nat → Prop),
        Run host config h s → (∀ root n, host.diagnose root n = Host.askDiagnostics root) →
        (∀ p ∈ h, p.2.Tidy may) →
          s.state.leases.Reached ∧
          (∀ id fp, Dict.get? s.state.leases.live id = some fp →
            ∃ y ∈ s.pieces, y.GivesBack id ∧ ∃ o, y.owner? = some o ∧ s.Runs may o) ∧
          ((∀ o, ¬ s.Runs may o) → s.state.leases.size = 0) := by
  refine ⟨Leases.counts_after, fun host config h s may run diagnose tidy => ?_⟩
  have lent := run.lends diagnose tidy
  have owed {id fp} (live : Dict.get? s.state.leases.live id = some fp) :
      ∃ y ∈ s.pieces, y.GivesBack id ∧ ∃ o, y.owner? = some o ∧ s.Runs may o := by
    obtain ⟨y, mem, back, o, own, borrows⟩ := lent.owed live
    have mem := Session.mem_pieces_of_carried mem
    exact ⟨y, mem, back, o, own, run.sound.runs mem own borrows⟩
  refine ⟨lent.reached, fun _ _ => owed, fun rest => ?_⟩
  refine lent.reached.size_eq_zero fun id => Option.eq_none_iff_forall_ne_some.2 fun fp live => ?_
  obtain ⟨-, -, -, o, -, runs⟩ := owed live
  exact rest o runs

/-- Three queries are asked. Two of them have a lease of the same snapshot. -/
def lending : List Happening :=
  .operation (.open "/m" "= T <x>\nSee @x" 1 none) :: works 4 ++
  .operation (.ask 0 ⟨some "/m", .definition ⟨1, 5⟩⟩ none) :: works 5 ++
  .operation (.ask 1 ⟨some "/m", .rename ⟨1, 5⟩ "1"⟩ none) :: works 5 ++
  .operation (.ask 2 ⟨some "/m", .hover ⟨1, 5⟩⟩ (some "t")) :: works 98

def ended : List Happening := lending ++ .operation (.cancelToken "t" .client) :: works 109

theorem leases_counted_ended :
    (sample lending).2.state.leases.size = 1 ∧
      (∃ y ∈ (sample lending).2.pieces, y.GivesBack 2) ∧ (sample ended).2.state.leases.size =
        0 := by
  have calm : ∀ x ∈ ended, x.Tidy fun _ => False := by
    intro x hx
    cases x with
    | operation o =>
      cases o with
      | errand =>
        simp only [ended, lending, works, List.mem_append, List.mem_cons, List.mem_replicate,
          Happening.operation.injEq, reduceCtorEq, and_false, or_self] at hx
      | _ => exact trivial
    | _ => exact trivial
  have tidy {xs : List Happening} (some : ∀ x ∈ xs, x ∈ ended) :
      ∀ p ∈ (sample xs).1, p.2.Tidy fun _ => False :=
    fun p hp => (mem_of_play hp).elim (fun none => by simp at none) fun mem => calm _ (some _ mem)
  obtain ⟨size, live, rest⟩ : (sample lending).2.state.leases.size = 1 ∧
      (Dict.get? (sample lending).2.state.leases.live 2).isSome ∧
      (sample ended).2.state.scheduler.running = [] := by decide +kernel
  obtain ⟨fp, live⟩ := Option.isSome_iff_exists.1 live
  obtain ⟨-, owed, -⟩ := leases_counted.2 _ _ _ _ (fun _ => False) (of_sample lending)
    (fun _ _ => rfl) (tidy fun x hx => List.mem_append_left _ hx)
  obtain ⟨y, mem, back, -⟩ := owed 2 fp live
  obtain ⟨-, -, nothing⟩ := leases_counted.2 _ _ _ _ (fun _ => False) (of_sample ended)
    (fun _ _ => rfl) (tidy fun x => id)
  refine ⟨size, ⟨y, mem, back⟩, nothing fun o => ?_⟩
  cases o with
  | attempt task => simp [Session.Runs, rest]
  | errand ticket => exact fun runs => runs.1
  | flight => exact not_false

end Run

end Quill
