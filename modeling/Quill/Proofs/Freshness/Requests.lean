import Quill.Proofs.Flow.Ensures
import Quill.Proofs.Freshness.Gathering
import Quill.Proofs.Freshness.Sharing
import Quill.Proofs.Run.Events

/-!
# How far a request has got

A live attempt of a task that answers a query is in one of few stages: it has begun, it gathers its
snapshot, it has a lease, or it has said what it has read and answers. In every stage it is known
what the store has that the snapshot has not.

## Main definitions

* `Engine.Asks` — the task answers a query.
* `Query.Stage` — the stages of an attempt, each by the piece of work that it is waiting for.
* `Session.Informed` — every live attempt is in a stage; `Run.informed` says that this always holds.
-/

namespace Quill

/-- What is done with an answer: a failure stays one, and an answer is what comes back, if anything
does. -/
structure Flow.Reports (k : Except Failure Answered → Flow Fact) : Prop where
  fails : ∀ f, Flow.Ensures .any (fun r => ∀ v, r ≠ .ok v) (k (.error f))
  answers : ∀ a, Flow.Ensures .any (fun r => ∀ v, r = .ok v → v = .answered a) (k (.ok a))

/-- Each attempt of the task answers the query, and goes on as `k` says. -/
def Engine.Asks (e : Engine) (task : Nat) (q : Query) (k : Except Failure Answered → Flow Fact) :
    Prop :=
  match Dict.get? e.bodies task with
  | some (.flow f) => ∀ n, f n = q.run.andThen k
  | some (.diagnose root) => ∀ n, e.host.diagnose root n = q.run.andThen k
  | none => False

theorem Engine.Asks.of_eq {e e' : Engine} {task : Nat} {q : Query}
    {k : Except Failure Answered → Flow Fact} (asks : e'.Asks task q k) (host : e'.host = e.host)
    (bodies : Dict.get? e'.bodies task = Dict.get? e.bodies task) : e.Asks task q k := by
  unfold Engine.Asks at asks ⊢
  rw [← bodies, ← host]
  exact asks

/-- All flows that the piece may go on with are of a kind. -/
def EngineWork.Goes (P : Flow Fact → Prop) : EngineWork → Prop
  | .go _ f => P f
  | .wake _ next | .recheck _ next => ∀ r, P (next r)
  | .join _ call => ∀ r, P (call.next r)
  | .attemptEnded _ r => P (.done r)
  | _ => False

namespace Query

variable {q : Query} {k : Except Failure Answered → Flow Fact} {e : Engine} {s s' : Scheduler}
  {f f' : Flow Fact} {w x : EngineWork} {task : Nat}

/-- What comes back is an answer from the snapshot. -/
def Ends (q : Query) (s : Snapshot) : Flow Fact → Prop :=
  Flow.Ensures .any fun r => ∀ v, r = .ok v → ∃ a, v = .answered a ∧ q.Answers s a

/-- Nothing comes back. -/
def Fails : Flow Fact → Prop := Flow.Ensures .any fun r => ∀ v, r ≠ .ok v

theorem fails_resume (q : Query) (reports : Flow.Reports k) (f : Failure) :
    Fails (q.resume k (.error f)) :=
  reports.fails f

theorem ends_answering (reports : Flow.Reports k) (l : Lease) :
    q.Ends l.snapshot (q.answering l k) := by
  refine (Flow.ensures_andThen _ _).2 ((q.ensures_afterDeclaration l.snapshot).mono ?_)
  intro r hr
  cases r with
  | error f => exact (reports.fails f).mono fun r none v eq => absurd eq (none v)
  | ok a => exact (reports.answers a).mono fun r only v eq => ⟨a, only v eq, hr a rfl⟩

/-- A flow that declares nothing goes up to its next stop and stays of its kind. -/
theorem goes_of_walks {Q : Except Failure Fact → Prop} {o : Owner}
    (h : Flow.Ensures .any Q f) (walks : f.Walks o s s' f') : s' = s ∧ Flow.Ensures .any Q f' := by
  induction walks with
  | refl => exact ⟨rfl, h⟩
  | release _ ih | trace _ ih | say _ ih => exact ih h
  | look m _ ih => exact ih (h m)
  | declare => exact h.elim

theorem goes_of_stops {Q : Except Failure Fact → Prop} (h : Flow.Ensures .any Q f)
    (stops : e.Stops (.attempt task) f x) : x.Goes (Flow.Ensures .any Q) := by
  cases stops with
  | attemptDone | pause => exact h
  | refused | dropped | hit => exact h _ trivial
  | safe | joined => exact fun r => h r trivial
  | lease | noLease | build | noBuild | gate => exact h.elim

/-- What goes on without a declaration leaves the scheduler alone and stays of its kind. -/
theorem goes_of_follows {Q : Except Failure Fact → Prop} (h : w.Goes (Flow.Ensures .any Q))
    (own : w.owner? = some (.attempt task)) (follows : e.Follows s' w x) :
    x.Goes (Flow.Ensures .any Q) ∧ ((∃ o f, w = .go o f) → s' = e.scheduler) := by
  cases follows with
  | go walks stops =>
    obtain rfl := Option.some.inj own
    obtain ⟨same, h⟩ := goes_of_walks h walks
    exact ⟨goes_of_stops h stops, fun _ => same⟩
  | wake | join => exact ⟨h, by simp⟩
  | recheck => exact ⟨h _, by simp⟩
  | begin | diagnose | complete | memory | load | found | unread | absent | opened | file | received
  | unreceived | built | assembled | interned => exact h.elim

inductive Stage (q : Query) (k : Except Failure Answered → Flow Fact) (task : Nat) (t : Task)
    (h : History) (store : Store) : EngineWork → Prop where
  | begins {n} (read : t.readSet = none) : Stage q k task t h store (.begin task n)
  | collects {b} (read : t.readSet = none) (scope : q.scope? = .ok b.scope)
    (gathers : b.Gathers none task t.attempts h store) :
    Stage q k task t h store (.collect (.lease (.attempt task) (q.resume k)) b)
  | looks {b uri} (read : t.readSet = none) (scope : q.scope? = .ok b.scope)
    (gathers : b.Gathers (some uri) task t.attempts h store)
    (absent : store.has uri → h.Missed task t.attempts uri) :
    Stage q k task t h store (.lookUp (.building (.lease (.attempt task) (q.resume k)) b) uri)
  | loads {b uri text} (read : t.readSet = none) (scope : q.scope? = .ok b.scope)
    (gathers : b.Gathers (some uri) task t.attempts h store)
    (absent : store.has uri → h.Missed task t.attempts uri) :
    Stage q k task t h store (.loaded (.lease (.attempt task) (q.resume k)) b uri text)
  | receives {b uri doc} (read : t.readSet = none) (scope : q.scope? = .ok b.scope)
    (gathers : b.Gathers (some uri) task t.attempts h store)
    (brings : Building.Gathers.Brings doc uri task t.attempts h store) :
    Stage q k task t h store (.received (.lease (.attempt task) (q.resume k)) b uri doc)
  | assembles {b} (read : t.readSet = none) (scope : q.scope? = .ok b.scope)
    (gathers : b.Gathers none task t.attempts h store) (complete : b.gather.next? = none) :
    Stage q k task t h store (.assemble (.lease (.attempt task) (q.resume k)) b)
  | interns {built} (read : t.readSet = none) (scope : q.scope? = .ok built.scope)
    (fits : built.Fits task t.attempts h store) :
    Stage q k task t h store (.intern (.attempt task) (q.resume k) built)
  | leased {l : Lease} (read : t.readSet = none) (scope : q.scope? = .ok l.snapshot.scope)
    (made : l.snapshot ∈ h.assembled) (fits : l.snapshot.Fits task t.attempts h store) :
    Stage q k task t h store (.go (.attempt task) (q.resume k (.ok l)))
  | answers {held y} (read : t.readSet = some held.readSet)
    (depends : t.readScope = readScopeOf held)
    (scope : q.scope? = .ok held.scope) (made : held ∈ h.assembled)
    (fits : held.Fits task t.attempts h store) (goes : y.Goes (q.Ends held)) :
    Stage q k task t h store y
  | fails {y} (goes : y.Goes Fails) : Stage q k task t h store y

namespace Stage

variable {t t' : Task} {h h' : History} {store store' : Store}

/-- A stage remains one while the client goes on, as far as the attempt has heard. -/
theorem drifts (stage : Stage q k task t h store x) (sub : h ⊆ h') (same : t.Continues t')
    (drift : t.readSet = none → History.Drifts task t.attempts h store h' store')
    (kept : ∀ {s : Snapshot}, t.readSet = some s.readSet → t.readScope = readScopeOf s →
      s.Fits task t.attempts h store → s.Fits task t.attempts h' store') :
    Stage q k task t' h' store' x := by
  have n := same.attempts
  have unread (read : t.readSet = none) : t'.readSet = none := same.readSet.trans read
  have absent {uri} (read : t.readSet = none) (old : store.has uri → h.Missed task t.attempts uri)
      (isOpen : store'.has uri) : h'.Missed task t'.attempts uri := by
    rw [n]
    rcases (drift read).has isOpen with was | missed
    · exact (old was).mono (drift read).sub
    · exact missed
  cases stage with
  | begins read => exact .begins (unread read)
  | collects read scope gathers =>
    exact .collects (unread read) scope (n ▸ gathers.drifts (drift read))
  | looks read scope gathers old =>
    exact .looks (unread read) scope (n ▸ gathers.drifts (drift read)) (absent read old)
  | loads read scope gathers old =>
    exact .loads (unread read) scope (n ▸ gathers.drifts (drift read)) (absent read old)
  | @receives b uri doc read scope gathers brings =>
    refine .receives (unread read) scope (n ▸ gathers.drifts (drift read)) ?_
    cases doc with
    | none => exact absent read brings
    | some d =>
      refine ⟨brings.1, fun memory belied => ?_⟩
      rw [n]
      rcases (drift read).belies belied with was | overlooked
      · exact (brings.2 memory was).mono (drift read).sub
      · exact overlooked
  | assembles read scope gathers complete =>
    exact .assembles (unread read) scope (n ▸ gathers.drifts (drift read)) complete
  | interns read scope fits => exact .interns (unread read) scope (n ▸ fits.drifts (drift read))
  | leased read scope made fits =>
    exact .leased (unread read) scope (History.assembled_subset sub made)
      (n ▸ fits.drifts (drift read))
  | answers read depends scope made fits goes =>
    exact .answers (same.readSet.trans read) (same.readScope.trans depends) scope
      (History.assembled_subset sub made) (n ▸ kept read depends fits) goes
  | fails goes => exact .fails goes

theorem brings_ofOpen {d : Digest} {uri : Uri} {doc : OpenDocument} {n : Nat}
    (isOpen : Dict.get? store.documents uri = some doc) :
    Building.Gathers.Brings (some (.ofOpen d uri doc)) uri task n h store := by
  refine ⟨rfl, fun _ ⟨doc', found, version, text⟩ => ?_⟩
  obtain rfl : doc = doc' := Option.some.inj (isOpen.symm.trans found)
  exact absurd rfl text

theorem of_run {leases : Leases} (reports : Flow.Reports k)
    (walks : (q.run.andThen k).Walks (.attempt task) e.scheduler s' f')
    (stops : ({ e with leases, scheduler := s' } : Engine).Stops (.attempt task) f' x)
    (ht : e.scheduler.task? task = some t) (ht' : s'.task? task = some t')
    (read : t.readSet = none) :
    Stage q k task t' h e.store x := by
  rw [run_andThen] at walks
  split at walks
  next f _ =>
    obtain ⟨-, goes⟩ := goes_of_walks (reports.fails f) walks
    exact .fails (goes_of_stops goes stops)
  next scope hs =>
    cases walks
    obtain rfl : t = t' := Option.some.inj (ht.symm.trans ht')
    cases stops with
    | lease _ _ _ b start =>
      obtain ⟨eq, gathers⟩ := Building.Gathers.start start
      exact .collects read (eq ▸ hs) gathers
    | noLease _ _ _ f _ => exact .fails (fails_resume q reports f)

/-- With a lease, the attempt says what it has read. -/
theorem of_lease {leases : Leases} {l : Lease} (reports : Flow.Reports k)
    (walks : (q.resume k (.ok l)).Walks (.attempt task) e.scheduler s' f')
    (stops : ({ e with leases, scheduler := s' } : Engine).Stops (.attempt task) f' x)
    (sound : e.scheduler.Sound) (ht : e.scheduler.task? task = some t) (live : t.IsLive)
    (ht' : s'.task? task = some t') (scope : q.scope? = .ok l.snapshot.scope)
    (made : l.snapshot ∈ h.assembled) (fits : l.snapshot.Fits task t.attempts h store) :
    Stage q k task t' h store x := by
  rw [resume_ok] at walks
  cases walks with
  | refl => cases stops
  | declare walks =>
    obtain ⟨rfl, goes⟩ := goes_of_walks (ends_answering reports l) walks
    change (e.scheduler.declare task _ _).task? task = some t' at ht'
    have busy := sound.busy_of_running ht live.1
    rw [Scheduler.task?_declare _ _ sound, if_pos rfl, ht, Option.map_some, if_pos busy] at ht'
    obtain rfl := Option.some.inj ht'
    exact .answers rfl rfl scope made fits (goes_of_stops goes stops)

/-- The flow of an attempt is the query. -/
theorem run_of_begin {n : Nat} (asks : e.Asks task q k) (follows : e.Follows s' (.begin task n) x) :
    ∃ leases f', (q.run.andThen k).Walks (.attempt task) e.scheduler s' f' ∧
      ({ e with leases, scheduler := s' } : Engine).Stops (.attempt task) f' x := by
  unfold Engine.Asks at asks
  cases follows with
  | begin body walks stops =>
    rw [body] at asks
    exact ⟨_, _, asks n ▸ walks, stops⟩
  | diagnose body walks stops =>
    rw [body] at asks
    exact ⟨_, _, asks _ ▸ walks, stops⟩

/-- What follows the piece that an attempt is waiting for is the piece of its next stage. -/
theorem follows (stage : Stage q k task t h e.store w) (own : w.owner? = some (.attempt task))
    (follows : e.Follows s' w x) (sound : e.scheduler.Sound) (asks : e.Asks task q k)
    (reports : Flow.Reports k) (ht : e.scheduler.task? task = some t) (live : t.IsLive)
    (ht' : s'.task? task = some t')
    (same : (∀ o f, w ≠ .go o f) → (∀ i n, w ≠ .begin i n) → t.Continues t')
    (shared : ∀ {o next built}, w = .intern o next built →
      (e.leases.take built).2.1.snapshot ∈ h.assembled ∧ (e.leases.take built).2.1.snapshot.scope =
        built.scope ∧
        (e.leases.take built).2.1.snapshot.documents.Perm built.documents) :
    Stage q k task t' h e.store x := by
  have still {next} (stage : Stage q k task t h e.store next) (no_go : ∀ o f, w ≠ .go o f)
      (no_begin : ∀ i n, w ≠ .begin i n) : Stage q k task t' h e.store next :=
    stage.drifts (List.Subset.refl h) (same no_go no_begin) (fun _ => .refl ..) fun _ _ fits => fits
  cases stage with
  | begins read =>
    obtain ⟨leases, f', walks, stops⟩ := run_of_begin asks follows
    exact of_run reports walks stops ht ht' read
  | @collects b read scope gathers =>
    refine still ?_ (by simp) (by simp)
    cases follows with
    | complete complete => exact .assembles read scope gathers complete
    | memory next isOpen =>
      exact .receives read scope (gathers.next next) (brings_ofOpen isOpen)
    | load next isClosed =>
      refine .looks read scope (gathers.next next) fun isOpen => ?_
      simp [Store.has, Dict.has, isClosed] at isOpen
  | looks read scope gathers absent =>
    refine still ?_ (by simp) (by simp)
    cases follows with
    | found => exact .loads read scope gathers absent
    | unread => exact .fails (fails_resume q reports _)
  | loads read scope gathers absent =>
    refine still ?_ (by simp) (by simp)
    cases follows with
    | absent => exact .receives read scope gathers absent
    | opened isOpen => exact .receives read scope gathers (brings_ofOpen isOpen)
    | file => exact .receives read scope gathers ⟨rfl, by simp [SnapshotDocument.ofFile]⟩
  | receives read scope gathers brings =>
    refine still ?_ (by simp) (by simp)
    cases follows with
    | received received =>
      obtain ⟨eq, gathers⟩ := gathers.receive brings received
      exact .collects read (eq ▸ scope) gathers
    | unreceived => exact .fails (fails_resume q reports _)
  | assembles read scope gathers complete =>
    refine still ?_ (by simp) (by simp)
    cases follows with
    | assembled => exact .interns read scope (gathers.fits complete _)
  | interns read scope fits =>
    refine still ?_ (by simp) (by simp)
    obtain ⟨made, eq, same⟩ := shared rfl
    cases follows with
    | interned => exact .leased read (eq ▸ scope) made (fits.congr eq same)
  | leased read scope made fits =>
    cases follows with
    | go walks stops => exact of_lease reports walks stops sound ht live ht' scope made fits
  | answers read depends scope made fits goes =>
    obtain ⟨goes', scheduler⟩ := goes_of_follows goes own follows
    by_cases isGo : ∃ o f, w = .go o f
    · obtain rfl := scheduler isGo
      obtain rfl : t = t' := Option.some.inj (ht.symm.trans ht')
      exact .answers read depends scope made fits goes'
    · refine still (.answers read depends scope made fits goes') (fun o f eq => isGo ⟨o, f, eq⟩) ?_
      rintro i n rfl
      exact goes.elim
  | fails goes => exact .fails (goes_of_follows goes own follows).1

end Stage

end Query

/-- Every live attempt of a task that answers a query is in a stage. -/
structure Session.Informed (s : Session) (h : History) : Prop where
  stage : ∀ {task t q k}, s.state.scheduler.task? task = some t → t.IsLive → s.state.Asks task q k →
    Flow.Reports k → ∀ {x}, x ∈ s.pieces → x.owner? = some (.attempt task) →
      q.Stage k task t h s.state.store x

namespace Session.Informed

variable {s s' : Session} {h : History} {x : Happening} {w : EngineWork} {others : List EngineWork}
  {r : Engine.Step} {begun : List (Nat × Nat)}

theorem performed (informed : s.Informed h) (sound : s.Sound) (shares : s.Shares h)
    (apart : h.TellsApart) (done : s.state.Performed w r begun) (state : s'.state = r.1)
    (old : ∀ p : EngineWork → Bool, s.pieces.countP p = (w :: (s.state.held ++ others)).countP p)
    (new : ∀ p : EngineWork → Bool, s'.pieces.countP p = (Engine.after r ++ others).countP p) :
    s'.Informed h := by
  refine ⟨fun {task t' q k} ht' live' asks' reports {x} mem own => ?_⟩
  rw [state] at ht' asks' ⊢
  rw [done.world.store]
  have before : w ∈ s.pieces := (mem_congr_of_countP old).2 List.mem_cons_self
  have asks {t} (ht : s.state.scheduler.task? task = some t) : s.state.Asks task q k :=
    asks'.of_eq done.world.host (done.bodies.get?_eq (sound.scheduler.lt_next ht))
  obtain ⟨⟨n, rfl⟩, read⟩ | ⟨t, ht, live, same, y, hy, owner, goes⟩ | ⟨mine, follows, fresh⟩ :=
    sound.attempt_cases done old ((mem_congr_of_countP new).1 mem) own ht' live'
  · exact .begins read
  · have stage := informed.stage ht live (asks ht) reports hy owner
    have moved : q.Stage k task t h s.state.store x := by
      rcases goes with rfl | ⟨id, call, r, rfl, rfl⟩
      · exact stage
      · cases stage with
        | answers read depends scope made fits goes =>
          exact .answers read depends scope made fits (goes r)
        | fails goes => exact .fails (goes r)
    exact moved.drifts (List.Subset.refl h) same (fun _ => .refl ..) fun _ _ fits => fits
  · obtain ⟨t, ht, live⟩ : ∃ t, s.state.scheduler.task? task = some t ∧ t.IsLive := by
      obtain ⟨new, -⟩ | ⟨t, ht, live, -⟩ := done.scheduler.live sound.scheduler ht' live'
      · exact absurd new fresh
      · exact ⟨t, ht, live⟩
    refine (informed.stage ht live (asks ht) reports before mine).follows mine follows
      sound.scheduler
      (asks ht) reports ht live ht' ?_ ?_
    · intro go begin_
      obtain ⟨u, hu, -, same⟩ :=
        done.scheduler.continues_of_follows follows fresh go begin_ ht' live'
      obtain rfl : t = u := Option.some.inj (ht.symm.trans hu)
      exact same
    · rintro o next built rfl
      obtain ⟨assembled, eq⟩ := shares.take (shares.pieces before)
      obtain ⟨scope, -, documents⟩ := apart _ assembled _ (shares.pieces before) eq
      exact ⟨assembled, scope, documents⟩

/-- What an operation does to the store, a live attempt that has said what it read has heard of, but
for edits that break off. -/
theorem fits_operation {e : Engine} {task : Nat} {t t' : Task} {built : Snapshot} {o : Operation}
    (inSession : s.state = e) (sound : s.Sound) (alive : e.isDisposed = false)
    (leads : e.scheduler.Leads (o.apply e).1.scheduler begun)
    (ht : e.scheduler.task? task = some t) (live : t.IsLive)
    (ht' : (o.apply e).1.scheduler.task? task = some t') (live' : t'.IsLive)
    (read : t.readSet = some built.readSet) (depends : t.readScope = Query.readScopeOf built)
    (fits : built.Fits task t.attempts h e.store) :
    built.Fits task t.attempts ((s, .operation o) :: h) (o.apply e).1.store := by
  subst inSession
  have sub : h ⊆ (s, .operation o) :: h := List.subset_cons_self _ _
  have heard (x : Uri) : Dict.get? (o.apply s.state).1.store.documents x =
        Dict.get? s.state.store.documents x ∨ (o.BreaksOff s.state ∧ s.state.store.has x) ∨
      ∃ event : StoreEvent, event.uri = x ∧ (s.state.store.has x ∨ event.kind = .open) ∧
        t.isAffectedBy event = false := by
    obtain ⟨new, -⟩ | ⟨u, hu, -, -, cases⟩ :=
      o.live_cases sound.scheduler alive leads ht' live'
    · exact absurd ⟨t, ht, sound.scheduler.busy_of_running ht live.1⟩ (leads.begun new).1
    · obtain rfl : t = u := Option.some.inj (ht.symm.trans hu)
      exact cases x
  constructor
  · intro d hd memory belied
    by_cases was : s.state.store.Belies d
    · exact (fits.fresh d hd memory was).mono sub
    obtain same | ⟨broken, -⟩ | ⟨event, isIt, -, unaffected⟩ := heard d.uri
    · simp only [Store.Belies, same] at belied
      exact absurd belied was
    · exact ⟨s, o, _, List.mem_cons_self, ⟨t, ht, live, rfl, rfl⟩, .inr broken, was, belied⟩
    · have mem : d.readEntry ∈ built.readSet := List.mem_append_left _ (List.mem_map.2 ⟨d, hd, rfl⟩)
      have none : ∀ entry ∈ built.readSet, entry.uri ≠ event.uri := by
        simp only [Task.isAffectedBy, read, Bool.or_eq_false_iff, List.any_eq_false] at unaffected
        simpa using unaffected.1
      exact absurd isIt.symm (none d.readEntry mem)
  · intro global x isOpen
    by_cases was : s.state.store.has x
    · exact (fits.full global x was).imp_right fun m => m.mono sub
    obtain same | ⟨-, open_⟩ | ⟨event, isIt, how, unaffected⟩ := heard x
    · simp only [Store.has, Dict.has, same] at isOpen
      exact absurd isOpen was
    · exact absurd open_ was
    · have opens := how.resolve_left was
      have scope : t.readScope = .workspace := by
        simp [depends, Query.readScopeOf, Snapshot.isGlobal, global]
      simp [Task.isAffectedBy, read, scope, opens] at unaffected

theorem operated (informed : s.Informed h) (sound : s.Sound) {o : Operation}
    (state : s'.state = (o.apply s.state).1)
    (old : ∀ p : EngineWork → Bool, s.pieces.countP p = (s.state.held ++ s.works).countP p)
    (new : ∀ p : EngineWork → Bool, s'.pieces.countP p =
      (Engine.after (o.apply s.state) ++ s.works).countP p) :
    s'.Informed ((s, .operation o) :: h) := by
  refine ⟨fun {task t' q k} ht' live' asks' reports {x} mem own => ?_⟩
  obtain ⟨begun, done⟩ := Engine.apply_operated sound.scheduler o
  rw [state] at ht' asks' ⊢
  have idle {n t} (begins : (task, n) ∈ begun) (ht : s.state.scheduler.task? task = some t)
      (live : t.IsLive) : False :=
    (done.scheduler.begun begins).1 ⟨t, ht, sound.scheduler.busy_of_running ht live.1⟩
  have before (mem : x ∈ s.state.held ++ s.works) :
      q.Stage k task t' ((s, .operation o) :: h) (o.apply s.state).1.store x := by
    have mem : x ∈ s.pieces := (mem_congr_of_countP old).2 mem
    obtain ⟨begins, -⟩ | ⟨t, ht, live, same⟩ := done.scheduler.live ht' live'
    · exact absurd (sound.busy (countOf_pos_iff.2 ⟨x, mem, own⟩)) (done.scheduler.begun begins).1
    have alive : s.state.isDisposed = false := by
      cases d : s.state.isDisposed with
      | false => rfl
      | true => exact absurd live (sound.dead d ht)
    have asks := asks'.of_eq done.host (done.bodies.get?_eq (sound.scheduler.lt_next ht))
    refine (informed.stage ht live asks reports mem own).drifts (List.subset_cons_self _ _) same
      (fun read => ?_) fun read depends fits =>
        fits_operation rfl sound alive done.scheduler ht live ht' live' read depends fits
    refine ⟨List.subset_cons_self _ _, fun {d} belied => ?_, fun {x} isOpen => ?_⟩
    · by_cases was : s.state.store.Belies d
      · exact .inl was
      · exact .inr ⟨s, o, none, List.mem_cons_self, ⟨t, ht, live, rfl, read⟩, .inl rfl, was, belied⟩
    · cases was : s.state.store.has x with
      | true => exact .inl rfl
      | false => exact .inr ⟨s, o, List.mem_cons_self, ⟨t, ht, live, rfl, read⟩, was, isOpen⟩
  rcases List.mem_append.1 ((mem_congr_of_countP new).1 mem) with mem | mem
  · obtain waits | ⟨id, n, begins, rfl⟩ | ⟨ticket, f, -, rfl⟩ := done.mem mem (by simp [own])
    · exact before (List.mem_append_left _ waits)
    · obtain rfl : id = task := by simpa [EngineWork.owner?] using own
      obtain ⟨-, read⟩ | ⟨t, ht, live, -⟩ := done.scheduler.live ht' live'
      · exact .begins read
      · exact (idle begins ht live).elim
    · simp [EngineWork.owner?] at own
  · exact before (List.mem_append_right _ mem)

theorem mono {h' : History} (informed : s.Informed h) (sub : h ⊆ h') : s.Informed h' :=
  ⟨fun ht live asks reports _ mem own =>
    (informed.stage ht live asks reports mem own).drifts sub (.refl _) (fun _ => ⟨sub, .inl, .inl⟩)
      fun _ _ fits => fits.drifts ⟨sub, .inl, .inl⟩⟩

theorem does (informed : s.Informed h) (sound : s.Sound) (shares : s.Shares h)
    (apart : h.TellsApart) (d : x.Does s s') : s'.Informed ((s, x) :: h) := by
  cases d with
  | shuffles parked state pieces =>
    refine ⟨fun ht live asks reports y mem own => ?_⟩
    rw [state] at ht asks ⊢
    exact (informed.mono (List.subset_cons_self _ _)).stage ht live asks reports
      (mem_of_countP_le pieces mem) own
  | @performs _ w _ others head state old new =>
    obtain ⟨begun, performed⟩ := sound.exists_performed head
    exact (informed.performed sound shares apart performed state old new).mono
      (List.subset_cons_self _ _)
  | operates state old new => exact informed.operated sound state old new

end Session.Informed

/-- Throughout a run in which fingerprints tell snapshots apart, every live attempt is in a
stage. -/
theorem Run.informed {host : Host} {config : EngineConfig} {h : History} {s : Session}
    (run : Run host config h s) (apart : h.TellsApart) : s.Informed h := by
  induction run with
  | start =>
    refine ⟨fun ht => ?_⟩
    simp [Session.start, Engine.start, Scheduler.task?] at ht
  | step x run next ih =>
    have apart' := apart.of_subset (List.subset_cons_self _ _)
    exact (ih apart').does run.sound run.shares apart' (Happening.does next)

end Quill
