import Quill.Engine.Session
import Quill.Proofs.Snapshot.Reads

/-!
# Builds of a world that does not change

As long as nothing is opened, changed and closed and the files stay as they are, a build reads just
what is to be read, whatever other work comes between its steps. It comes to an end: a document that
is there is among the finitely many open documents and files, and is read once; one that is not
there names no further ones.

## Main definitions

* `Engine.Offers` — what an engine can read.
* `Past.asked` — the files that a build has asked for.
* `Machine.Leads` — some steps lead from one machine to another one.
* `Session.doing` — the session with one piece of work to do.

## Main statements

* `History.Built.exact` — a snapshot is exact that was built while nothing changed.
* `Session.leads_gathered` — all reads of a build that nothing comes between.
* `Session.build_exact` — builds are exact, and come to an end.
-/

namespace Quill

/-! ## What can be read -/

/-- The engine can read what is offered: it has the compiler, these documents are open, and the
files are these. -/
structure Engine.Offers (e : Engine) (l : Supply) : Prop where
  digest : e.host.digest = l.digest
  compiler : e.host.compiler = l.compiler
  store : e.store = l.store
  files : ∀ uri, e.disk.read uri = .ok (l.files uri)

def Engine.uris (e : Engine) : List Uri := Dict.keys e.store.documents ++ Dict.keys e.disk.files

namespace Engine.Offers

variable {e : Engine} {l : Supply} {uri : Uri} {doc : OpenDocument}

theorem answer?_of_open (offers : e.Offers l)
    (isOpen : Dict.get? e.store.documents uri = some doc) :
    l.answer? uri = some (.ofOpen e.host.digest uri doc) := by
  simp [Supply.answer?, ← offers.store, isOpen, offers.digest]

theorem answer?_of_closed (offers : e.Offers l)
    (isClosed : Dict.get? e.store.documents uri = none) :
    l.answer? uri = (l.files uri).map (.ofFile e.host.digest uri) := by
  simp [Supply.answer?, ← offers.store, isClosed, offers.digest]

theorem has_of_open (offers : e.Offers l) (isOpen : Dict.get? e.store.documents uri = some doc) :
    l.store.has uri = true := by
  simp [Store.has, Dict.has, ← offers.store, isOpen]

theorem has_of_closed (offers : e.Offers l) (isClosed : Dict.get? e.store.documents uri = none) :
    l.store.has uri = false := by
  simp [Store.has, Dict.has, ← offers.store, isClosed]

theorem mem_uris (offers : e.Offers l) (there : (l.answer? uri).isSome) : uri ∈ e.uris := by
  rw [Engine.uris, List.mem_append, Dict.mem_keys_iff, Dict.mem_keys_iff]
  cases isOpen : Dict.get? e.store.documents uri with
  | some doc => exact .inl (by simp [Dict.has, isOpen])
  | none =>
    rw [offers.answer?_of_closed isOpen] at there
    have read := offers.files uri
    unfold Disk.read at read
    split at read
    next => simp [← Except.ok.inj read] at there
    next text file => exact .inr (by simp [Dict.has, file])
    next => cases read

end Engine.Offers

/-! ## Builds while other work is done -/

def Session.asks (s : Session) (w : EngineWork) : List Uri :=
  match w.building? with
  | some _ => (Engine.perform s.agenda.clock w s.state).2.filterMap fun
    | .emit o => o.load?
    | _ => none
  | none => []

namespace Session

variable {s : Session} {w : SnapshotWaiter} {b : Building} {uri : Uri}
  {gather : Gather SnapshotDocument}

/-- The files that are asked for by what has to be done next. -/
def loadsOf (actions : List EngineAction) : List Uri :=
  actions.filterMap fun
    | .emit o => o.load?
    | _ => none

theorem asks_collect : s.asks (.collect w b) = loadsOf (s.state.collect w b).2 := rfl

theorem asks_complete (complete : b.gather.next? = none) : s.asks (.collect w b) = [] := by
  rw [asks_collect, Engine.collect, complete]
  rfl

theorem asks_memory {doc : OpenDocument} (next : b.gather.next? = some (uri, gather))
    (isOpen : Dict.get? s.state.store.documents uri = some doc) : s.asks (.collect w b) = [] := by
  simp only [asks_collect, Engine.collect, next, isOpen]
  rfl

theorem asks_load (next : b.gather.next? = some (uri, gather))
    (isClosed : Dict.get? s.state.store.documents uri = none) : s.asks (.collect w b) = [uri] := by
  simp only [asks_collect, Engine.collect, next, isClosed, Engine.load]
  split <;> rfl

@[simp] theorem asks_lookUp (r : Reader) : s.asks (.lookUp r uri) = [] := by
  cases r with
  | oneShot => rfl
  | building w b =>
    change loadsOf (s.state.lookUp (.building w b) uri) = []
    unfold Engine.lookUp
    cases s.state.disk.read uri with
    | ok => rfl
    | error => cases w <;> rfl

@[simp] theorem asks_loaded (text : Option Text) : s.asks (.loaded w b uri text) = [] := by
  change loadsOf (s.state.loaded w b uri text) = []
  unfold Engine.loaded
  split <;> rfl

@[simp] theorem asks_received (doc : Option SnapshotDocument) :
    s.asks (.received w b uri doc) = [] := by
  change loadsOf (s.state.received w b uri doc) = []
  unfold Engine.received
  split
  · rfl
  · cases w <;> rfl

end Session

/-- The files that a build has asked for, the latest first. -/
def Past.asked (past : Past) : List Uri := past.flatMap fun p => p.1.asks p.2

@[simp] theorem Past.asked_cons (p : Session × EngineWork) (past : Past) :
    Past.asked (p :: past) = p.1.asks p.2 ++ Past.asked past := rfl

namespace EngineWork

open Building.Exact (asked)

/-- What is to be done next for a build fits what is to be read for the roots, of which these files
have been asked for. -/
def Exact (l : Supply) (roots : List Uri) : EngineWork → List Uri → Prop
  | .collect _ b, loads => b.Exact l roots none loads
  | .assemble _ b, loads => b.Exact l roots none loads ∧ b.gather.next? = none
  | .lookUp (.building _ b) uri, loads =>
    ∃ before, b.Exact l roots (some uri) before ∧ loads = asked l before uri ∧
    l.store.has uri = false
  | .loaded _ b uri text, loads =>
    ∃ before, b.Exact l roots (some uri) before ∧ loads = asked l before uri ∧
    l.store.has uri = false ∧
      text = l.files uri
  | .received _ b uri doc, loads =>
    ∃ before, b.Exact l roots (some uri) before ∧ loads = asked l before uri ∧ doc = l.answer? uri
  | _, _ => False

variable {s : Session} {s' : Scheduler} {x y : EngineWork} {b b' : Building} {l : Supply}
  {roots loads : List Uri}

theorem scope_follows {e : Engine} (follows : e.Follows s' y x) (goes : y.building? = some b)
    (goes' : x.building? = some b') : b'.scope = b.scope := by
  cases follows with
  | received received =>
    obtain rfl := Option.some.inj goes
    obtain rfl := Option.some.inj goes'
    exact Building.scope_of_receive received
  | complete | memory | load | found | absent | opened | file =>
    obtain rfl := Option.some.inj goes
    obtain rfl := Option.some.inj goes'
    rfl
  | go | begin | diagnose => cases goes
  | _ => cases goes'

/-- While nothing changes, every step of a build does what is to be done. -/
theorem Exact.follows
    (exact : y.Exact l roots loads) (offers : s.state.Offers l) (follows : s.state.Follows s' y x)
    (goes : x.building? = some b) : x.Exact l roots (s.asks y ++ loads) := by
  cases follows with
  | complete next => exact ⟨by simpa [Session.asks_complete next, Exact] using exact, next⟩
  | memory next isOpen =>
    have isIn := offers.has_of_open isOpen
    refine ⟨loads, Building.Exact.next exact next, ?_, (offers.answer?_of_open isOpen).symm⟩
    simp [Session.asks_memory next isOpen, isIn, asked]
  | load next isClosed =>
    have isOut := offers.has_of_closed isClosed
    refine ⟨loads, Building.Exact.next exact next, ?_, isOut⟩
    simp [Session.asks_load next isClosed, isOut, asked]
  | found read =>
    obtain ⟨before, exact, eq, isOut⟩ := exact
    exact ⟨before, exact, by simpa using eq, isOut, Except.ok.inj (read.symm.trans
      (offers.files _))⟩
  | @absent _ _ uri =>
    obtain ⟨before, exact, eq, isOut, absent⟩ := exact
    have isClosed : Dict.get? s.state.store.documents uri = none := by
      simpa [Store.has, Dict.has, ← offers.store] using isOut
    exact ⟨before, exact, by simpa using eq, by
        rw [offers.answer?_of_closed isClosed, ← absent]; rfl⟩
  | opened isOpen =>
    obtain ⟨before, exact, eq, isOut, -⟩ := exact
    rw [offers.has_of_open isOpen] at isOut
    cases isOut
  | file isClosed =>
    obtain ⟨before, exact, eq, -, file⟩ := exact
    exact ⟨before, exact, by simpa using eq, by rw [offers.answer?_of_closed isClosed, ← file]; rfl⟩
  | received received =>
    obtain ⟨before, exact, rfl, rfl⟩ := exact
    obtain ⟨b', took, -, exact', -⟩ := exact.receive
    rw [offers.compiler] at received
    obtain rfl := Except.ok.inj (took.symm.trans received)
    simpa [Exact] using exact'
  | go | begin | diagnose => exact exact.elim
  | _ => cases goes

end EngineWork

namespace History

variable {h : History} {x : EngineWork} {past : Past} {b : Building} {l : Supply}

theorem Builds.building? (builds : h.Builds x past) : ∃ b, x.building? = some b := by
  induction builds with
  | begin _ _ _ goes | step _ _ _ goes => exact ⟨_, goes⟩
  | meanwhile _ _ ih => exact ih

/-- While nothing changes, a build reads just what is to be read, whatever else is done. -/
theorem Builds.exact (builds : h.Builds x past) (goes : x.building? = some b)
    (whole : ∀ uri, b.scope ≠ .file uri)
    (offers : ∀ p ∈ past, p.1.state.Offers l) : x.Exact l (b.scope.roots l.store) past.asked := by
  induction builds generalizing b with
  | @begin _ s _ y _ _ b₀ _ fresh follows goes' =>
    obtain rfl := Option.some.inj (goes'.symm.trans goes)
    obtain ⟨w, scope, rfl, start⟩ := EngineWork.building?_begins follows fresh goes
    have none : s.asks y = [] := by simp [Session.asks, fresh]
    have offers : s.state.Offers l := offers _ List.mem_cons_self
    have isIt : b₀.scope = scope := Building.scope_of_start start
    rw [offers.store] at start
    have exact := Building.Exact.start (isIt ▸ whole) start
    simpa [EngineWork.Exact, none, Past.asked, isIt] using exact
  | @step _ s _ y _ _ b₀ _ builds _ follows goes' ih =>
    obtain rfl := Option.some.inj (goes'.symm.trans goes)
    obtain ⟨b₁, goes₁⟩ := builds.building?
    have scope := EngineWork.scope_follows follows goes₁ goes
    have exact := ih goes₁ (scope ▸ whole) fun p mem => offers p (List.mem_cons_of_mem _ mem)
    rw [Past.asked_cons, scope]
    exact exact.follows (offers _ List.mem_cons_self) follows goes
  | meanwhile _ _ ih => exact ih goes whole offers

/-- A snapshot is exact that was built while nothing changed. -/
theorem Built.exact {a : Snapshot} (built : h.Built past a) (whole : ∀ uri, a.scope ≠ .file uri)
    (offers : ∀ p ∈ past, p.1.state.Offers l) : a.Exact l (a.scope.roots l.store) past.asked := by
  obtain ⟨s, w, b, rest, earlier, -, builds, -, rfl⟩ := built
  obtain ⟨exact, complete⟩ : b.Exact l (b.scope.roots l.store) none past.asked ∧
    b.gather.next? = none :=
    builds.exact rfl whole offers
  exact exact.assemble complete s.state.host.fingerprint

end History

/-! ## Machines that go on -/

namespace Machine

variable {σ κ ω ο : Type} [DecidableEq κ] {perform : Perform σ κ ω ο} {m m' m'' : Machine σ κ ω ο}

def Leads (perform : Perform σ κ ω ο) (m m' : Machine σ κ ω ο) : Prop :=
  ∃ n, ∀ k, run perform (n + k) m = run perform k m'

theorem Leads.refl (m : Machine σ κ ω ο) : Leads perform m m := ⟨0, fun k => by rw [Nat.zero_add]⟩

theorem Leads.trans (h : Leads perform m m') (h' : Leads perform m' m'') : Leads perform m m'' := by
  obtain ⟨n, steps⟩ := h
  obtain ⟨n', steps'⟩ := h'
  exact ⟨n + n', fun k => by rw [Nat.add_assoc, steps, steps']⟩

theorem Leads.of_step? (next : m.step? perform = some m') : Leads perform m m' :=
  ⟨1, fun k => by rw [Nat.add_comm, run, next]⟩

theorem leads_emits (state : σ) (a : Agenda κ ω ο) (outs : List ο) (rest : List (Action κ ω ο)) :
    Leads perform ⟨state, { a with actions := outs.map .emit ++ rest }⟩
      ⟨state, { a with actions := rest, given := outs.reverse ++ a.given }⟩ := by
  induction outs generalizing a with
  | nil => exact .refl _
  | cons out outs ih =>
    refine .trans (.of_step? rfl) ?_
    simpa [Agenda.note] using ih { a with given := out :: a.given }

end Machine

namespace Session

def doing (s : Session) (w : EngineWork) (given : List EngineOutput) : Session :=
  { s with agenda := { s.agenda with actions := [.now w], ready := [], given } }

variable {s : Session} {w x : EngineWork} {given : List EngineOutput}

/-- A piece of work is followed by another one at once. -/
theorem leads_now (outs : List EngineOutput)
    (next : Engine.perform s.agenda.clock w s.state = (s.state, outs.map .emit ++ [.now x])) :
    Machine.Leads Engine.perform (s.doing w given) (s.doing x (outs.reverse ++ given)) := by
  refine .trans (.of_step? ?_)
    (Machine.leads_emits s.state { s.agenda with ready := [], given } outs [.now x])
  simp [Machine.step?, doing, next]

/-- A piece of work is followed by another one in the next turn. -/
theorem leads_later (outs : List EngineOutput)
    (next : Engine.perform s.agenda.clock w s.state = (s.state, outs.map .emit ++ [.later 0 x])) :
    Machine.Leads Engine.perform (s.doing w given) (s.doing x (outs.reverse ++ given)) := by
  refine .trans (.of_step? ?_) (.trans
    (Machine.leads_emits s.state { s.agenda with ready := [], given } outs [.later 0 x])
    (.trans (.of_step? rfl) (.of_step? rfl)))
  simp [Machine.step?, doing, next]

end Session

/-! ## Builds that nothing comes between -/

namespace Session

variable {s : Session} {l : Supply} {w : SnapshotWaiter} {b b' : Building} {uri : Uri}
  {gather : Gather SnapshotDocument} {roots loads : List Uri} {given : List EngineOutput}

def told (loads : List Uri) (given : List EngineOutput) : List EngineOutput :=
  loads.map .load ++ given

/-- A read that has come to an answer is taken in, and the next one follows. -/
theorem leads_received (offers : s.state.Offers l)
    (took : b.receive l.compiler uri (l.answer? uri) = .ok b') :
    Machine.Leads Engine.perform (s.doing (.received w b uri (l.answer? uri)) given)
      (s.doing (.collect w b') given) :=
  leads_now [] (by simp [Engine.perform, Engine.received, offers.compiler, took])

theorem leads_round (offers : s.state.Offers l) (free : s.state.disk.held = [])
    (next : b.gather.next? = some (uri, gather))
    (took : ({ b with gather } : Building).receive l.compiler uri (l.answer? uri) = .ok b') :
    Machine.Leads Engine.perform (s.doing (.collect w b) (told loads given))
      (s.doing (.collect w b') (told (Building.Exact.asked l loads uri) given)) := by
  cases isOpen : Dict.get? s.state.store.documents uri with
  | some doc =>
    have asked : Building.Exact.asked l loads uri = loads := if_pos (offers.has_of_open isOpen)
    rw [asked]
    refine .trans (leads_later [] (x := .received w { b with gather } uri (l.answer? uri)) ?_)
      (leads_received offers took)
    simp [Engine.perform, Engine.collect, next, isOpen, offers.answer?_of_open isOpen]
  | none =>
    have asked : told (Building.Exact.asked l loads uri) given = [.load uri].reverse ++
        told loads given := by
      simp [Building.Exact.asked, offers.has_of_closed isOpen, told]
    rw [asked]
    refine .trans (leads_now [.load uri] (x := .lookUp (.building w { b with gather }) uri) ?_)
      (.trans (leads_later [] (x := .loaded w { b with gather } uri (l.files uri)) ?_)
      (.trans (leads_later [] (x := .received w { b with gather } uri (l.answer? uri)) ?_)
        (leads_received offers took)))
    · simp [Engine.perform, Engine.collect, next, isOpen, Engine.load, Disk.isHeld, free]
    · simp [Engine.perform, Engine.lookUp, offers.files]
    · rw [offers.answer?_of_closed isOpen]
      cases file : l.files uri <;> simp [Engine.perform, Engine.loaded, isOpen]

def unread (s : Session) (b : Building) : List Uri :=
  s.state.uris.filter fun uri => !Dict.has b.gather.found uri

theorem length_unread_add (offers : s.state.Offers l)
    {d : SnapshotDocument} (there : l.answer? uri = some d) (new : b.gather.isSettled uri = false)
    (found : b'.gather.found = Dict.put b.gather.found uri d) :
    (s.unread b').length < (s.unread b).length := by
  have rest : s.unread b' = (s.unread b).filter fun u => u ≠ uri := by
    rw [unread, unread, List.filter_filter, found]
    refine List.filter_congr fun u _ => ?_
    rw [Bool.eq_iff_iff]
    simp [← Bool.not_eq_true, Dict.has_put]
  have notin : Dict.has b.gather.found uri = false := by
    rw [Gather.isSettled, Bool.or_eq_false_iff] at new
    exact new.1
  rw [rest, List.length_filter_lt_length_iff_exists]
  exact ⟨uri, List.mem_filter.2 ⟨offers.mem_uris (by simp [there]), by simp [notin]⟩, by simp⟩

theorem leads_gathered {b : Building} {loads : List Uri} (offers : s.state.Offers l)
    (free : s.state.disk.held = [])
    (exact : b.Exact l roots none loads) (w : SnapshotWaiter) (given : List EngineOutput) :
    ∃ b' loads', b'.scope = b.scope ∧ b'.Exact l roots none loads' ∧ b'.gather.next? = none ∧
      Machine.Leads Engine.perform (s.doing (.collect w b) (told loads given))
        (s.doing (.collect w b') (told loads' given)) := by
  match next : b.gather.next? with
  | none => exact ⟨b, loads, rfl, exact, next, .refl _⟩
  | some (uri, gather) =>
    obtain ⟨b₁, took, scope, exact₁, gather₁⟩ := (exact.next next).receive
    obtain ⟨b', loads', scope', exact', complete, leads⟩ :=
      leads_gathered offers free exact₁ w given
    exact ⟨b', loads', scope'.trans scope, exact', complete,
      .trans (leads_round offers free next took) leads⟩
termination_by ((s.unread b).length, b.gather.pending.length)
decreasing_by
  have fresh := Gather.isSettled_of_next? next
  obtain ⟨rest, pending, rfl⟩ := Gather.next?_eq_some next
  cases there : l.answer? uri with
  | some d =>
    rw [there] at gather₁
    exact .left _ _ (length_unread_add offers there fresh (congrArg Gather.found gather₁))
  | none =>
    rw [there] at gather₁
    have same : (s.unread b₁).length = (s.unread b).length := by rw [unread, unread, gather₁]; rfl
    have shorter : b₁.gather.pending.length < b.gather.pending.length := by
      have left := (List.dropWhile_sublist b.gather.isSettled (l := b.gather.pending)).length_le
      rw [pending, List.length_cons] at left
      rw [gather₁]
      exact left
    rw [Prod.lex_def]
    exact .inr ⟨same, shorter⟩

/-- The document that a snapshot is made for is open, so that the snapshot can be begun. -/
theorem start_eq_ok {store : Store} {scope : Scope} (settings : CompileSettings)
    (global : scope = .workspace ∨ ∃ entry, scope = .document entry ∧ store.has entry) :
    ∃ b, Building.start store settings scope = .ok b := by
  obtain rfl | ⟨entry, rfl, isOpen⟩ := global
  · exact ⟨_, rfl⟩
  · exact ⟨⟨.document entry, settings, .start [entry]⟩, by simp [Building.start, Scope.entryUri?,
      isOpen]⟩

/-- A build of all that is open, or of a document that is open, reads just what is to be read and
hands over a snapshot that is exact, as long as nothing is opened, changed and closed: whatever else
is done meanwhile, and however long the files take. When nothing else is to be done and the files
can be read at once, it comes to its end, and beside the debug line of the snapshot only the
questions for the files are given out. -/
theorem build_exact {scope : Scope}
    (global : scope = .workspace ∨ ∃ entry, scope = .document entry ∧ l.store.has entry) :
    (∀ {host config h s}, Run host config h s → ∀ snapshot ∈ h.assembled, snapshot.scope = scope →
      (∃ past, h.Built past snapshot) ∧ ∀ {past}, h.Built past snapshot →
      (∀ p ∈ past, p.1.state.Offers l) →
        snapshot.Exact l (scope.roots l.store) past.asked) ∧
    ∀ {s : Session} {o : Owner} {next : Except Failure Snapshot → Flow Fact},
      s.agenda.actions = [.now (.go o (.build scope next))] → s.agenda.ready = [] →
      s.state.Offers l →
      s.state.disk.held = [] → ∃ snapshot loads, snapshot.scope = scope ∧
        snapshot.Exact l (scope.roots l.store) loads ∧
        Machine.Leads Engine.perform s (s.doing (.go o (next (.ok snapshot)))
          (.trace (Engine.buildTrace snapshot) :: (loads.map .load ++ s.agenda.given))) := by
  have whole : ∀ uri, scope ≠ .file uri := by
    rintro uri rfl
    simp at global
  refine ⟨fun run snapshot mem isIt => ?_, fun {s o next} asks idle offers free => ?_⟩
  · exact ⟨run.built mem, fun built offers => isIt ▸ built.exact (isIt ▸ whole) offers⟩
  obtain ⟨b, begun⟩ := start_eq_ok s.state.settings global
  have exact := Building.Exact.start whole begun
  obtain ⟨b', loads, scope', exact', complete, gathered⟩ :=
    leads_gathered offers free exact (.build o next) s.agenda.given
  have isIt : b'.scope = scope := scope'.trans (Building.scope_of_start begun)
  refine ⟨b'.assemble s.state.host.fingerprint, loads, isIt, exact'.assemble complete _, ?_⟩
  have here : s = s.doing (.go o (.build scope next)) s.agenda.given := by
    obtain ⟨state, ⟨clock, actions, ready, soon, timers, given⟩⟩ := s
    obtain rfl : actions = _ := asks
    obtain rfl : ready = _ := idle
    rfl
  have begins :
      Machine.Leads Engine.perform s
        (s.doing (.collect (.build o next) b) (told [] s.agenda.given)) := by
    conv => lhs; rw [here]
    exact leads_now [] (by simp [Engine.perform, Engine.go, offers.store, begun])
  have ends : Machine.Leads Engine.perform
      (s.doing (.collect (.build o next) b') (told loads s.agenda.given))
      (s.doing (.assemble (.build o next) b') (told loads s.agenda.given)) :=
    leads_later [] (by simp [Engine.perform, Engine.collect, complete])
  exact begins.trans (gathered.trans (ends.trans
    (leads_later [.trace (Engine.buildTrace (b'.assemble s.state.host.fingerprint))] (by
      simp [Engine.perform, Engine.assemble]))))

def entangled : Supply where
  digest := ⟨id⟩
  store := Store.put {} "/m" ⟨"#include \"x\"\n#include \"y\"", 1, "quill", none⟩
  files := fun uri => if uri = "/x" then some "#include \"m\"" else none
  compiler := .quill
  scan := Includes.targets
  scans := Compiler.targets_quill

/-- The document is opened and a snapshot of it is built, while the file is read only when it is
released. -/
def building : List Happening :=
  [.operation (.write "/x" (some (.ok "#include \"m\""))), .operation (.hold "/x"),
    .operation (.open "/m" "#include \"x\"\n#include \"y\"" 1 none)] ++ Run.works 4 ++
  .operation (.errand 0 (.build (.document "/m") fun r => .done (r.map .snapshot))) ::
    Run.works 10 ++
  .operation (.release "/x") :: Run.works 40

def texts (d : Disk) : List (Uri × Option Text) := d.files.map fun f => (f.1, f.2.toOption)

theorem offers_entangled {e : Engine} (host : e.host = .ofCompiler .quill ⟨id⟩)
    (store : e.store = entangled.store)
    (files : texts e.disk = [(.ofString "/x", some (.ofString "#include \"m\""))]) :
    e.Offers entangled where
  digest := by rw [host]; rfl
  compiler := by rw [host]; rfl
  store := store
  files := fun uri => by
    obtain ⟨⟨file, content⟩, only, isIt⟩ := List.map_eq_singleton_iff.1 files
    obtain ⟨rfl, holds⟩ := Prod.mk.inj isIt
    cases content with
    | error => cases holds
    | ok text =>
      obtain rfl := Option.some.inj holds
      by_cases isIt : uri = "/x" <;> simp [Disk.read, only, Dict.get?, entangled, isIt, eq_comm]

def lonely : Session where
  state := { Engine.start (.ofCompiler .quill ⟨id⟩) .default with
    store := entangled.store, disk := { files := Dict.put [] "/x" (.ok "#include \"m\"") } }
  agenda := { actions :=
    [.now (.go (.errand 0) (.build (.document "/m") fun r => .done (r.map .snapshot)))] }

theorem build_exact_entangled : (∃ snapshot ∈ (Run.sample building).1.assembled, ∃ past,
      (Run.sample building).1.Built past snapshot ∧ Snapshot.Exact snapshot entangled
        ["/m"] past.asked) ∧
    ∃ snapshot loads, Snapshot.Exact snapshot entangled ["/m"] loads ∧
    Machine.Leads Engine.perform lonely
      (lonely.doing (.go (.errand 0) (.done (.ok (.snapshot snapshot))))
        (.trace (Engine.buildTrace snapshot) :: loads.map .load)) := by
  obtain ⟨along, alone⟩ := @build_exact entangled (.document "/m") (.inr ⟨"/m", rfl, by decide⟩)
  constructor
  · obtain ⟨⟨snapshot, mem, isIt⟩, still⟩ :
        (∃ a ∈ (Run.sample building).1.assembled, a.scope = .document "/m") ∧
        ∀ p ∈ (Run.sample building).1, p.1.agenda.actions.isEmpty = false →
          p.1.state.store = entangled.store ∧
            texts p.1.state.disk = [(.ofString "/x", some (.ofString "#include \"m\""))] := by
      decide +kernel
    obtain ⟨⟨past, built⟩, exact⟩ := along (Run.of_sample building) snapshot mem isIt
    refine ⟨snapshot, mem, past, built, exact built fun p done => ?_⟩
    obtain ⟨_, happened, head⟩ := built.mem p done
    obtain ⟨_, reached⟩ := (Run.of_sample building).reached_of_mem happened
    obtain ⟨store, files⟩ := still _ happened (by rw [head]; rfl)
    exact offers_entangled reached.host_eq store files
  · obtain ⟨snapshot, loads, -, exact, leads⟩ :=
      alone (s := lonely) rfl rfl (offers_entangled rfl rfl rfl) rfl
    rw [show lonely.agenda.given = [] from rfl, List.append_nil] at leads
    exact ⟨snapshot, loads, exact, leads⟩

end Session

end Quill
