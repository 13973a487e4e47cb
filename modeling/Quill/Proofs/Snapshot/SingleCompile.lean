import Mathlib.Logic.Relation
import Quill.Proofs.Flow.Computed
import Quill.Proofs.Run.Steps

/-!
# A single compile reads what a snapshot holds

Snapshots and single compiles gather their documents by themselves. As long as nothing is opened,
changed or closed and the files stay as they are, the two go alike, read by read: a single compile
finds the texts that a snapshot of its entry holds, and misses what the snapshot lacks.

## Main definitions

* `Engine.Sees` — the store and the files that an engine sees.
* `Engine.Compiles` — the piece of work that takes the place of another one in a single compile.
* `OneShot.ComesTo` — what a single compile gathers, and what the engine answers at its end.
* `OneShot.Mirrors`, `Mirrors` — a single compile is as far as a snapshot.

## Main statements

* `Engine.Compiles.leadsTo` — that piece is all that performing the other one leaves to do.
* `OneShot.ComesTo.unique` — a single compile comes to one thing only.
* `Mirrors.step` — the single compile can follow every step of the snapshot.
* `Mirrors.steps` — so it can follow to the end.
-/

namespace Quill

open Relation (ReflTransGen)

/-! ## Gathering something else of the same documents -/

namespace Gather

variable {α β : Type} (f : α → β) (g : Gather α)

/-- The same documents, of which something else was made. -/
def map : Gather β := ⟨g.pending, g.found.map fun e => (e.1, f e.2), g.missing⟩

theorem isSettled_map (uri : Uri) : (g.map f).isSettled uri = g.isSettled uri := by
  simp only [isSettled, map, Dict.has, Dict.get?_map, Option.isSome_map]

theorem next?_map : (g.map f).next? = g.next?.map fun e => (e.1, e.2.map f) := by
  have settled : (g.map f).isSettled = g.isSettled := funext (g.isSettled_map f)
  have pending : (g.map f).pending = g.pending := rfl
  rw [next?, next?, settled, pending]
  cases g.pending.dropWhile g.isSettled <;> rfl

theorem add_map (uri : Uri) (a : α) (targets : List Uri) :
    (g.map f).add uri (f a) targets = (g.add uri a targets).map f := by
  simp only [add, map, Dict.put_map]

theorem skip_map (uri : Uri) : (g.map f).skip uri = (g.skip uri).map f := rfl

end Gather

/-! ## Pieces of work -/

/-- The piece carries on the gathering of the snapshot that `waiter` waits for. -/
def EngineWork.GathersFor (waiter : SnapshotWaiter) : EngineWork → Prop
  | .collect w _ | .lookUp (.building w _) _ | .loaded w _ _ _ | .received w _ _ _ | .assemble w
    _ => w = waiter
  | _ => False

namespace Engine

/-- The engine has the compiler of the language, these documents are open, and these are the files,
all of which can be read. -/
structure Sees (e : Engine) (store : Store) (files : Uri → Option Text) : Prop where
  compiler : e.host.compiler = .quill
  store : e.store = store
  files : ∀ uri, e.disk.read uri = .ok (files uri)

/-- In a single compile, the second piece takes the place of the first one. -/
inductive Compiles (e : Engine) : EngineWork → EngineWork → Prop where
  | memory {ticket o uri gather doc} (next : o.gather.next? = some (uri, gather))
    (isOpen : Dict.get? e.store.documents uri = some doc) :
    Compiles e (.compileNext ticket o)
      (.compileLoaded ticket { o with gather } uri (.ok (some doc.text)))
  | load {ticket o uri gather} (next : o.gather.next? = some (uri, gather))
    (isClosed : Dict.get? e.store.documents uri = none) :
    Compiles e (.compileNext ticket o) (.lookUp (.oneShot ticket { o with gather }) uri)
  | found {ticket o uri} :
    Compiles e (.lookUp (.oneShot ticket o) uri) (.compileLoaded ticket o uri (e.disk.read uri))
  | received {ticket o o' uri text} (received : o.receive e.host.compiler uri text = .ok o') :
    Compiles e (.compileLoaded ticket o uri (.ok text)) (.compileNext ticket o')

variable {e e' : Engine} {store : Store} {files : Uri → Option Text} {ticket : Nat}
  {o : OneShot} {uri : Uri} {text : Except Failure (Option Text)} {w x x' : EngineWork}

/-- Performing `w`, the engine has `x` to do next, and nothing else that it did not hold already. -/
def LeadsTo (e : Engine) (w x : EngineWork) : Prop :=
  ∀ now y, y ∈ after (perform now w e) ↔ y = x ∨ y ∈ e.held

theorem Compiles.leadsTo (h : e.Compiles w x) : e.LeadsTo w x := by
  intro now y
  cases h with
  | memory next isOpen => simp [perform, compileNext, next, isOpen, after, Action.work?]
  | load next isClosed => simp only [perform, compileNext, next, isClosed, mem_after_load_iff]
  | found => simp [perform, lookUp, after, Action.work?]
  | received received =>
    simp [perform, compileLoaded, Except.bind, received, after, Action.work?]

/-- Of the engine, only the store and the files count. -/
theorem Compiles.unique (h : e.Compiles w x) (h' : e'.Compiles w x') (sees : e.Sees store files)
    (sees' : e'.Sees store files) : x = x' := by
  have store_eq : e'.store = e.store := sees'.store.trans sees.store.symm
  have read_eq (uri : Uri) : e'.disk.read uri = e.disk.read uri :=
    (sees'.files uri).trans (sees.files uri).symm
  have compiler_eq : e'.host.compiler = e.host.compiler := sees'.compiler.trans sees.compiler.symm
  cases h <;> cases h' <;> grind

end Engine

def Engine.Gathering (store : Store) (files : Uri → Option Text) (waiter : SnapshotWaiter) :
    EngineWork → EngineWork → Prop :=
  ReflTransGen fun w x => x.GathersFor waiter ∧
    ∃ (e : Engine) (s' : Scheduler), e.Sees store files ∧ e.Follows s' w x

/-- While the store and the files are these, the engine performs a piece of a single compile, which
leads to the next one. -/
def Engine.CompileStep (store : Store) (files : Uri → Option Text) (w x : EngineWork) : Prop :=
  ∃ e : Engine, e.Sees store files ∧ e.Compiles w x ∧ e.LeadsTo w x

def Engine.Compiling (store : Store) (files : Uri → Option Text) : EngineWork → EngineWork → Prop :=
  ReflTransGen (CompileStep store files)

/-- While the store and the files are these, a single compile gathers `o'` at last, and the engine
answers with `c`. -/
structure OneShot.ComesTo (store : Store) (files : Uri → Option Text) (ticket : Nat)
    (o o' : OneShot) (c : Compiled) : Prop where
  gathers : Engine.Compiling store files (.compileNext ticket o) (.compileNext ticket o')
  complete : o'.gather.next? = none
  compiled : o'.finish .quill = .ok c
  answers : ∀ (e : Engine) now, e.Sees store files →
    .emit (.answered ticket (.ok (.compiled c))) ∈ (e.perform now (.compileNext ticket o')).2

theorem OneShot.ComesTo.of_finish {store : Store} {files : Uri → Option Text} {ticket : Nat}
    {o o' : OneShot} {c : Compiled}
    (gathers : Engine.Compiling store files (.compileNext ticket o) (.compileNext ticket o'))
    (complete : o'.gather.next? = none) (compiled : o'.finish .quill = .ok c) :
    o.ComesTo store files ticket o' c where
  gathers := gathers
  complete := complete
  compiled := compiled
  answers e now sees := by
    simp [Engine.perform, Engine.compileNext, Engine.compileEnded, complete, sees.compiler,
      compiled, Except.map]

theorem OneShot.ComesTo.unique {store : Store} {files : Uri → Option Text} {ticket : Nat}
    {o a b : OneShot} {c d : Compiled} (h : o.ComesTo store files ticket a c)
    (h' : o.ComesTo store files ticket b d) :
    a = b ∧ c = d := by
  have stuck {o : OneShot} {x : EngineWork} (complete : o.gather.next? = none) :
      ¬ Engine.CompileStep store files (.compileNext ticket o) x := by
    rintro ⟨e, -, step, -⟩
    cases step <;> simp_all
  have deterministic : Relator.RightUnique (Engine.CompileStep store files) := by
    rintro w x x' ⟨e, sees, step, -⟩ ⟨e', sees', step', -⟩
    exact step.unique step' sees sees'
  obtain rfl : a = b := by
    rcases ReflTransGen.total_of_right_unique deterministic h.gathers h'.gathers with path | path
    · rcases path.cases_head with eq | ⟨x, step, -⟩
      · simpa using eq
      · exact absurd step (stuck h.complete)
    · rcases path.cases_head with eq | ⟨x, step, -⟩
      · simpa using eq.symm
      · exact absurd step (stuck h'.complete)
  exact ⟨rfl, Except.ok.inj (h.compiled.symm.trans h'.compiled)⟩

/-! ## In step -/

/-- The single compile is as far as the snapshot: it has gathered the sources of the documents that
the snapshot has. `current` is being read. -/
structure OneShot.Mirrors (store : Store) (entry : Uri) (o : OneShot) (b : Building)
    (current : Option Uri) :
    Prop where
  root : o.entry = entry
  scope : b.scope = .document entry
  settings : o.settings = b.settings
  gather : o.gather = b.gather.map Snapshot.sourceOf
  closed : b.Closed .quill current
  isOpen : store.has entry
  kept : entry ∉ b.gather.missing

/-- A piece that gathers a snapshot, and the piece of a single compile that is as far. -/
inductive Mirrors (store : Store) (entry : Uri) (ticket : Nat) :
    EngineWork → EngineWork → Prop where
  | between {w b o} (same : o.Mirrors store entry b none) :
    Mirrors store entry ticket (.collect w b) (.compileNext ticket o)
  | looks {w b o uri} (same : o.Mirrors store entry b (some uri))
    (isClosed : Dict.get? store.documents uri = none) :
    Mirrors store entry ticket (.lookUp (.building w b) uri) (.lookUp (.oneShot ticket o) uri)
  | loads {w b o uri text} (same : o.Mirrors store entry b (some uri))
    (isClosed : Dict.get? store.documents uri = none) :
    Mirrors store entry ticket (.loaded w b uri text) (.compileLoaded ticket o uri (.ok text))
  | receives {w b o uri doc} (same : o.Mirrors store entry b (some uri))
    (isIt : ∀ d, doc = some d → d.uri = uri) (absent : doc = none → uri ≠ entry) :
    Mirrors store entry ticket (.received w b uri doc)
      (.compileLoaded ticket o uri (.ok (doc.map SnapshotDocument.text)))
  | ends {w b o} (same : o.Mirrors store entry b none) (complete : b.gather.next? = none) :
    Mirrors store entry ticket (.assemble w b) (.compileNext ticket o)

namespace OneShot.Mirrors

variable {store : Store} {o : OneShot} {b b' : Building} {entry uri : Uri} {current : Option Uri}
  {gather : Gather SnapshotDocument} {doc : Option SnapshotDocument}

theorem start {settings : CompileSettings}
    (begun : Building.start store settings (.document entry) = .ok b) :
    (OneShot.start entry settings).Mirrors store entry b none := by
  have closed : b.Closed .quill none := .start begun
  unfold Building.start at begun
  simp only [Scope.entryUri?] at begun
  split at begun
  next isOpen =>
    obtain rfl := Except.ok.inj begun
    exact ⟨rfl, rfl, rfl, rfl, closed, isOpen, by simp [Gather.start]⟩
  next => simp at begun

theorem next?_eq (same : o.Mirrors store entry b current) :
    o.gather.next? = b.gather.next?.map fun e => (e.1, e.2.map Snapshot.sourceOf) := by
  rw [same.gather, Gather.next?_map]

theorem next (same : o.Mirrors store entry b none) (eq : b.gather.next? = some (uri, gather)) :
    ({ o with gather := gather.map Snapshot.sourceOf } : OneShot).Mirrors store entry
      { b with gather } (some uri) where
  root := same.root
  scope := same.scope
  settings := same.settings
  gather := rfl
  closed := same.closed.next eq
  isOpen := same.isOpen
  kept := by
    obtain ⟨rest, -, rfl⟩ := Gather.next?_eq_some eq
    exact same.kept

/-- What is received takes both on alike. -/
theorem receive (same : o.Mirrors store entry b (some uri)) (isIt : ∀ d, doc = some d → d.uri = uri)
    (absent : doc = none → uri ≠ entry) (eq : b.receive .quill uri doc = .ok b') :
    ∃ o', o.receive .quill uri (doc.map SnapshotDocument.text) = .ok o' ∧
    o'.Mirrors store entry b' none := by
  have closed := same.closed.receive isIt eq
  cases doc with
  | none =>
    obtain rfl := Except.ok.inj eq
    refine ⟨{ o with gather := o.gather.skip uri }, by simp [OneShot.receive, same.root,
      absent rfl], same.root, same.scope, same.settings, ?_, closed, same.isOpen, ?_⟩
    · rw [same.gather, Gather.skip_map]
    · simpa [Gather.skip, same.kept] using Ne.symm (absent rfl)
  | some d =>
    obtain rfl := isIt d rfl
    have added : { b with gather := b.gather.add d.uri d (Includes.targets d.uri d.text) } =
        b' := by
      simpa [Building.receive, same.scope, Compiler.quill, bind, Except.bind] using eq
    subst added
    refine ⟨{ o with gather := o.gather.add d.uri (Snapshot.sourceOf d) (Includes.targets d.uri
      d.text) }, rfl, same.root, same.scope, same.settings, ?_, closed, same.isOpen, same.kept⟩
    rw [same.gather, Gather.add_map]

end OneShot.Mirrors

namespace Mirrors

variable {e : Engine} {s' : Scheduler} {store : Store} {files : Uri → Option Text} {entry : Uri}
  {ticket : Nat} {w x y : EngineWork} {waiter : SnapshotWaiter}

theorem step (mirrors : Mirrors store entry ticket w y) (sees : e.Sees store files)
    (follows : e.Follows s' w x) (gathers : x.GathersFor waiter) :
    ∃ y', ReflTransGen e.Compiles y y' ∧ Mirrors store entry ticket x y' := by
  obtain ⟨compiler, rfl, files⟩ := sees
  cases mirrors with
  | between same =>
    cases follows with
    | complete complete => exact ⟨_, .refl, .ends same complete⟩
    | @memory w b uri gather doc next isOpen =>
      have there := same.next?_eq.trans (congrArg _ next)
      refine ⟨_, .single (.memory there isOpen), ?_⟩
      refine @receives _ _ _ _ _ _ _ (some (.ofOpen e.host.digest uri doc)) (same.next next) ?_
        (by simp)
      simp [SnapshotDocument.ofOpen]
    | load next isClosed =>
      have there := same.next?_eq.trans (congrArg _ next)
      exact ⟨_, .single (.load there isClosed), .looks (same.next next) isClosed⟩
  | looks same isClosed =>
    cases follows with
    | found found =>
      refine ⟨_, .single .found, ?_⟩
      rw [found]
      exact .loads same isClosed
    | unread => exact gathers.elim
  | @loads w b o uri text same isClosed =>
    cases follows with
    | absent =>
      refine ⟨_, .refl, @receives _ _ _ _ _ _ _ none same (by simp) fun _ own => ?_⟩
      have isOpen := same.isOpen
      simp [← own, Store.has, Dict.has, isClosed] at isOpen
    | opened isOpen => simp [isClosed] at isOpen
    | @file _ _ _ text _ =>
      refine ⟨_, .refl, @receives _ _ _ _ _ _ _ (some (.ofFile e.host.digest uri text))
        same ?_ (by simp)⟩
      simp [SnapshotDocument.ofFile]
  | receives same isIt absent =>
    cases follows with
    | received received =>
      rw [compiler] at received
      obtain ⟨o', received', same⟩ := same.receive isIt absent received
      exact ⟨_, .single (.received (compiler ▸ received')), .between same⟩
    | unreceived => exact gathers.elim
  | ends =>
    cases follows with
    | built | assembled => exact gathers.elim

theorem steps (mirrors : Mirrors store entry ticket w y)
    (path : Engine.Gathering store files waiter w x) :
    ∃ y', Engine.Compiling store files y y' ∧ Mirrors store entry ticket x y' := by
  induction path with
  | refl => exact ⟨y, .refl, mirrors⟩
  | tail _ step ih =>
    obtain ⟨y', compiling, mirrors⟩ := ih
    obtain ⟨gathers, e, s', sees, follows⟩ := step
    obtain ⟨z, more, mirrors⟩ := mirrors.step sees follows gathers
    have seen : Engine.Compiling store files y' z :=
      ReflTransGen.mono (fun w x compiles => ⟨e, sees, compiles, compiles.leadsTo⟩) _ _ more
    exact ⟨z, compiling.trans seen, mirrors⟩

end Mirrors

end Quill
