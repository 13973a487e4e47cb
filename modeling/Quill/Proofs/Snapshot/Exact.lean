import Quill.Proofs.Snapshot.Closure

/-!
# What a snapshot is to hold

As long as nothing is opened, changed or closed and the files stay as they are, it is settled
beforehand what a snapshot has to read: its roots, and again and again what it finds in what it
reads. Reading one document after another comes to just this, each document once, however the
documents include each other.

## Main definitions

* `Supply` — the open documents and the files that can be read.
* `Supply.Needs` — what has to be read for some roots.
* `Snapshot.Exact` — the snapshot holds just that, and each file that is not open was asked for
  once.
* `Gather.Knows`, `Building.Exact` — what holds between two reads.

## Main statements

* `Snapshot.Exact.document?_eq_some_iff` — what an exact snapshot holds.
* `Building.Exact.receive` — a read keeps it.
* `Building.Exact.assemble` — when nothing is left to be read, the snapshot is exact.
-/

namespace Quill

/-! ## What has to be read -/

theorem Compiler.targets_quill (uri : Uri) (t : Text) :
    Compiler.quill.targets uri t = .ok (Includes.targets uri t) := rfl

/-- What can be read while nothing changes: the open documents and the files. The compiler finds the
targets of every text. -/
structure Supply where
  digest : Digest
  store : Store
  files : Uri → Option Text
  compiler : Compiler
  scan : Uri → Text → List Uri
  scans : ∀ uri text, compiler.targets uri text = .ok (scan uri text)

namespace Supply

variable (l : Supply)

def answer? (uri : Uri) : Option SnapshotDocument :=
  match Dict.get? l.store.documents uri with
  | some doc => some (.ofOpen l.digest uri doc)
  | none => (l.files uri).map (.ofFile l.digest uri)

/-- What has to be read for some roots: the roots, and what a document names that has to be read and
is there. -/
inductive Needs (roots : List Uri) : Uri → Prop
  | root {x} (mem : x ∈ roots) : Needs roots x
  | target {uri d x} (needed : Needs roots uri) (there : l.answer? uri = some d)
    (mem : x ∈ l.scan uri d.text) :
    Needs roots x

variable {l}

theorem uri_answer? {uri : Uri} {d : SnapshotDocument} (there : l.answer? uri = some d) :
    d.uri = uri := by
  unfold answer? at there
  split at there
  · exact (Option.some.inj there) ▸ rfl
  · obtain ⟨text, -, rfl⟩ := Option.map_eq_some_iff.1 there
    rfl

end Supply

/-- The documents from which a snapshot starts: the one that it is made for, or all that are
open. -/
def Scope.roots (store : Store) : Scope → List Uri
  | .document entry | .file entry => [entry]
  | .workspace => Dict.keys store.documents

/-- The snapshot holds just what has to be read for the roots, each document once under its uri, and
lacks what is not there of it. Of this the files have been asked for that are not open, each
once. -/
structure Snapshot.Exact (s : Snapshot) (l : Supply) (roots loads : List Uri) : Prop where
  keyed : ∀ e ∈ s.documents, e.2.uri = e.1
  nodup : (Dict.keys s.documents).Nodup
  needed : ∀ x, Dict.has s.documents x ∨ x ∈ s.missing ↔ l.Needs roots x
  disjoint : ∀ x, Dict.has s.documents x → x ∉ s.missing
  memory : ∀ x, l.Needs roots x → ∀ doc, Dict.get? l.store.documents x = some doc →
    s.document? x = some (.ofOpen l.digest x doc)
  disk : ∀ x, l.Needs roots x → l.store.has x = false → ∀ text, l.files x = some text →
    s.document? x = some (.ofFile l.digest x text)
  missing : ∀ x, l.Needs roots x → l.store.has x = false → l.files x = none → x ∈ s.missing
  loads_nodup : loads.Nodup
  mem_loads : ∀ x, x ∈ loads ↔ l.Needs roots x ∧ l.store.has x = false
  readSet_nodup : (s.readSet.map (·.uri)).Nodup
  mem_readSet : ∀ x, x ∈ s.readSet.map (·.uri) ↔ l.Needs roots x

/-- What an exact snapshot holds has to be read, and is what a read comes to. -/
theorem Snapshot.Exact.document?_eq_some_iff {s : Snapshot} {l : Supply} {roots loads : List Uri}
    (exact : s.Exact l roots loads) {x : Uri} {d : SnapshotDocument} :
    s.document? x = some d ↔ l.Needs roots x ∧ l.answer? x = some d := by
  have holds (needed : l.Needs roots x) : s.document? x = l.answer? x := by
    cases isOpen : Dict.get? l.store.documents x with
    | some doc => rw [exact.memory x needed doc isOpen, Supply.answer?, isOpen]
    | none =>
      have isClosed : l.store.has x = false := by simp [Store.has, Dict.has, isOpen]
      cases file : l.files x with
      | some text => rw [exact.disk x needed isClosed text file, Supply.answer?, isOpen, file]; rfl
      | none =>
        have absent : s.document? x = none := Option.eq_none_iff_forall_ne_some.2 fun d found =>
          exact.disjoint x (Option.isSome_iff_exists.2 ⟨d, found⟩)
            (exact.missing x needed isClosed file)
        rw [absent, Supply.answer?, isOpen, file]
        rfl
  constructor
  · intro found
    have needed := (exact.needed x).1 (.inl (Option.isSome_iff_exists.2 ⟨d, found⟩))
    exact ⟨needed, (holds needed).symm.trans found⟩
  · rintro ⟨needed, there⟩
    exact (holds needed).trans there

/-! ## Between two reads -/

namespace Gather

variable {α : Type} {g g' : Gather α} {uri x : Uri}

/-- The document has been read or found missing, or it is to be looked at; `current` is being
read. -/
def Knows (g : Gather α) (current : Option Uri) (x : Uri) :
    Prop := g.isSettled x ∨ x ∈ g.pending ∨ current = some x

theorem isSettled_add (g : Gather α) (uri x : Uri) (a : α) (targets : List Uri) :
    (g.add uri a targets).isSettled x ↔ x = uri ∨ g.isSettled x := by
  rw [isSettled_iff, isSettled_iff, ← or_assoc]
  exact or_congr_left (Dict.has_put _ _ _ _)

theorem isSettled_skip (g : Gather α) (uri x : Uri) :
    (g.skip uri).isSettled x ↔ x = uri ∨ g.isSettled x := by
  rw [isSettled_iff, isSettled_iff]
  simp only [skip, List.mem_append, List.mem_singleton]
  grind

theorem knows_next (next : g.next? = some (uri, g')) : g'.Knows (some uri) x ↔ g.Knows none x := by
  obtain ⟨rest, pending, rfl⟩ := next?_eq_some next
  simp only [Knows, isSettled, Option.some.injEq, reduceCtorEq, or_false]
  have before (mem : x ∈ uri :: rest) : x ∈ g.pending :=
    (List.dropWhile_sublist _).subset (pending ▸ mem)
  constructor
  · refine Or.imp_right fun waits => before ?_
    exact waits.elim (List.mem_cons_of_mem _) (· ▸ List.mem_cons_self)
  · refine fun known => known.elim .inl fun waits => ?_
    refine (mem_pending_cases waits).symm.imp_right fun left => ?_
    exact (List.mem_cons.1 (pending ▸ left)).symm.imp_right Eq.symm

theorem knows_skip : (g.skip uri).Knows none x ↔ g.Knows (some uri) x := by
  simp only [Knows, isSettled_skip, Option.some.injEq, reduceCtorEq, or_false]
  grind [skip]

theorem knows_add {a : α} {targets : List Uri} :
    (g.add uri a targets).Knows none x ↔ g.Knows (some uri) x ∨ x ∈ targets := by
  simp only [Knows, isSettled_add, Option.some.injEq, reduceCtorEq, or_false]
  grind [add]

/-- When nothing is left to be read, only what is settled is known. -/
theorem knows_iff_of_next?_eq_none (complete : g.next? = none) : g.Knows none x ↔ g.isSettled x :=
  ⟨fun knows => knows.elim id fun h => h.elim (isSettled_of_next?_eq_none complete) nofun, .inl⟩

end Gather

namespace Building

variable {c : Compiler} {b b' : Building} {uri : Uri}

theorem scope_of_start {store : Store} {settings : CompileSettings} {scope : Scope}
    (begun : Building.start store settings scope = .ok b) : b.scope = scope := by
  unfold Building.start at begun
  repeat' split at begun
  all_goals cases begun <;> rfl

theorem scope_of_receive {doc : Option SnapshotDocument} (took : b.receive c uri doc = .ok b') :
    b'.scope = b.scope := by
  cases doc with
  | none => exact (Except.ok.inj took) ▸ rfl
  | some d =>
    obtain ⟨targets, rfl, -⟩ := eq_of_receive took
    rfl

end Building

/-- What has been found and what is missing is what reads come to. What is known is needed, and the
roots and all that has been named so far are known. The files that are settled and not open have
been asked for. -/
structure Building.Exact (l : Supply) (roots : List Uri) (b : Building) (current : Option Uri)
    (loads : List Uri) :
    Prop where
  whole : ∀ uri, b.scope ≠ .file uri
  closed : b.Closed l.compiler current
  found : ∀ e ∈ b.gather.found, l.answer? e.1 = some e.2
  missing : ∀ x ∈ b.gather.missing, l.answer? x = none
  nodup : b.gather.missing.Nodup
  needed : ∀ {x}, b.gather.Knows current x → l.Needs roots x
  roots : ∀ x ∈ roots, b.gather.Knows current x
  named : ∀ e ∈ b.gather.found, ∀ x ∈ l.scan e.1 e.2.text, b.gather.Knows current x
  loads_nodup : loads.Nodup
  mem_loads : ∀ {x}, x ∈ loads ↔ b.gather.isSettled x ∧ l.store.has x = false

namespace Building.Exact

variable {l : Supply} {roots loads : List Uri} {b b' : Building} {uri : Uri}
  {gather : Gather SnapshotDocument}

theorem start {settings : CompileSettings} {scope : Scope} (whole : ∀ uri, scope ≠ .file uri)
    (begun : Building.start l.store settings scope = .ok b) :
    b.Exact l (scope.roots l.store) none [] := by
  have closed : b.Closed l.compiler none := .start begun
  -- whatever the scope, its roots are all that is waiting
  obtain ⟨pending, found, missing⟩ : (∀ x, x ∈ b.gather.pending ↔ x ∈ scope.roots l.store) ∧
      b.gather.found = [] ∧ b.gather.missing = [] := by
    unfold Building.start at begun
    cases scope with
    | workspace =>
      obtain rfl := Except.ok.inj begun
      exact ⟨fun x => (Text.sort_perm _).mem_iff, rfl, rfl⟩
    | document entry | file entry =>
      simp only [Scope.entryUri?] at begun
      split at begun
      · obtain rfl := Except.ok.inj begun
        exact ⟨fun x => Iff.rfl, rfl, rfl⟩
      · cases begun
  have knows {x : Uri} : b.gather.Knows none x ↔ x ∈ scope.roots l.store := by
    simp [Gather.Knows, Gather.isSettled, found, missing, pending, Dict.has]
  refine ⟨scope_of_start begun ▸ whole,
    closed, by simp [found], by simp [missing], by simp [missing],
    fun known => .root (knows.1 known), fun x mem => knows.2 mem, by simp [found], .nil, ?_⟩
  simp [Gather.isSettled, found, missing, Dict.has]

/-- The next document is read. -/
theorem next (exact : b.Exact l roots none loads) (next : b.gather.next? = some (uri, gather)) :
    ({ b with gather } : Building).Exact l roots (some uri) loads := by
  have closed := exact.closed.next next
  have knows {x : Uri} := Gather.knows_next (x := x) next
  obtain ⟨rest, -, rfl⟩ := Gather.next?_eq_some next
  exact
    { exact with
      closed
      needed := fun known => exact.needed (knows.1 known)
      roots := fun x mem => knows.2 (exact.roots x mem)
      named := fun e mem x there => knows.2 (exact.named e mem x there) }

/-- What has been asked for when the read of a document is over, the latest first. -/
def asked (l : Supply) (loads : List Uri) (uri : Uri) : List Uri :=
  if l.store.has uri then loads else uri :: loads

theorem nodup_asked (exact : b.Exact l roots (some uri) loads) : (asked l loads uri).Nodup := by
  unfold asked
  split
  · exact exact.loads_nodup
  · refine List.nodup_cons.2 ⟨fun old => ?_, exact.loads_nodup⟩
    have settled := (exact.mem_loads.1 old).1
    simp [exact.closed.fresh uri rfl] at settled

theorem mem_asked (exact : b.Exact l roots (some uri) loads) {x : Uri} :
    x ∈ asked l loads uri ↔ (x = uri ∨ b.gather.isSettled x) ∧ l.store.has x = false := by
  unfold asked
  split
  next isOpen =>
    rw [exact.mem_loads]
    refine and_congr_left fun closed => (or_iff_right ?_).symm
    rintro rfl
    simp [isOpen] at closed
  next isClosed =>
    rw [List.mem_cons, exact.mem_loads]
    grind

/-- What a read comes to is taken in. -/
theorem receive (exact : b.Exact l roots (some uri) loads) :
    ∃ b', b.receive l.compiler uri (l.answer? uri) = .ok b' ∧
    b'.scope = b.scope ∧ b'.Exact l roots none (asked l loads uri) ∧
    b'.gather = match l.answer? uri with
      | some d => b.gather.add uri d (l.scan uri d.text)
      | none => b.gather.skip uri := by
  cases there : l.answer? uri with
  | none =>
    have fresh := exact.closed.fresh uri rfl
    refine ⟨{ b with gather := b.gather.skip uri }, rfl, rfl, ?_, rfl⟩
    exact
      { whole := exact.whole
        closed := exact.closed.skip
        found := exact.found
        missing := fun x mem => by
          rcases List.mem_append.1 mem with old | new
          · exact exact.missing x old
          · exact List.mem_singleton.1 new ▸ there
        nodup := by
          refine List.nodup_append.2
            ⟨exact.nodup, List.pairwise_singleton _ _, fun x old y new eq => ?_⟩
          obtain rfl := List.mem_singleton.1 new
          simp [Gather.isSettled, ← eq, show x ∈ b.gather.missing from old] at fresh
        needed := fun known => exact.needed (Gather.knows_skip.1 known)
        roots := fun x mem => Gather.knows_skip.2 (exact.roots x mem)
        named := fun e mem x there => Gather.knows_skip.2 (exact.named e mem x there)
        loads_nodup := exact.nodup_asked
        mem_loads := by
          intro x
          rw [exact.mem_asked, Gather.isSettled_skip] }
  | some d =>
    have isIt := Supply.uri_answer? there
    have took : b.receive l.compiler uri (some d) =
        .ok { b with gather := b.gather.add uri d (l.scan uri d.text) } := by
      unfold Building.receive
      cases scope : b.scope with
      | file entry => exact absurd scope (exact.whole entry)
      | document | workspace => simp [l.scans, bind, Except.bind]
    refine ⟨_, took, rfl, ?_, rfl⟩
    have older {e : Uri × SnapshotDocument} (mem : e ∈ Dict.put b.gather.found uri d) :
        e = (uri, d) ∨ e ∈ b.gather.found := Dict.mem_put mem
    exact
      { whole := exact.whole
        closed := exact.closed.add isIt fun _ _ => l.scans uri d.text
        found := fun e mem => by
          rcases older mem with rfl | old
          · exact there
          · exact exact.found e old
        missing := exact.missing
        nodup := exact.nodup
        needed := fun known => by
          rcases Gather.knows_add.1 known with known | named
          · exact exact.needed known
          · exact .target (exact.needed (.inr (.inr rfl))) there named
        roots := fun x mem => Gather.knows_add.2 (.inl (exact.roots x mem))
        named := fun e mem x there => by
          rcases older mem with rfl | old
          · exact Gather.knows_add.2 (.inr there)
          · exact Gather.knows_add.2 (.inl (exact.named e old x there))
        loads_nodup := exact.nodup_asked
        mem_loads := by
          intro x
          rw [exact.mem_asked, Gather.isSettled_add] }

/-- When nothing is left to be read, just what is needed is settled. -/
theorem isSettled_iff (exact : b.Exact l roots none loads) (complete : b.gather.next? = none)
    {x : Uri} :
    b.gather.isSettled x ↔ l.Needs roots x := by
  have knows {x : Uri} := Gather.knows_iff_of_next?_eq_none (x := x) complete
  refine ⟨fun settled => exact.needed (.inl settled), fun needed => ?_⟩
  induction needed with
  | root mem => exact knows.1 (exact.roots _ mem)
  | @target uri d x _ there mem ih =>
    -- the document that names it was found, and not missed
    rcases Gather.isSettled_iff.1 ih with found | missing
    · obtain ⟨⟨_, d'⟩, inside, rfl⟩ := List.mem_map.1 (Dict.mem_keys_iff.2 found)
      obtain rfl := Option.some.inj ((exact.found _ inside).symm.trans there)
      exact knows.1 (exact.named _ inside x mem)
    · simp [exact.missing uri missing] at there

theorem get?_found (exact : b.Exact l roots none loads) (complete : b.gather.next? = none) {x : Uri}
    (needed : l.Needs roots x) : Dict.get? b.gather.found x = l.answer? x ∧
      (l.answer? x = none → x ∈ b.gather.missing) := by
  rcases Gather.isSettled_iff.1 ((exact.isSettled_iff complete).2 needed) with found | missing
  · obtain ⟨d, found⟩ := Option.isSome_iff_exists.1 found
    have there := exact.found _ ((Dict.get?_eq_some_iff exact.closed.nodup).1 found)
    exact ⟨found.trans there.symm, fun none => by simp [there] at none⟩
  · have apart := exact.closed.apart x missing
    exact ⟨(Option.isNone_iff_eq_none.1 (by simpa [Dict.has] using apart)).trans
      (exact.missing x missing).symm, fun _ => missing⟩

theorem assemble (exact : b.Exact l roots none loads) (complete : b.gather.next? = none)
    (f : Fingerprint) :
    (b.assemble f).Exact l roots loads := by
  have settled {x : Uri} := exact.isSettled_iff complete (x := x)
  have missing {x : Uri} : x ∈ (b.assemble f).missing ↔ x ∈ b.gather.missing :=
    (Text.sort_perm _).mem_iff
  have uris :
      ((b.assemble f).readSet.map (·.uri)).Perm (Dict.keys b.gather.found ++ b.gather.missing) := by
    have keyed : (Dict.values b.gather.found).map (·.uri) = Dict.keys b.gather.found := by
      rw [Dict.values, Dict.keys, List.map_map]
      exact List.map_congr_left exact.closed.keyed
    simp only [Snapshot.readSet, List.map_append, List.map_map]
    refine List.Perm.append ?_ ?_
    · exact keyed ▸ (Text.sortOn_perm _ _).map _
    · simpa [Function.comp_def, Building.assemble] using Text.sort_perm b.gather.missing
  have mem_uris {x : Uri} : x ∈ (b.assemble f).readSet.map (·.uri) ↔ l.Needs roots x := by
    rw [uris.mem_iff, List.mem_append, Dict.mem_keys_iff, ← Gather.isSettled_iff, settled]
  constructor
  case keyed => exact exact.closed.keyed
  case nodup => exact exact.closed.nodup
  case needed =>
    intro x
    rw [missing, ← settled, Gather.isSettled_iff]
    rfl
  case disjoint =>
    intro x found mem
    have apart := exact.closed.apart x (missing.1 mem)
    rw [show Dict.has b.gather.found x = true from found] at apart
    cases apart
  case memory =>
    intro x needed doc isOpen
    exact (exact.get?_found complete needed).1.trans (by simp [Supply.answer?, isOpen])
  case disk =>
    intro x needed isClosed text file
    have none : Dict.get? l.store.documents x = none := by
      simpa [Store.has, Dict.has] using isClosed
    exact (exact.get?_found complete needed).1.trans (by simp [Supply.answer?, none, file])
  case missing =>
    intro x needed isClosed absent
    have none : Dict.get? l.store.documents x = none := by
      simpa [Store.has, Dict.has] using isClosed
    exact missing.2 ((exact.get?_found complete needed).2 (by simp [Supply.answer?, none, absent]))
  case loads_nodup => exact exact.loads_nodup
  case mem_loads =>
    intro x
    rw [exact.mem_loads, settled]
  case readSet_nodup =>
    refine uris.nodup_iff.2
      (List.nodup_append.2 ⟨exact.closed.nodup, exact.nodup, fun x found y mem eq => ?_⟩)
    subst eq
    have apart := exact.closed.apart x mem
    rw [Dict.mem_keys_iff.1 found] at apart
    cases apart
  case mem_readSet => exact fun x => mem_uris

end Building.Exact

end Quill
