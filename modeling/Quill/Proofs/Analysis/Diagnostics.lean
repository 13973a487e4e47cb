import Quill.Proofs.Compile.Expansion
import Quill.Proofs.Snapshot.SingleCompile

/-!
# The diagnostics of a document are those of a single compile

A snapshot is gathered read by read, with what is open taken from the store, and compiled from
parses that are kept; a single compile reads everything by itself and keeps nothing. Both come to
the same: the same documents are found, the same are missing, and every file has the same
diagnostics.

## Main definitions

* `DiagnosticSet.Reports` — the set has the diagnostics of a compile.

## Main statements

* `Snapshot.reports_compile` — the set of a snapshot has those of its compile.
* `Snapshot.compile_reports_diagnostics` — the set of a document has those of a single compile.
-/

namespace Quill

open Quill.Flow (Yields yields_done)

structure DiagnosticSet.Reports (set : DiagnosticSet) (c : Compiled) : Prop where
  files : ∀ uri ∈ c.artifact.files, ∃ entry, Dict.get? set.entries uri = some entry ∧
    Dict.get? c.diagnostics uri = some entry.diagnostics
  others : ∀ uri entry, Dict.get? set.entries uri = some entry → uri ∉ c.artifact.files →
  entry.diagnostics = []

/-- What is found of a compile: diagnostics for its files, and for nothing else. -/
theorem World.isSome_get?_diagnostics_iff (w : World) (uri : Uri) :
    (Dict.get? w.compile.diagnostics uri).isSome ↔ uri ∈ w.compile.artifact.files := by
  change (Dict.get? (w.diagnostics w.expand.files _) uri).isSome ↔ uri ∈ w.expand.files
  rw [diagnostics, Dict.get?_ofKeys]
  split <;> simp [*]

namespace Snapshot

variable {s : Snapshot} {entry uri : Uri}

theorem get?_entries (s : Snapshot) (root : Uri) (outcome : Except Failure Compiled) (uri : Uri) :
    Dict.get? (DiagnosticSet.ofSnapshot s root outcome).entries uri = (s.document? uri).map fun d =>
      ⟨d.version, d.origin, DiagnosticSet.diagnosticsOf root outcome uri⟩ :=
  Dict.get?_map _ _ _

theorem reports_compile (filed : s.Filed) (root : Uri) :
    (DiagnosticSet.ofSnapshot s root (.ok (s.world entry).compile)).Reports (s.world entry).compile
      where
  files uri mem := by
    have expanded : ((s.world entry).source? uri).isSome := World.isSome_source?_of_mem_files mem
    rw [source?_world filed, Option.isSome_map] at expanded
    obtain ⟨d, found⟩ := Option.isSome_iff_exists.1 expanded
    obtain ⟨list, reported⟩ :=
      Option.isSome_iff_exists.1 ((World.isSome_get?_diagnostics_iff _ uri).2 mem)
    refine ⟨_, (get?_entries s root _ uri).trans (by rw [found, Option.map_some]), ?_⟩
    simp [DiagnosticSet.diagnosticsOf, reported]
  others uri e held outside := by
    have none : Dict.get? (s.world entry).compile.diagnostics uri = none := by
      rw [← Option.not_isSome_iff_eq_none, World.isSome_get?_diagnostics_iff]
      exact outside
    rw [get?_entries] at held
    obtain ⟨d, -, rfl⟩ := Option.map_eq_some_iff.1 held
    simp [DiagnosticSet.diagnosticsOf, none]

theorem yields_diagnostics (scope : s.scope = .document entry) (filed : s.Filed)
    (there : (s.document? entry).isSome) :
    Yields (.computed .quill) (Question.diagnostics.answer s entry)
      (.ok (.diagnostics (DiagnosticSet.ofSnapshot s entry (.ok (s.world entry).compile)))) := by
  have root : s.scope.entryUri? = some entry := by rw [scope, Scope.entryUri?]
  obtain ⟨d, found⟩ := Option.isSome_iff_exists.1 there
  have isEntry : s.entryDocument? = some d := by rw [entryDocument?, root, Option.bind_some, found]
  refine (Flow.yields_entry isEntry _).bind ?_
  rw [filed.uri_eq found]
  exact (yields_compile root filed there).call.bind (yields_done _ _)

end Snapshot

namespace OneShot.Mirrors

variable {store : Store} {entry : Uri} {o : OneShot} {b : Building}

theorem filed (same : o.Mirrors store entry b none) (f : Fingerprint) : (b.assemble f).Filed :=
  ⟨same.closed.keyed, same.closed.nodup⟩

/-- When everything is gathered, the entry is there. -/
theorem isSome_document?_entry (same : o.Mirrors store entry b none)
    (complete : b.gather.next? = none)
    (f : Fingerprint) : ((b.assemble f).document? entry).isSome := by
  have settled : b.gather.isSettled entry := by
    obtain settled | waits | now := same.closed.settled same.scope (.inl rfl)
    · exact settled
    · exact Gather.isSettled_of_next?_eq_none complete waits
    · simp at now
  exact (Gather.isSettled_iff.1 settled).resolve_right same.kept

theorem finish_eq (same : o.Mirrors store entry b none) (complete : b.gather.next? = none)
    (f : Fingerprint) :
    o.finish .quill = .ok ((b.assemble f).world entry).compile := by
  have world : World.ofSources o.entry (Dict.values o.gather.found) o.settings =
      (b.assemble f).world entry := by
    rw [same.gather, same.settings, same.root]
    simp [Gather.map, Dict.values, Snapshot.world, Building.assemble, Function.comp_def]
  rw [finish, world]
  exact Snapshot.compile?_world (same.filed f) (same.isSome_document?_entry complete f)

end OneShot.Mirrors

namespace Snapshot

variable {store : Store} {files : Uri → Option Text} {settings : CompileSettings} {entry : Uri}
  {b b' : Building} {waiter : SnapshotWaiter}

/-- A snapshot of an open document is gathered while the store and the files stay as they are. Then
a single compile of the document comes to an end, and has found and missed the same documents.
Unless a kept value is not what its computation comes to, the set of diagnostics is one for all
documents of the snapshot, with the diagnostics that the single compile has for its files and none
for other documents. -/
theorem compile_reports_diagnostics (canonical : Uri.ofInput entry = entry)
    (begun : Building.start store settings (.document entry) = .ok b)
    (gathering : Engine.Gathering store files waiter (.collect waiter b) (.assemble waiter b'))
    (f : Fingerprint) (ticket : Nat) :
    ∃ o c set, (OneShot.start (Uri.ofInput (Uri.ofInput entry)) settings).ComesTo store
      files ticket o c ∧
      (∀ uri, Dict.has (b'.assemble f).documents uri = Dict.has o.gather.found uri) ∧
      (∀ uri, uri ∈ (b'.assemble f).missing ↔ uri ∈ o.gather.missing) ∧
      Yields (.computed .quill) (Question.diagnostics.answer (b'.assemble f) entry)
        (.ok (.diagnostics set)) ∧
      (∀ uri, Dict.has set.entries uri = Dict.has (b'.assemble f).documents uri) ∧
      set.Reports c := by
  have together :
      Mirrors store entry ticket (.collect waiter b)
        (.compileNext ticket (.start entry settings)) :=
    .between (.start begun)
  obtain ⟨y, compiling, mirrors⟩ := together.steps gathering
  cases mirrors with
  | @ends _ _ o same complete =>
    have filed := same.filed f
    rw [canonical, canonical]
    refine ⟨o, _, _, .of_finish compiling (by simp [same.next?_eq, complete])
      (same.finish_eq complete f),
      fun uri => ?_, fun uri => ?_, Snapshot.yields_diagnostics same.scope filed
        (same.isSome_document?_entry complete f),
      fun uri => ?_, Snapshot.reports_compile filed entry⟩
    · rw [same.gather, Gather.map, Dict.has, Dict.has, Dict.get?_map, Option.isSome_map]
      rfl
    · rw [same.gather]
      exact (Text.sort_perm _).mem_iff
    · rw [Dict.has, get?_entries, Option.isSome_map]
      rfl

/-- An open document that includes a file, and one that is not there. -/
theorem compile_reports_diagnostics_including :
    let entry : Uri := "/ws/main.quill"
    let doc : OpenDocument :=
      ⟨"#include \"part.quill\"\n#include \"gone.quill\"\n@x @y", 1, "quill", none⟩
    let store : Store := ⟨[(entry, doc)]⟩
    let files : Uri → Option Text :=
      fun uri => if uri = "/ws/part.quill" then some "= Part <x>" else none
    let waiter : SnapshotWaiter := .build (.errand 0) fun _ => .done (.ok (.symbols []))
    ∃ b b', Uri.ofInput entry = entry ∧ Building.start store .default (.document entry) = .ok b ∧
      Engine.Gathering store files waiter (.collect waiter b) (.assemble waiter b') ∧
      ∀ f, ∃ o c set, (OneShot.start (Uri.ofInput (Uri.ofInput entry)) .default).ComesTo
        store files 0 o c ∧
        (∀ uri, Dict.has (b'.assemble f).documents uri = Dict.has o.gather.found uri) ∧
        (∀ uri, uri ∈ (b'.assemble f).missing ↔ uri ∈ o.gather.missing) ∧
        Yields (.computed .quill) (Question.diagnostics.answer (b'.assemble f) entry)
          (.ok (.diagnostics set)) ∧
        (∀ uri, Dict.has set.entries uri = Dict.has (b'.assemble f).documents uri) ∧
        set.Reports c := by
  intro entry doc store files waiter
  let part : Uri := "/ws/part.quill"
  let gone : Uri := "/ws/gone.quill"
  let e : Engine := { Engine.start (.ofCompiler .quill ⟨id⟩) .default with
    store, disk := ⟨[(part, .ok "= Part <x>")], []⟩ }
  have sees : e.Sees store files := ⟨rfl, rfl, fun uri => by
    by_cases isPart : part = uri
    · simp [e, files, Disk.read, Dict.get?, ← isPart, part]
    · simp [e, files, Disk.read, Dict.get?, isPart, Ne.symm isPart, part]⟩
  have step {w x : EngineWork} (follows : e.Follows e.scheduler w x)
      (gathers : x.GathersFor waiter) :
      x.GathersFor waiter ∧ ∃ (e : Engine) (s' : Scheduler), e.Sees store files ∧
      e.Follows s' w x :=
    ⟨gathers, e, _, sees, follows⟩
  let main : SnapshotDocument := .ofOpen ⟨id⟩ entry doc
  let other : SnapshotDocument := .ofFile ⟨id⟩ part "= Part <x>"
  let at_ (g : Gather SnapshotDocument) : Building := ⟨.document entry, .default, g⟩
  have canonical : Uri.ofInput entry = entry := by decide +kernel
  have begun : Building.start store .default (.document entry) = .ok (at_ (.start [entry])) := rfl
  have first : (at_ ⟨[], [], []⟩).receive .quill entry (some main) =
      .ok (at_ ⟨[part, gone], [(entry, main)], []⟩) := by
    have targets : Includes.targets entry doc.text = [part, gone] := by decide +kernel
    simp only [Building.receive, Compiler.quill, at_, main, SnapshotDocument.ofOpen, targets]
    rfl
  have second : (at_ ⟨[gone], [(entry, main)], []⟩).receive .quill part (some other) =
      .ok (at_ ⟨[gone], [(entry, main), (part, other)], []⟩) := by
    have targets : Includes.targets part "= Part <x>" = [] := by decide +kernel
    simp only [Building.receive, Compiler.quill, at_, other, SnapshotDocument.ofFile, targets]
    rfl
  have third : (at_ ⟨[], [(entry, main), (part, other)], []⟩).receive .quill gone none =
      .ok (at_ ⟨[], [(entry, main), (part, other)], [gone]⟩) := rfl
  have gathering : Engine.Gathering store files waiter (.collect waiter (at_ (.start [entry])))
      (.assemble waiter (at_ ⟨[], [(entry, main), (part, other)], [gone]⟩)) := by
    -- the open document
    refine .head (step (.memory rfl rfl) (by rfl)) (.head (step (.received first) (by rfl)) ?_)
    -- the file that it includes
    refine .head (step (.load rfl rfl) (by rfl)) (.head (step (.found rfl) (by rfl)) ?_)
    refine .head (step (.file rfl) (by rfl)) (.head (step (.received second) (by rfl)) ?_)
    -- the file that is not there
    refine .head (step (.load rfl rfl) (by rfl)) (.head (step (.found rfl) (by rfl)) ?_)
    refine .head (step .absent (by rfl)) (.head (step (.received third) (by rfl)) ?_)
    exact .single (step (.complete rfl) (by rfl))
  exact ⟨_, _, canonical, begun, gathering,
    fun f => compile_reports_diagnostics canonical begun gathering f 0⟩

end Snapshot

end Quill
