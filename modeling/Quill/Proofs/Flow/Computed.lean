import Quill.Flow.Answering
import Quill.Proofs.Flow.Ensures
import Quill.Proofs.Snapshot.Closure

/-!
# What a flow comes to

When nobody asks a flow to stop and every kept value is one that its computation comes to, some
flows can end in one way only.

## Main definitions

* `Flow.Answers.computed` — the answers that computations come to.
* `Flow.Yields` — the flow ends, and whatever the answers, with the given result.
* `Compiler.Conforms` — a compiler that is the one of this library, but for compiles that fail.
* `Snapshot.Filed` — the documents are filed once, under their uris.
* `Snapshot.world` — the world that a snapshot is compiled in.

## Main statements

* `Flow.kept_computed_iff` — the values that are kept are those that computations come to.
* `Flow.yields_parse` — the value that is kept of a document.
* `Flow.yields_atPosition` — the answer that is kept to a question about a position.
* `Flow.Yields.bind` — flows one after another.
* `Snapshot.source?_world` — the sources of its world are the documents of the snapshot.
* `Snapshot.compile?_world` — a snapshot with its entry can be compiled.
* `Snapshot.yields_compile` — the compile of a snapshot with an entry.
-/

namespace Quill

namespace Flow

variable {α β : Type} {A B : Answers} {f : Flow α} {a : α} {r : Except Failure β} {c : Compiler}

theorem CanEnd.mono {r : Except Failure α} (h : CanEnd A f r) (safe : ∀ r, A.safe r → B.safe r)
    (kept : ∀ k r, A.kept k r → B.kept k r) : CanEnd B f r := by
  induction f with
  | done r' => exact h
  | pause next ih | release id next ih | declare read scope next ih | trace t next ih
  | say t next ih | gate name next ih => exact ih h
  | checkpoint next ih => exact h.imp fun r' h => ⟨safe _ h.1, ih r' h.2⟩
  | compute k next ih => exact h.imp fun r' h => ⟨kept _ _ h.1, ih r' h.2⟩
  | lease scope next ih | build scope next ih | look next ih => exact h.imp fun r' h => ih r' h

/-! ## Values that were computed -/

/-- Answers of computations that ask for computed values in turn, at most `depth` deep. -/
def Answers.within (c : Compiler) : Nat → Answers
  | 0 => ⟨(· = .ok ()), fun _ _ => False⟩
  | depth + 1 => ⟨(· = .ok ()), fun k => CanEnd (within c depth) (k.body c)⟩

/-- Nobody asks the flow to stop, and every kept value is one that its computation comes to. -/
def Answers.computed (c : Compiler) : Answers :=
  ⟨(· = .ok ()), fun k r => ∃ depth, (Answers.within c depth).kept k r⟩

theorem safe_within (c : Compiler) (depth : Nat) :
    (Answers.within c depth).safe = (· = .ok ()) := by
  cases depth <;> rfl

theorem CanEnd.deepen {m n : Nat} {r : Except Failure α} (h : CanEnd (.within c m) f r)
    (le : m ≤ n) :
    CanEnd (.within c n) f r := by
  induction m generalizing n α with
  | zero => exact h.mono (fun r safe => by rwa [safe_within] at safe ⊢) fun k r kept => kept.elim
  | succ m ih =>
    obtain ⟨n, rfl⟩ := Nat.exists_eq_add_of_le' (Nat.le_trans (Nat.le_add_left 1 m) le)
    exact h.mono (fun r safe => safe) fun k r kept => ih kept (Nat.le_of_succ_le_succ le)

/-- One course of a flow asks for values of bounded depth. -/
theorem CanEnd.exists_depth {r : Except Failure α} (h : CanEnd (.computed c) f r) :
    ∃ depth, CanEnd (.within c depth) f r := by
  induction f with
  | done r' => exact ⟨0, h⟩
  | pause next ih | release id next ih | declare read scope next ih | trace t next ih
  | say t next ih | gate name next ih => exact ih h
  | checkpoint next ih =>
    obtain ⟨a, safe, h⟩ := h
    obtain ⟨depth, h⟩ := ih a h
    exact ⟨depth, a, by rwa [safe_within], h⟩
  | compute k next ih =>
    obtain ⟨a, ⟨m, kept⟩, h⟩ := h
    obtain ⟨n, h⟩ := ih a h
    refine ⟨max m n, a, ?_, h.deepen (Nat.le_max_right m n)⟩
    cases m with
    | zero => exact kept.elim
    | succ m =>
      obtain ⟨depth, eq⟩ :=
        Nat.exists_eq_add_of_le' (Nat.le_trans (Nat.le_add_left 1 m) (Nat.le_max_left (m + 1) n))
      rw [eq]
      exact CanEnd.deepen kept (by omega)
  | lease scope next ih | build scope next ih | look next ih =>
    obtain ⟨a, h⟩ := h
    obtain ⟨depth, h⟩ := ih a h
    exact ⟨depth, a, h⟩

/-- The values that are kept are those that computations come to. -/
theorem kept_computed_iff {k : Computation} {r : Except Failure Fact} :
    (Answers.computed c).kept k r ↔ CanEnd (.computed c) (k.body c) r := by
  constructor
  · rintro ⟨_ | depth, h⟩
    · exact h.elim
    · exact h.mono (fun r safe => by rwa [safe_within] at safe) fun k r h => ⟨depth, h⟩
  · intro h
    obtain ⟨depth, h⟩ := h.exists_depth
    exact ⟨depth + 1, h⟩

/-! ## Flows with one end -/

structure Yields (A : Answers) (f : Flow α) (r : Except Failure α) : Prop where
  ensures : Ensures A (· = r) f
  canEnd : CanEnd A f r

/-- Every course of a flow that ensures something ends as it says. -/
theorem Ensures.of_canEnd {P : Except Failure α → Prop} {r : Except Failure α} (h : Ensures A P f)
    (canEnd : CanEnd A f r) : P r := by
  induction f with
  | done r' => exact canEnd ▸ h
  | lease scope next | build scope next | declare read scope next | gate name next => exact h.elim
  | pause next ih | release id next ih | trace t next ih | say t next ih => exact ih h canEnd
  | checkpoint next ih | compute k next ih =>
    obtain ⟨a, ha, canEnd⟩ := canEnd
    exact ih a (h a ha) canEnd
  | look next ih =>
    obtain ⟨m, canEnd⟩ := canEnd
    exact ih m (h m) canEnd

theorem yields_done (A : Answers) (r : Except Failure α) : Yields A (done r) r := ⟨rfl, rfl⟩

theorem Yields.andThen {r' : Except Failure α} {k : Except Failure α → Flow β} (h : Yields A f r')
    (hk : Yields A (k r') r) : Yields A (f.andThen k) r where
  ensures := (ensures_andThen f k).2 (Ensures.mono h.ensures fun _ eq => eq ▸ hk.ensures)
  canEnd := (canEnd_andThen f k r).2 ⟨r', h.canEnd, hk.canEnd⟩

theorem Yields.bind {k : α → Flow β} (h : Yields A f (.ok a)) (hk : Yields A (k a) r) :
    Yields A (f.bind k) r :=
  h.andThen hk

theorem Yields.call {r : Except Failure α} (h : Yields A f r) : Yields A f.call r :=
  h.andThen ⟨rfl, rfl⟩

theorem yields_safePoint : Yields (.computed c) safePoint (.ok ()) :=
  ⟨fun _ safe => safe, _, rfl, rfl⟩

/-- A value that is waited for is what its computation yields. -/
theorem yields_compute {k : Computation}
    {r : Except Failure Fact} (h : Yields (.computed c) (k.body c) r) :
    Yields (.computed c) (compute k done) r :=
  ⟨fun _ kept => h.ensures.of_canEnd (kept_computed_iff.1 kept), _, kept_computed_iff.2 h.canEnd,
    rfl⟩

theorem yields_value {k : Computation} (fact : Fact) {part? : Fact → Option α}
    (h : Yields (.computed c) (k.body c) (.ok fact)) (part : part? fact = some a) :
    Yields (.computed c) (value k part?) (.ok a) := by
  refine (yields_compute h).bind ?_
  rw [expect, part]
  exact yields_done _ _

theorem yields_memo {k : Computation} (fact : Fact) {part? : Fact → Option α}
    (h : Yields (.computed c) (k.body c) (.ok fact)) (part : part? fact = some a) :
    Yields (.computed c) (memo k part?) (.ok a) :=
  (yields_value fact h part).bind (yields_safePoint.bind (yields_done _ _))

/-- A value cannot be kept when its computation fails. -/
theorem yields_memo_error {k : Computation} {part? : Fact → Option α} {e : Failure}
    (h : Yields (.computed c) (k.body c) (.error e)) :
    Yields (.computed c) (memo k part?) (.error e) :=
  ((yields_compute h).andThen (yields_done _ _)).andThen (yields_done _ _)

theorem yields_forEach {f : β → Flow α} {g : β → α} {items : List β}
    (h : ∀ b ∈ items, Yields A (f b) (.ok (g b))) :
    Yields A (forEach f items) (.ok (items.map g)) := by
  induction items with
  | nil => exact yields_done _ _
  | cons b rest ih =>
    exact (h b (by simp)).bind ((ih fun b mem => h b (by simp [mem])).bind (yields_done _ _))

end Flow

/-! ## Compilers -/

namespace Compiler

structure Conforms (c : Compiler) : Prop where
  read : ∀ uri t, c.read uri t = .ok (Module.read uri t)
  compile : ∀ w, c.compile w = w.compile? ∨ ∃ e, c.compile w = .error e

theorem conforms_quill : quill.Conforms := ⟨fun _ _ => rfl, fun _ => .inl rfl⟩

theorem conforms_withFaults (marker : Text) :
    (quill.withFaults { compile := some marker }).Conforms := by
  refine ⟨fun _ _ => rfl, fun w => ?_⟩
  simp only [withFaults]
  cases w.source? w.entry with
  | none => exact .inl rfl
  | some src =>
    simp only [Faults.guard]
    split
    · exact .inr ⟨_, rfl⟩
    · exact .inl rfl

end Compiler

/-! ## Documents -/

namespace Flow

variable {s : Snapshot} {uri : Uri} {doc : SnapshotDocument}

theorem yields_module_of_conforms (conforms : c.Conforms) (doc : SnapshotDocument) :
    Yields (.computed c) (module doc) (.ok (Module.read doc.uri doc.text)) := by
  refine yields_value (.module _) ?_ rfl
  rw [Computation.body, conforms.read]
  exact yields_done _ _

theorem yields_module (doc : SnapshotDocument) :
    Yields (.computed .quill) (module doc) (.ok (Module.read doc.uri doc.text)) :=
  yields_module_of_conforms Compiler.conforms_quill doc

theorem yields_parse_of_conforms (conforms : c.Conforms) (found : s.document? uri = some doc) :
    Yields (.computed c) (s.parse uri) (.ok (some (Module.read doc.uri doc.text))) := by
  rw [Snapshot.parse, found]
  exact (yields_module_of_conforms conforms doc).bind (yields_safePoint.bind (yields_done _ _))

theorem yields_parse (found : s.document? uri = some doc) :
    Yields (.computed .quill) (s.parse uri) (.ok (some (Module.read doc.uri doc.text))) :=
  yields_parse_of_conforms Compiler.conforms_quill found

theorem yields_parse_none (absent : s.document? uri = none) (A : Answers) :
    Yields A (s.parse uri) (.ok none) := by
  rw [Snapshot.parse, absent]
  exact yields_done _ _

theorem yields_entry (found : s.entryDocument? = some doc) (A : Answers) :
    Yields A s.entry (.ok doc) := by
  rw [Snapshot.entry, found]
  exact yields_done _ _

theorem yields_atPosition {k : Nat → Computation} {answer : Answer} (p : Position)
    (found : s.entryDocument? = some doc)
    (h : Yields (.computed c) ((k (s.offsetAt doc.uri p)).body c) (.ok (.answer answer))) :
    Yields (.computed c) (Answering.atPosition s p k) (.ok answer) := by
  have kept : Yields (.computed c) (memo (k (s.offsetAt doc.uri p)) Fact.answer?) (.ok answer) :=
    yields_memo _ h rfl
  exact (yields_entry found _).bind kept.call

end Flow

/-! ## Compiles -/

namespace Snapshot

open Quill.Flow (Yields yields_done)

variable {s : Snapshot} {entry : Uri}

structure Filed (s : Snapshot) : Prop where
  keyed : ∀ e ∈ s.documents, e.2.uri = e.1
  nodup : (Dict.keys s.documents).Nodup

theorem entryDocument?_of_scope {d : SnapshotDocument} (scope : s.scope.entryUri? = some entry)
    (found : s.document? entry = some d) : s.entryDocument? = some d := by
  rw [entryDocument?, scope, Option.bind_some, found]

theorem Filed.uri_eq (filed : s.Filed) {uri : Uri}
    {d : SnapshotDocument} (found : s.document? uri = some d) :
    d.uri = uri :=
  filed.keyed _ ((Dict.get?_eq_some_iff filed.nodup).1 found)

def sourceOf (d : SnapshotDocument) : Source := ⟨d.uri, d.text, Module.read d.uri d.text⟩

/-- Everything that the compile of a snapshot may read. -/
def world (s : Snapshot) (entry : Uri) : World :=
  .ofSources entry ((Dict.values s.documents).map sourceOf) s.settings

theorem sources_world (filed : s.Filed) (entry : Uri) :
    (s.world entry).sources = s.documents.map fun e => (e.1, sourceOf e.2) := by
  have pairs : ((Dict.values s.documents).map sourceOf).map (fun src => (src.uri, src)) =
      s.documents.map fun e => (e.1, sourceOf e.2) := by
    rw [Dict.values, List.map_map, List.map_map]
    refine List.map_congr_left fun e mem => ?_
    simp [sourceOf, filed.keyed e mem]
  have nodup : (Dict.keys (s.documents.map fun e => (e.1, sourceOf e.2))).Nodup := by
    simpa [Dict.keys, Function.comp_def] using filed.nodup
  rw [world, World.ofSources, pairs, Dict.ofList_eq_self nodup]

theorem source?_world (filed : s.Filed) (entry uri : Uri) :
    (s.world entry).source? uri = (s.document? uri).map sourceOf := by
  rw [World.source?, sources_world filed, Dict.get?_map]
  rfl

theorem compile?_world (filed : s.Filed) (there : (s.document? entry).isSome) :
    (s.world entry).compile? = .ok (s.world entry).compile := by
  have present : ((s.world entry).source? (s.world entry).entry).isNone = false := by
    rw [← Option.not_isSome, Bool.not_eq_false', source?_world filed, Option.isSome_map]
    exact there
  simp only [World.compile?, present, Bool.false_eq_true, if_false]

variable {c : Compiler} {compiled : Compiled} {e : Failure}

theorem yields_sources (conforms : c.Conforms) (s : Snapshot) :
    Yields (.computed c) s.sources (.ok ((Dict.values s.documents).map sourceOf)) :=
  Flow.yields_forEach fun d _ =>
    (Flow.yields_module_of_conforms conforms d).bind (Flow.yields_safePoint.bind (yields_done _ _))

/-- A compile of a snapshot that succeeds. -/
theorem yields_compile_of_ok (conforms : c.Conforms) (scope : s.scope.entryUri? = some entry)
    (ok : c.compile (s.world entry) = .ok compiled) :
    Yields (.computed c) s.compile (.ok (.ok compiled)) := by
  have body : Yields (.computed c) (s.compileBody c) (.ok compiled) := by
    rw [compileBody, scope]
    refine (yields_sources conforms s).bind ?_
    have same : World.ofSources entry ((Dict.values s.documents).map sourceOf) s.settings =
        s.world entry := rfl
    rw [same, ok]
    exact ⟨rfl, rfl⟩
  have fact : Yields (.computed c) ((Computation.compile s).body c) (.ok (.compiled compiled)) :=
    body.bind (yields_done _ _)
  have kept : Yields (.computed c) (Flow.memo (.compile s) Fact.compiled?) (.ok compiled) :=
    Flow.yields_memo (.compiled _) fact rfl
  exact kept.andThen (yields_done _ _)

/-- A compile of a snapshot that fails, which is a value as well. -/
theorem yields_compile_of_error (conforms : c.Conforms) (scope : s.scope.entryUri? = some entry)
    (failed : c.compile (s.world entry) = .error e) :
    Yields (.computed c) s.compile (.ok (.error (.computeFailure entry e.message))) := by
  have body :
      Yields (.computed c) (s.compileBody c) (.error (.computeFailure entry e.message)) := by
    rw [compileBody, scope]
    refine (yields_sources conforms s).bind ?_
    have same : World.ofSources entry ((Dict.values s.documents).map sourceOf) s.settings =
        s.world entry := rfl
    rw [same, failed]
    exact ⟨rfl, rfl⟩
  have fact : Yields (.computed c) ((Computation.compile s).body c)
      (.error (.computeFailure entry e.message)) :=
    body.andThen (yields_done _ _)
  exact (Flow.yields_memo_error fact).andThen (yields_done _ _)

theorem yields_compile (scope : s.scope.entryUri? = some entry)
    (filed : s.Filed) (there : (s.document? entry).isSome) :
    Yields (.computed .quill) s.compile (.ok (.ok (s.world entry).compile)) :=
  yields_compile_of_ok Compiler.conforms_quill scope (compile?_world filed there)

end Snapshot

end Quill
