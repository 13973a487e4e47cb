import Quill.Flow.Answering
import Quill.Flow.Basic

/-!
# What every course of a flow ensures

A flow has many courses, one for every way in which its stops may be answered. `Flow.Ensures`
follows all of them at once, `Flow.CanEnd` looks for one. The flow of a query takes a lease, says
what it has read, and from then on asks for kept values alone.

## Main definitions

* `Flow.Answers` — which answers the stops of a flow may get.
* `Flow.Ensures` — every course asks for no snapshot, says nothing of what it has read, waits at no
  gate, and ends as required.
* `Flow.CanEnd` — some course ends with the given result.
* `Query.resume` — what follows the lease.
* `Query.answering` — what follows the declaration.
* `Query.Answers` — the answer comes from answering the question about one snapshot.
-/

namespace Quill.Flow

variable {α β : Type}

/-- The answers that the safe points and the kept values of a flow may get. -/
structure Answers where
  safe : Except Failure Unit → Prop
  kept : Computation → Except Failure Fact → Prop

def Answers.any : Answers := ⟨fun _ => True, fun _ _ => True⟩

/-- Every course of the flow goes without snapshots, declarations and gates, and ends as `Q`
says. -/
def Ensures (A : Answers) (Q : Except Failure α → Prop) : Flow α → Prop
  | done r => Q r
  | pause next => Ensures A Q next
  | checkpoint next => ∀ r, A.safe r → Ensures A Q (next r)
  | compute c next => ∀ r, A.kept c r → Ensures A Q (next r)
  | lease .. => False
  | build .. => False
  | release _ next => Ensures A Q next
  | declare .. => False
  | look next => ∀ m, Ensures A Q (next m)
  | trace _ next => Ensures A Q next
  | say _ next => Ensures A Q next
  | gate .. => False

def CanEnd (A : Answers) : Flow α → Except Failure α → Prop
  | done r', r => r' = r
  | pause next, r => CanEnd A next r
  | checkpoint next, r => ∃ a, A.safe a ∧ CanEnd A (next a) r
  | compute c next, r => ∃ a, A.kept c a ∧ CanEnd A (next a) r
  | lease _ next, r => ∃ a, CanEnd A (next a) r
  | build _ next, r => ∃ a, CanEnd A (next a) r
  | release _ next, r => CanEnd A next r
  | declare _ _ next, r => CanEnd A next r
  | look next, r => ∃ m, CanEnd A (next m) r
  | trace _ next, r => CanEnd A next r
  | say _ next, r => CanEnd A next r
  | gate _ next, r => CanEnd A next r

variable {A : Answers} {P Q : Except Failure α → Prop} {f : Flow α}

theorem ensures_andThen {R : Except Failure β → Prop} (f : Flow α) (k : Except Failure α → Flow β) :
    Ensures A R (f.andThen k) ↔ Ensures A (fun r => Ensures A R (k r)) f := by
  induction f with
  | done r => rfl
  | lease scope next | build scope next | declare read scope next | gate name next => rfl
  | pause next ih | release id next ih | trace t next ih | say t next ih => exact ih
  | checkpoint next ih | compute c next ih =>
    exact forall_congr' fun r => imp_congr_right fun _ => ih r
  | look next ih => exact forall_congr' ih

theorem canEnd_andThen (f : Flow α) (k : Except Failure α → Flow β) (r : Except Failure β) :
    CanEnd A (f.andThen k) r ↔ ∃ r', CanEnd A f r' ∧ CanEnd A (k r') r := by
  induction f with
  | done r' => simp [andThen, CanEnd]
  | pause next ih | release id next ih | declare read scope next ih | trace t next ih
  | say t next ih | gate name next ih => exact ih
  | checkpoint next ih | compute c next ih =>
    simp only [andThen, CanEnd, ih]
    grind
  | lease scope next ih | build scope next ih | look next ih =>
    simp only [andThen, CanEnd, ih]
    grind

theorem Ensures.mono (h : Ensures A P f) (imp : ∀ r, P r → Q r) : Ensures A Q f := by
  induction f with
  | done r => exact imp r h
  | lease scope next | build scope next | declare read scope next | gate name next => exact h
  | pause next ih | release id next ih | trace t next ih | say t next ih => exact ih h
  | checkpoint next ih | compute c next ih => exact fun r hr => ih r (h r hr)
  | look next ih => exact fun m => ih m (h m)

/-- Whatever a flow ensures, it ends as one of its courses does. -/
theorem Ensures.canEnd (h : Ensures A P f) : Ensures A (fun r => P r ∧ CanEnd A f r) f := by
  induction f with
  | done r => exact ⟨h, rfl⟩
  | lease scope next | build scope next | declare read scope next | gate name next => exact h
  | pause next ih | release id next ih | trace t next ih | say t next ih => exact ih h
  | checkpoint next ih | compute c next ih =>
    intro a ha
    exact (ih a (h a ha)).mono fun r hr => ⟨hr.1, a, ha, hr.2⟩
  | look next ih =>
    intro m
    exact (ih m (h m)).mono fun r hr => ⟨hr.1, m, hr.2⟩

theorem andThen_assoc {γ : Type} (f : Flow α) (k : Except Failure α → Flow β)
    (k' : Except Failure β → Flow γ) :
    (f.andThen k).andThen k' = f.andThen fun r => (k r).andThen k' := by
  induction f with
  | done r => rfl
  | pause next ih | release id next ih | declare read scope next ih | trace t next ih
  | say t next ih | gate name next ih => simp only [andThen, ih]
  | checkpoint next ih | compute c next ih | lease scope next ih | build scope next ih
  | look next ih => simp only [andThen, ih]

/-! ## Flows that only ask for kept values -/

/-- Nothing is required of the end. -/
abbrev Quiet (f : Flow α) : Prop := Ensures .any (fun _ => True) f

theorem Quiet.andThen {k : Except Failure α → Flow β} (h : Quiet f) (hk : ∀ r, Quiet (k r)) :
    Quiet (f.andThen k) :=
  (ensures_andThen f k).2 (Ensures.mono h fun r _ => hk r)

theorem Quiet.bind {k : α → Flow β} (h : Quiet f) (hk : ∀ a, Quiet (k a)) : Quiet (f.bind k) := by
  refine h.andThen fun r => ?_
  cases r with
  | ok a => exact hk a
  | error e => exact trivial

theorem Quiet.call (h : Quiet f) : Quiet f.call := h.andThen fun _ => trivial

theorem quiet_done (r : Except Failure α) : Quiet (done r) := trivial

theorem quiet_safePoint : Quiet safePoint := fun _ _ => trivial

theorem quiet_value (c : Computation) (part? : Fact → Option α) : Quiet (value c part?) := by
  refine Quiet.bind (fun _ _ => trivial) fun fact => ?_
  unfold expect
  split <;> exact trivial

theorem quiet_memo (c : Computation) (part? : Fact → Option α) : Quiet (memo c part?) :=
  (quiet_value c part?).bind fun _ => quiet_safePoint.bind fun _ => trivial

theorem quiet_forEach {f : β → Flow α} (h : ∀ b, Quiet (f b)) (items : List β) :
    Quiet (forEach f items) := by
  induction items with
  | nil => exact trivial
  | cons b rest ih => exact (h b).bind fun _ => ih.bind fun _ => trivial

end Quill.Flow

namespace Quill

open Quill.Flow

/-! ## Answers from kept values -/

theorem quiet_parse (s : Snapshot) (uri : Uri) : Quiet (s.parse uri) := by
  unfold Snapshot.parse
  split
  · exact trivial
  · exact (quiet_value _ _).bind fun _ => quiet_safePoint.bind fun _ => trivial

theorem quiet_entry (s : Snapshot) : Quiet s.entry := by
  unfold Snapshot.entry
  split <;> exact trivial

theorem quiet_compile (s : Snapshot) : Quiet s.compile := by
  refine (quiet_memo _ _).andThen fun r => ?_
  unfold Snapshot.compileOutcome
  split <;> exact trivial

namespace Answering

theorem quiet_atPosition (s : Snapshot) (p : Position) (c : Nat → Computation) :
    Quiet (atPosition s p c) :=
  (quiet_entry s).bind fun _ => (quiet_memo _ _).call

theorem quiet_modules (s : Snapshot) (uris : List Uri) : Quiet (modules s uris) :=
  (quiet_forEach (fun _ => (quiet_parse s _).call.bind fun _ => quiet_done _) uris).bind fun _ =>
    quiet_done _

theorem quiet_connected (s : Snapshot) (uri : Uri) : Quiet (connected s uri) :=
  (quiet_modules s _).bind fun _ => trivial

theorem quiet_occurrences (s : Snapshot) (uri : Uri) (n : Name) : Quiet (occurrences s uri n) :=
  (quiet_connected s uri).call.bind fun uris =>
    ((quiet_modules s uris).bind fun _ => quiet_done _).call

theorem quiet_prepareRename (s : Snapshot) (p : Position) : Quiet (prepareRename s p) := by
  refine (quiet_entry s).bind fun doc => (quiet_parse s doc.uri).call.bind fun m => ?_
  split <;> exact trivial

theorem quiet_rename (s : Snapshot) (uri : Uri) (p : Position) (newName : Text) :
    Quiet (rename s uri p newName) := by
  unfold rename
  split
  · exact trivial
  · refine (quiet_parse s uri).call.bind fun m => ?_
    split
    · exact trivial
    · split
      · exact trivial
      · exact (quiet_occurrences s uri _).bind fun _ => trivial

theorem quiet_formattingKept (s : Snapshot) : Quiet (formattingKept s) := by
  intro m
  dsimp only
  split
  · exact trivial
  · exact (quiet_memo _ _).call

theorem quiet_foldingRanges (s : Snapshot) : Quiet (foldingRanges s) :=
  (quiet_memo _ _).call.call.bind fun _ => (quiet_entry s).bind fun doc =>
    (quiet_parse s doc.uri).call.bind fun _ => trivial

theorem quiet_workspaceSymbols (s : Snapshot) (query : Text) : Quiet (workspaceSymbols s query) :=
  (quiet_forEach (fun _ => (quiet_memo _ _).call) s.ordered).bind fun _ => trivial

theorem quiet_diagnostics (s : Snapshot) : Quiet (diagnostics s) :=
  (quiet_entry s).bind fun _ => (quiet_compile s).call.bind fun _ => trivial

end Answering

open Answering in
/-- No question needs more than the snapshot and kept values. -/
theorem Question.quiet_answer (s : Snapshot) (uri : Uri) (q : Question) :
    Quiet (q.answer s uri) := by
  cases q with
  | hover p | completion p | definition p => exact quiet_atPosition s p _
  | references p includeDeclaration => exact (quiet_memo _ _).call
  | prepareRename p => exact quiet_prepareRename s p
  | rename p newName => exact quiet_rename s uri p newName
  | formatting => exact quiet_formattingKept s
  | documentSymbols => exact (quiet_memo _ _).call
  | foldingRanges => exact quiet_foldingRanges s
  | workspaceSymbols query => exact quiet_workspaceSymbols s query
  | diagnostics => exact quiet_diagnostics s

namespace Query

variable (q : Query)

/-- What follows the lease of a query: its end goes on as `k` says. -/
def resume (k : Except Failure Answered → Flow Fact) (r : Except Failure Lease) : Flow Fact :=
  Flow.andThen
    (match r with
      | .error e => .fail e
      | .ok l => (q.answerFrom l.snapshot).ensure (.release l.id)) k

/-- A query begins with its lease, if it has a scope. -/
theorem run_andThen (k : Except Failure Answered → Flow Fact) :
    q.run.andThen k =
      match q.scope? with
      | .error e => k (.error e)
      | .ok scope => .lease scope (q.resume k) := by
  unfold run
  cases q.scope? <;> rfl

/-- How much of the world the answer is said to depend on. -/
def readScopeOf (s : Snapshot) : ReadScope := if s.isGlobal then .workspace else .document

def afterDeclaration (s : Snapshot) : Flow Answered := do
  Flow.safePoint
  .trace (q.runTrace s) do
    let value ← (q.question.answer s (q.target.getD [])).call
    pure ⟨value, s.fingerprint, s.readSet⟩

/-- What follows the declaration; the lease is given back behind the answer. -/
def answering (l : Lease) (k : Except Failure Answered → Flow Fact) : Flow Fact :=
  (q.afterDeclaration l.snapshot).andThen fun r => .release l.id (k r)

/-- With a lease, a query says what it has read. -/
theorem resume_ok (l : Lease) (k : Except Failure Answered → Flow Fact) :
    q.resume k (.ok l) =
      .declare l.snapshot.readSet (readScopeOf l.snapshot) (q.answering l k) := by
  change Flow.andThen (Flow.andThen (.declare _ _ (q.afterDeclaration l.snapshot)) _) _ = _
  rw [andThen_assoc]
  rfl

/-- The answer comes from answering the question about the snapshot, and says what that has read. -/
structure Answers (s : Snapshot) (a : Answered) : Prop where
  value : CanEnd .any (q.question.answer s (q.target.getD [])) (.ok a.value)
  fingerprint : a.fingerprint = s.fingerprint
  readSet : a.readSet = s.readSet

theorem ensures_afterDeclaration (s : Snapshot) :
    Ensures .any (fun r => ∀ a, r = .ok a → q.Answers s a) (q.afterDeclaration s) := by
  have answer : Ensures .any (fun r => True ∧ CanEnd .any _ r) _ :=
    (q.question.quiet_answer s (q.target.getD [])).canEnd
  refine (ensures_andThen _ _).2 fun r _ => ?_
  cases r with
  | error e => simp [Ensures]
  | ok _ =>
    refine (ensures_andThen _ _).2 ((ensures_andThen _ _).2 (answer.mono fun r hr => ?_))
    cases r with
    | error e => simp [Ensures]
    | ok value =>
      rintro a ⟨⟩
      exact ⟨hr.2, rfl, rfl⟩

end Query

end Quill
