import Quill.Proofs.Flow.Ensures

/-!
# Flows that give back what they take

A flow has one course for every way in which its stops may be answered: with a value, with a
failure, or with the news that it was asked to stop. It owes a lease if it gives it back in every
one of them.

## Main definitions

* `Flow.GivesBack` — every course of the flow gives a certain lease back.
* `Flow.Tidy` — every course gives back each lease that it takes.

## Main statements

* `Query.tidy_run` — however a query ends, its lease is given back.
* `Computation.tidy_body` — the computation of a kept value takes no lease.
-/

namespace Quill

namespace Flow

variable {α β : Type} {f : Flow α} {k : Except Failure α → Flow β} {id : Nat} {may : Prop}

def GivesBack (id : Nat) : Flow α → Prop
  | done _ => False
  | pause next => GivesBack id next
  | checkpoint next => ∀ r, GivesBack id (next r)
  | compute _ next => ∀ r, GivesBack id (next r)
  | lease _ next => ∀ r, GivesBack id (next r)
  | build _ next => ∀ r, GivesBack id (next r)
  | release n next => n = id ∨ GivesBack id next
  | declare _ _ next => GivesBack id next
  | look next => ∀ m, GivesBack id (next m)
  | trace _ next => GivesBack id next
  | say _ next => GivesBack id next
  | gate _ next => GivesBack id next

/-- Every course of the flow gives back each lease that it takes, and takes one only if it may. -/
def Tidy (may : Prop) : Flow α → Prop
  | done _ => True
  | pause next => Tidy may next
  | checkpoint next => ∀ r, Tidy may (next r)
  | compute _ next => ∀ r, Tidy may (next r)
  | lease _ next => may ∧ (∀ r, Tidy may (next r)) ∧ ∀ l, (next (.ok l)).GivesBack l.id
  | build _ next => ∀ r, Tidy may (next r)
  | release _ next => Tidy may next
  | declare _ _ next => Tidy may next
  | look next => ∀ m, Tidy may (next m)
  | trace _ next => Tidy may next
  | say _ next => Tidy may next
  | gate _ next => Tidy may next

/-- What a flow gives back, it has given back before anything behind its end. -/
theorem GivesBack.andThen (h : f.GivesBack id) : (f.andThen k).GivesBack id := by
  induction f with
  | done r => exact h.elim
  | pause next ih | declare read scope next ih | trace t next ih | say t next ih
  | gate name next ih => exact ih h
  | release n next ih => exact h.imp_right ih
  | checkpoint next ih | compute c next ih | lease scope next ih | build scope next ih
  | look next ih => exact fun r => ih r (h r)

/-- What is given back behind every end of a flow is given back. -/
theorem givesBack_andThen (f : Flow α) (h : ∀ r, (k r).GivesBack id) :
    (f.andThen k).GivesBack id := by
  induction f with
  | done r => exact h r
  | pause next ih | declare read scope next ih | trace t next ih | say t next ih
  | gate name next ih => exact ih
  | release n next ih => exact .inr ih
  | checkpoint next ih | compute c next ih | lease scope next ih | build scope next ih
  | look next ih => exact ih

theorem Tidy.andThen (h : f.Tidy may) (hk : ∀ r, (k r).Tidy may) : (f.andThen k).Tidy may := by
  induction f with
  | done r => exact hk r
  | pause next ih | release n next ih | declare read scope next ih | trace t next ih | say t next ih
  | gate name next ih => exact ih h
  | lease scope next ih =>
    obtain ⟨allowed, tidy, back⟩ := h
    exact ⟨allowed, fun r => ih r (tidy r), fun l => (back l).andThen⟩
  | checkpoint next ih | compute c next ih | build scope next ih | look next ih =>
    exact fun r => ih r (h r)

/-- A flow that only asks for kept values takes no lease. -/
theorem Quiet.tidy (h : Quiet f) : f.Tidy may := by
  induction f with
  | done r => exact trivial
  | lease scope next | build scope next | declare read scope next | gate name next => exact h.elim
  | pause next ih | release n next ih | trace t next ih | say t next ih => exact ih h
  | checkpoint next ih | compute c next ih => exact fun r => ih r (h r trivial)
  | look next ih => exact fun m => ih m (h m)

end Flow

open Quill.Flow

/-! ## Queries -/

namespace Query

variable (q : Query) {may : Prop} {k : Except Failure Answered → Flow Fact}

/-- Behind its lease a query gives it back, whether it is answered, fails, or is asked to stop. -/
theorem givesBack_resume (l : Lease) : (q.resume k (.ok l)).GivesBack l.id := by
  rw [resume_ok]
  exact givesBack_andThen (q.afterDeclaration l.snapshot) fun _ => .inl rfl

theorem tidy_resume (hk : ∀ r, (k r).Tidy may) (r : Except Failure Lease) :
    (q.resume k r).Tidy may := by
  cases r with
  | error e => exact hk (.error e)
  | ok l =>
    rw [resume_ok]
    have quiet : Quiet (q.afterDeclaration l.snapshot) :=
      (q.ensures_afterDeclaration l.snapshot).mono fun _ _ => trivial
    exact quiet.tidy.andThen hk

/-- However a query ends, it has given back its lease. -/
theorem tidy_run (allowed : may) (hk : ∀ r, (k r).Tidy may) : (q.run.andThen k).Tidy may := by
  rw [run_andThen]
  split
  · exact hk _
  · exact ⟨allowed, q.tidy_resume hk, q.givesBack_resume⟩

end Query

/-! ## Kept values -/

theorem quiet_artifact (s : Snapshot) : Quiet s.artifact := by
  refine (quiet_compile s).call.bind fun r => ?_
  cases r <;> exact trivial

theorem quiet_sources (s : Snapshot) : Quiet s.sources :=
  quiet_forEach (fun _ => (quiet_value _ _).bind fun _ => quiet_safePoint.bind fun _ =>
    quiet_done _) _

theorem quiet_compileBody (c : Compiler) (s : Snapshot) : Quiet (s.compileBody c) := by
  unfold Snapshot.compileBody
  split
  · exact trivial
  · refine (quiet_sources s).bind fun sources => ?_
    split <;> exact trivial

namespace Answering

theorem quiet_hover (s : Snapshot) (offset : Nat) : Quiet (hover s offset) := by
  refine (quiet_entry s).bind fun doc => (quiet_parse s doc.uri).call.bind fun m => ?_
  split
  · exact trivial
  · refine Quiet.bind (Quiet.call ?_) fun _ => trivial
    split
    · exact (quiet_artifact s).call.bind fun _ => trivial
    · exact trivial

theorem quiet_completion (s : Snapshot) (offset : Nat) : Quiet (completion s offset) := by
  refine (quiet_entry s).bind fun doc => ?_
  split
  · exact trivial
  · refine Quiet.bind (Quiet.call (Quiet.bind ?_ fun _ => trivial)) fun _ => trivial
    refine (quiet_compile s).call.bind fun r => ?_
    cases r with
    | ok c => exact trivial
    | error f => exact (quiet_parse s _).call.bind fun _ => trivial

theorem quiet_definition (s : Snapshot) (offset : Nat) : Quiet (definition s offset) := by
  refine (quiet_entry s).bind fun doc => (quiet_parse s doc.uri).call.bind fun m => ?_
  split
  · exact trivial
  · split
    · refine (quiet_compile s).call.bind fun r => ?_
      cases r <;> exact trivial
    · exact trivial

theorem quiet_references (s : Snapshot) (uri : Uri) (offset : Nat) (includeDeclaration : Bool) :
    Quiet (references s uri offset includeDeclaration) := by
  refine (quiet_parse s uri).call.bind fun m => ?_
  split
  · exact trivial
  · exact (quiet_occurrences s uri _).bind fun _ => trivial

theorem quiet_documentSymbols (s : Snapshot) : Quiet (documentSymbols s) := by
  refine (quiet_entry s).bind fun doc => (quiet_parse s doc.uri).call.bind fun m => ?_
  cases m <;> exact trivial

end Answering

open Answering in
/-- The computation of a kept value asks for other kept values alone. -/
theorem Computation.quiet_body (c : Compiler) (k : Computation) : Quiet (k.body c) := by
  cases k with
  | parse doc => exact trivial
  | compile s => exact (quiet_compileBody c s).bind fun _ => trivial
  | fileSymbols doc => exact ((quiet_value _ _).bind fun _ => quiet_done _).bind fun _ => trivial
  | hover s offset => exact (quiet_hover s offset).bind fun _ => trivial
  | completion s offset => exact (quiet_completion s offset).bind fun _ => trivial
  | definition s offset => exact (quiet_definition s offset).bind fun _ => trivial
  | references s uri offset includeDeclaration =>
    exact (quiet_references s uri offset includeDeclaration).bind fun _ => trivial
  | formatting s printWidth => exact ((quiet_entry s).bind fun _ => quiet_done _).bind fun _ =>
    trivial
  | documentSymbols s => exact (quiet_documentSymbols s).bind fun _ => trivial

theorem Computation.tidy_body (c : Compiler) (k : Computation) {may : Prop} : (k.body c).Tidy may :=
  (k.quiet_body c).tidy

end Quill
