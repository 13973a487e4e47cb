import Quill.Proofs.Publisher.Operations

/-!
# What a call of a publisher starts

Only a timer that runs out starts the run of a root, and then nothing is pushed: what is pushed
comes of sets that runs have ended with, and of documents handed back. Besides its pushes, such a
set leaves what the publisher knows of its root: the documents of the set, and what it was computed
from.

## Main definitions

* `Moment.runs` — the runs that start at a moment.
* `tables` — what the publisher knows of the last set of a root.

## Main statements

* `Moment.runs_eq_nil_or_pushes_eq_nil` — a call pushes nothing, or starts no run.
* `Moment.tables_after` — what a call makes known of the last set of a root.
-/

namespace Quill

def PublisherEffect.run? : PublisherEffect → Option (Nat × Uri)
  | .compute run root => some (run, root)
  | _ => none

/-- What becomes known of a set: its documents, and what it was computed from. -/
def DiagnosticSet.tables (set : DiagnosticSet) : Option (List Uri) × Option (List Uri) :=
  (some (Dict.keys set.entries), some set.dependencies.eraseDups)

namespace Publisher

open PublisherEffect (run?)

variable {w : Surroundings} {p q : Publisher} {u x root : Uri} {β : Type}

/-! ## Runs start when timers run out -/

def Result.StartsNone (r : Result) : Prop := r.effects.filterMap run? = []

theorem Result.StartsNone.andThen {r : Result} {f : Publisher → Result} (h : r.StartsNone)
    (next : ∀ p, (f p).StartsNone) : (r.andThen f).StartsNone := by
  cases refused : r.refused with
  | some e => simpa [Result.andThen, refused] using h
  | none =>
    have next := next r.publisher
    unfold Result.StartsNone at *
    rw [(Result.andThen_of_refused_eq_none f refused).2.1, List.filterMap_append, h, next]
    rfl

theorem startsNone_forEach {f : β → Publisher → Result} (none : ∀ b p, (f b p).StartsNone)
    (items : List β) (p : Publisher) : (forEach f items p).StartsNone := by
  induction items generalizing p with
  | nil => rfl
  | cons b rest ih =>
    rw [forEach_cons]
    exact (none b p).andThen ih

theorem startsNone_cancelTimer (root : Uri) (p : Publisher) : (cancelTimer root p).StartsNone := by
  unfold cancelTimer
  split <;> rfl

theorem startsNone_schedule (w : Surroundings) (root : Uri) (p : Publisher) :
    (schedule w root p).StartsNone := (startsNone_cancelTimer root p).andThen fun _ => rfl

theorem startsNone_trigger (w : Surroundings) (u : Uri) (p : Publisher) :
    (trigger w u p).StartsNone := by
  unfold trigger
  split
  · rfl
  · exact startsNone_forEach (startsNone_schedule w) _ p

theorem startsNone_handBack (w : Surroundings) (u : Uri) (p : Publisher) :
    (handBack w u p).StartsNone := by
  refine Result.StartsNone.andThen rfl fun q => ?_
  split
  · exact startsNone_trigger w u q
  · rfl

theorem startsNone_forget (w : Surroundings) (u : Uri) (p : Publisher) :
    (forget w u p).StartsNone := by
  refine (startsNone_cancelTimer u p).andThen fun q => Result.StartsNone.andThen
    (Result.StartsNone.andThen (Result.StartsNone.andThen rfl ?_) fun _ => rfl) ?_
  · exact startsNone_forEach (startsNone_handBack w) _
  · exact startsNone_forEach (startsNone_schedule w) _

theorem startsNone_publishEntry (w : Surroundings) (root u : Uri) (e : DiagnosticEntry)
    (p : Publisher) : (publishEntry w root u e p).StartsNone := by
  unfold publishEntry
  simp only
  split
  · rfl
  · split
    · rfl
    · exact Result.StartsNone.andThen rfl fun _ => rfl

theorem startsNone_clearDropped (w : Surroundings) (root u : Uri) (p : Publisher) :
    (clearDropped w root u p).StartsNone := by
  unfold clearDropped
  split
  · exact Result.StartsNone.andThen rfl fun _ => rfl
  · rfl

theorem startsNone_publishSet (w : Surroundings) (set : DiagnosticSet) (p : Publisher) :
    (publishSet w set p).StartsNone := by
  unfold publishSet
  split
  · rfl
  · refine Result.StartsNone.andThen (startsNone_forEach (fun b p => ?_) _ _)
      (startsNone_forEach (startsNone_clearDropped w set.root) _)
    split
    · exact startsNone_publishEntry w set.root b.1 b.2 p
    · rfl

theorem startsNone_moveMain (w : Surroundings) (update : Publisher → Publisher) (p : Publisher) :
    (moveMain w update p).StartsNone := by
  unfold moveMain
  simp only
  split
  · rfl
  · exact (startsNone_forEach (startsNone_trigger w) _ _).andThen
      (startsNone_forEach (startsNone_trigger w) _)

def Moment.runs (m : Moment) : List (Nat × Uri) := m.result.effects.filterMap run?

theorem Moment.runs_eq_nil {m : Moment} (one : ∀ root, m.call ≠ .fire root)
    (all : m.call ≠ .fireAll) :
    m.runs = [] := by
  obtain ⟨w, p, call⟩ := m
  cases call with
  | hear e =>
    change Result.StartsNone (if _ then _ else _)
    split
    · exact startsNone_forget w e.uri p
    · exact startsNone_trigger w e.uri p
  | refresh uris => exact startsNone_forEach (startsNone_trigger w) uris p
  | fire root => exact absurd rfl (one root)
  | fireAll => exact absurd rfl all
  | ended run root r =>
    cases r with
    | error f => rfl
    | ok set =>
      cases set with
      | none => rfl
      | some set => exact startsNone_publishSet w set p
  | retire run => rfl
  | pin uri | refocus uri =>
    exact Result.StartsNone.andThen rfl (startsNone_moveMain w _)
  | dispose => simp [runs, result, Call.apply, dispose, run?]

/-- A call pushes nothing, or starts no run. -/
theorem Moment.runs_eq_nil_or_pushes_eq_nil (m : Moment) : m.runs = [] ∨ m.pushes = [] := by
  cases call : m.call with
  | fire root => exact .inr (by simp [pushes, result, call, Call.apply,
    (silent_fire _ root _).pushes])
  | fireAll =>
    have silent := silent_forEach (silent_fire m.surroundings) m.before.timers m.before
    exact .inr (by simp [pushes, result, call, Call.apply, fireAll, silent.pushes])
  | _ => exact .inl (runs_eq_nil (by simp [call]) (by simp [call]))

/-! ## What the last sets were computed from -/

/-- What the publisher knows of the last set of a root. -/
def tables (p : Publisher) (root : Uri) : Option (List Uri) × Option (List Uri) :=
  (Dict.get? p.rootDocuments root, Dict.get? p.rootDependencies root)

theorem Alike.tables (a : Alike p q) (root : Uri) : q.tables root = p.tables root := by
  simp only [Publisher.tables, a.rootDocuments, a.rootDependencies]

theorem tables_routed (p : Publisher) (set : DiagnosticSet) (root : Uri) :
    (p.routed set).tables root = if set.root = root then set.tables else p.tables root := by
  simp only [tables, routed, DiagnosticSet.tables, Dict.get?_put, eq_comm (a := root)]
  split <;> rfl

theorem tables_forgotten (p : Publisher) (u root : Uri) :
    (p.forgotten u).tables root = if u = root then (none, none) else p.tables root := by
  unfold tables forgotten
  split
  next same => simp [same]
  next ne => simp [Dict.get?_erase_of_ne _ (Ne.symm ne)]

/-- What a call makes known of the last set of a root. -/
theorem Moment.tables_after (m : Moment) (root : Uri) : m.after.tables root =
    if m.closes root then (none, none)
    else
      match m.set?.filter (·.root = root) with
      | some set => set.tables
      | none => m.before.tables root := by
  rw [m.alike_after.tables]
  unfold Moment.noted Moment.closes Moment.set?
  obtain ⟨w, p, call⟩ := m
  cases call with
  | hear e => by_cases closed : e.kind = .close <;> simp [closed, tables_forgotten]
  | ended run asked r =>
    cases r with
    | error f => rfl
    | ok set =>
      cases set with
      | none => simp
      | some set =>
        cases alive : p.isDisposed with
        | true => simp
        | false => by_cases isIt : set.root = root <;> simp [tables_routed, isIt, Option.filter]
  | _ => rfl

end Publisher

end Quill
