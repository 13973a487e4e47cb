import Quill.Proofs.Run.Pieces
import Quill.Proofs.Snapshot.Closure

/-!
# Snapshots that are shared

A lease may be of a snapshot that somebody else has built. All snapshots in use have been assembled
in the course of the run, and they are found by their fingerprints; so as long as fingerprints tell
the snapshots of the run apart, a lease is of a snapshot with the documents of the one that was
built.

## Main definitions

* `History.assembled` — the snapshots that have been assembled.
* `History.TellsApart` — their fingerprints tell them apart.
* `Session.Shares` — what is in use has been assembled, and is closed; `Run.shares` says that this
  always holds.
-/

namespace Quill

/-- Settings that are equal as data. -/
def CompileSettings.Same (a b : CompileSettings) : Prop :=
  (FingerprintInput.settingsValue a).canonical = (FingerprintInput.settingsValue b).canonical

def Session.assembles? (s : Session) : Happening → Option Snapshot
  | .work =>
    match s.agenda.actions with
    | .now (.assemble _ b) :: _ => some (b.assemble s.state.host.fingerprint)
    | _ => none
  | _ => none

namespace History

def assembled (h : History) : List Snapshot := h.filterMap fun p => p.1.assembles? p.2

def TellsApart (h : History) : Prop :=
  ∀ a ∈ h.assembled, ∀ b ∈ h.assembled, a.fingerprint = b.fingerprint →
    a.scope = b.scope ∧ a.settings.Same b.settings ∧ a.documents.Perm b.documents

instance (h : History) : Decidable h.TellsApart :=
  inferInstanceAs (Decidable (∀ a ∈ h.assembled, ∀ b ∈ h.assembled, _ → _ ∧ _ = _ ∧ _))

variable {h h' : History} {s : Session} {x : Happening}

theorem assembled_subset (sub : h ⊆ h') : h.assembled ⊆ h'.assembled := by
  intro a ha
  obtain ⟨p, hp, eq⟩ := List.mem_filterMap.1 ha
  exact List.mem_filterMap.2 ⟨p, sub hp, eq⟩

theorem TellsApart.of_subset (apart : h'.TellsApart) (sub : h ⊆ h') : h.TellsApart :=
  fun a ha b hb => apart a (assembled_subset sub ha) b (assembled_subset sub hb)

end History

/-- The snapshot under way is closed. -/
def EngineWork.Closed (c : Compiler) : EngineWork → Prop
  | .collect _ b => b.Closed c none
  | .lookUp (.building _ b) uri | .loaded _ b uri _ => b.Closed c (some uri)
  | .received _ b uri doc => b.Closed c (some uri) ∧ ∀ d, doc = some d → d.uri = uri
  | .assemble _ b => b.Closed c none ∧ b.gather.next? = none
  | _ => True

namespace EngineWork.Closed

variable {c : Compiler} {e : Engine} {s' : Scheduler} {w x : EngineWork} {o : Owner} {f : Flow Fact}

/-- Only snapshots under way are at stake, and somebody waits for each of them. -/
theorem of_owner? (none : x.owner? = none) : x.Closed c := by
  cases x with
  | collect | loaded | received | assemble => simp [owner?] at none
  | lookUp r uri =>
    cases r with
    | building => simp [owner?] at none
    | oneShot => exact trivial
  | _ => exact trivial

theorem of_stops (stops : e.Stops o f x) : x.Closed c := by
  cases stops with
  | lease _ _ _ _ start | build _ _ _ _ start => exact Building.Closed.start start
  | _ => exact trivial

theorem of_setsOut (sets : x.SetsOut) : x.Closed c := by
  cases x with
  | go | begin | settleFlight => exact trivial
  | _ => cases sets

/-- A snapshot that goes on is closed again. -/
theorem follows (closed : w.Closed e.host.compiler) (follows : e.Follows s' w x) :
    x.Closed e.host.compiler := by
  cases follows with
  | go _ stops | begin _ _ stops | diagnose _ _ stops => exact of_stops stops
  | complete complete => exact ⟨closed, complete⟩
  | memory next _ =>
    refine ⟨Building.Closed.next closed next, ?_⟩
    rintro d ⟨⟩
    rfl
  | load next _ => exact Building.Closed.next closed next
  | found => exact closed
  | absent => exact ⟨closed, by simp⟩
  | opened | file =>
    refine ⟨closed, ?_⟩
    rintro d ⟨⟩
    rfl
  | received received => exact closed.1.receive closed.2 received
  | wake | recheck | join | unread | unreceived | built | assembled | interned => exact trivial

end EngineWork.Closed

/-- The snapshots in use have been assembled, and each is found under its fingerprint. All
snapshots, the ones under way too, are closed. -/
structure Session.Shares (s : Session) (h : History) : Prop where
  closed : ∀ {a}, a ∈ h.assembled → a.Closed s.state.host.compiler
  building : ∀ {x}, x ∈ s.pieces → x.Closed s.state.host.compiler
  interned : ∀ {fp i}, Dict.get? s.state.leases.interned fp = some i →
    i.snapshot ∈ h.assembled ∧ i.snapshot.fingerprint = fp
  pieces : ∀ {o next built}, .intern o next built ∈ s.pieces → built ∈ h.assembled

namespace Session.Shares

variable {s s' : Session} {h : History} {x : Happening}

theorem take (shares : s.Shares h) {built : Snapshot} (mem : built ∈ h.assembled) :
    (s.state.leases.take built).2.1.snapshot ∈ h.assembled ∧
      (s.state.leases.take built).2.1.snapshot.fingerprint = built.fingerprint := by
  obtain new | ⟨i, found, eq⟩ := s.state.leases.snapshot_take built
  · rw [new]
    exact ⟨mem, rfl⟩
  · rw [eq]
    exact shares.interned found

/-- What is in use after one more thing has happened. -/
theorem interned_step (shares : s.Shares h) {leases : Leases}
    (how : leases.LeftOf s.state.leases ∨ ∃ o next built rest,
      s.agenda.actions = .now (.intern o next built) :: rest ∧
        leases = (s.state.leases.take built).1)
    {fp i} (found : Dict.get? leases.interned fp = some i) :
    i.snapshot ∈ h.assembled ∧ i.snapshot.fingerprint = fp := by
  obtain left | ⟨o, next, built, rest, head, rfl⟩ := how
  · obtain ⟨j, found, eq⟩ := left.within _ _ found
    exact eq ▸ shares.interned found
  · obtain ⟨j, found, eq⟩ | ⟨rfl, eq⟩ := Leases.interned_take found
    · exact eq ▸ shares.interned found
    · rw [eq]
      exact ⟨shares.pieces (mem_pieces_of_head head), rfl⟩

theorem closed_cons (shares : s.Shares h) {a : Snapshot}
    (mem : a ∈ History.assembled ((s, x) :: h)) : a.Closed s.state.host.compiler := by
  obtain ⟨⟨s₀, y⟩, mem, eq⟩ := List.mem_filterMap.1 mem
  rcases List.mem_cons.1 mem with same | old
  · obtain ⟨rfl, rfl⟩ := Prod.mk.inj same
    unfold assembles? at eq
    split at eq
    · split at eq
      next w b rest head =>
        obtain rfl := Option.some.inj eq
        obtain ⟨closed, complete⟩ := shares.building (mem_pieces_of_head head)
        exact closed.assemble complete _
      next => simp at eq
    · simp at eq
  · exact shares.closed (List.mem_filterMap.2 ⟨_, old, eq⟩)

/-- Whatever happens, what is in use has been assembled. -/
theorem does (shares : s.Shares h) (sound : s.Sound) (d : x.Does s s') :
    s'.Shares ((s, x) :: h) := by
  have older : h.assembled ⊆ History.assembled ((s, x) :: h) :=
    History.assembled_subset (List.subset_cons_self _ _)
  obtain ⟨host, leases⟩ := d.keeps sound
  refine ⟨fun mem => ?_, fun {y} mem => ?_, fun found => ?_, fun {o next built} mem => ?_⟩
  · rw [host]
    exact shares.closed_cons mem
  · rw [host]
    cases own : y.owner? with
    | none => exact .of_owner? own
    | some o =>
      obtain old | ⟨w, rest, _, rfl, head, follows⟩ | sets := d.origin sound mem (by simp [own])
      · exact shares.building old
      · exact .follows (shares.building (mem_pieces_of_head head)) follows
      · exact .of_setsOut sets
  · obtain ⟨mem, eq⟩ := shares.interned_step leases found
    exact ⟨older mem, eq⟩
  · obtain old | ⟨w, rest, _, rfl, head, follows⟩ | sets := d.origin sound mem rfl
    · exact older (shares.pieces old)
    · cases follows with
      | go _ stops | begin _ _ stops | diagnose _ _ stops => cases stops
      | assembled => exact List.mem_filterMap.2 ⟨(s, .work),
        List.mem_cons_self, by simp [assembles?, head]⟩
    · cases sets

end Session.Shares

/-- Throughout a run, what is in use has been assembled. -/
theorem Run.shares {host : Host} {config : EngineConfig} {h : History} {s : Session}
    (run : Run host config h s) : s.Shares h := by
  induction run with
  | start =>
    exact ⟨by simp [History.assembled], by simp, by simp [Session.start, Engine.start], by simp⟩
  | step x run next ih => exact ih.does run.sound (Happening.does next)

end Quill
