import Quill.Proofs.Run.Events
import Quill.Proofs.Snapshot.Closure

/-!
# What a snapshot may miss

A snapshot is read document by document while the client goes on. Before the attempt says what it
has read, the scheduler does not know what it depends on: documents may be opened that the snapshot
does not hold, and documents that it holds may get another text at the version they were read at.
Nothing else can go wrong.

## Main definitions

* `History.Overlooked`, `History.Missed` — what an attempt has not heard of.
* `Snapshot.Fits` — the snapshot holds what the store has, but for that.
* `Building.Gathers` — so does a snapshot under way; `Gathers.fits` is about its end.
-/

namespace Quill

def Store.Belies (s : Store) (d : SnapshotDocument) : Prop :=
  ∃ doc, Dict.get? s.documents d.uri = some doc ∧ doc.version = d.version ∧ doc.text ≠ d.text

def Session.Tries (s : Session) (task n : Nat) (read : Option (List ReadEntry)) : Prop :=
  ∃ t, s.state.scheduler.task? task = some t ∧ t.IsLive ∧ t.attempts = n ∧ t.readSet = read

namespace History

variable {h h' : History} {task n : Nat} {d : SnapshotDocument} {x : Uri}

/-- While attempt `n` was live, the document got another text at its version, and the attempt did
not hear of it: it had not said what it had read, or the edit broke off. -/
def Overlooked (h : History) (task n : Nat) (d : SnapshotDocument) : Prop :=
  ∃ s o read, (s, .operation o) ∈ h ∧ s.Tries task n read ∧ (read = none ∨ o.BreaksOff s.state) ∧
    ¬ s.state.store.Belies d ∧ (o.apply s.state).1.store.Belies d

/-- While attempt `n` was live and had not said what it had read, the document was opened. -/
def Missed (h : History) (task n : Nat) (x : Uri) : Prop :=
  ∃ s o, (s, .operation o) ∈ h ∧ s.Tries task n none ∧ s.state.store.has x = false ∧
    (o.apply s.state).1.store.has x

theorem Overlooked.mono (o : h.Overlooked task n d) (sub : h ⊆ h') : h'.Overlooked task n d := by
  obtain ⟨s, o, read, mem, rest⟩ := o
  exact ⟨s, o, read, sub mem, rest⟩

theorem Missed.mono (m : h.Missed task n x) (sub : h ⊆ h') : h'.Missed task n x := by
  obtain ⟨s, o, mem, rest⟩ := m
  exact ⟨s, o, sub mem, rest⟩

/-- From one moment of a history to a later one, nothing becomes of the store that attempt `n` has
heard of. -/
structure Drifts (task n : Nat) (h : History) (store : Store) (h' : History) (store' : Store) :
    Prop where
  sub : h ⊆ h'
  belies : ∀ {d}, store'.Belies d → store.Belies d ∨ h'.Overlooked task n d
  has : ∀ {x}, store'.has x → store.has x ∨ h'.Missed task n x

theorem Drifts.refl (task n : Nat) (h : History) (store : Store) : Drifts task n h store h store :=
  ⟨List.Subset.refl h, .inl, .inl⟩

end History

variable {h h' : History} {task n : Nat} {store store' : Store}

/-- The snapshot holds what the store has, but for what attempt `n` has not heard of. -/
structure Snapshot.Fits (s : Snapshot) (task n : Nat) (h : History) (store : Store) : Prop where
  fresh : ∀ d ∈ s.ordered, d.origin = .memory → store.Belies d → h.Overlooked task n d
  full : s.scope = .workspace → ∀ x, store.has x → (∃ d ∈ s.ordered, d.uri = x) ∨ h.Missed task n x

theorem Snapshot.Fits.drifts {s : Snapshot} (f : s.Fits task n h store)
    (drift : History.Drifts task n h store h' store') : s.Fits task n h' store' where
  fresh := by
    intro d hd memory belied
    obtain old | new := drift.belies belied
    · exact (f.fresh d hd memory old).mono drift.sub
    · exact new
  full := by
    intro global x isOpen
    obtain old | new := drift.has isOpen
    · exact (f.full global x old).imp_right fun m => m.mono drift.sub
    · exact .inr new

theorem Snapshot.Fits.congr {s s' : Snapshot} (f : s.Fits task n h store)
    (scope : s'.scope = s.scope)
    (same : s'.documents.Perm s.documents) : s'.Fits task n h store := by
  have ordered : s'.ordered.Perm s.ordered :=
    (Text.sortOn_perm _ _).trans ((same.map Prod.snd).trans (Text.sortOn_perm _ _).symm)
  refine ⟨fun d hd => f.fresh d (ordered.mem_iff.1 hd), fun global x isOpen => ?_⟩
  refine (f.full (scope ▸ global) x isOpen).imp_left ?_
  rintro ⟨d, hd, isIt⟩
  exact ⟨d, ordered.mem_iff.2 hd, isIt⟩

namespace Building

variable {b : Building} {uri x : Uri} {d : SnapshotDocument}

/-- What has been read is as the store has it, and what is open has been read or is still to be
read, but for what attempt `n` has not heard of. The document that is being read is neither. -/
structure Gathers (b : Building) (current : Option Uri) (task n : Nat) (h : History)
    (store : Store) : Prop where
  found : ∀ {x d}, (x, d) ∈ b.gather.found →
    d.uri = x ∧ (d.origin = .memory → store.Belies d → h.Overlooked task n d)
  missing : ∀ {x}, x ∈ b.gather.missing → store.has x → h.Missed task n x
  all : b.scope = .workspace → ∀ {x}, store.has x →
    x ∈ b.gather.pending ∨ current = some x ∨ Dict.has b.gather.found x ∨ h.Missed task n x

namespace Gathers

variable {current : Option Uri}

theorem drifts (g : b.Gathers current task n h store)
    (drift : History.Drifts task n h store h' store') : b.Gathers current task n h' store' where
  found := by
    intro x d hd
    refine ⟨(g.found hd).1, fun memory belied => ?_⟩
    obtain old | new := drift.belies belied
    · exact ((g.found hd).2 memory old).mono drift.sub
    · exact new
  missing := by
    intro x hx isOpen
    obtain old | new := drift.has isOpen
    · exact (g.missing hx old).mono drift.sub
    · exact new
  all := by
    intro global x isOpen
    obtain old | new := drift.has isOpen
    · obtain pending | now | found | missed := g.all global old
      · exact .inl pending
      · exact .inr (.inl now)
      · exact .inr (.inr (.inl found))
      · exact .inr (.inr (.inr (missed.mono drift.sub)))
    · exact .inr (.inr (.inr new))

/-- Nothing has been read at the beginning; a snapshot of everything is to read all that is open. -/
theorem start {settings : CompileSettings} {scope : Scope}
    (eq : Building.start store settings scope = .ok b) :
    b.scope = scope ∧ b.Gathers none task n h store := by
  unfold Building.start at eq
  split at eq
  next global =>
    obtain rfl := Except.ok.inj eq
    refine ⟨rfl, by simp [Gather.start], by simp [Gather.start], fun _ x isOpen => .inl ?_⟩
    exact (Text.sort_perm _).mem_iff.2 (Dict.mem_keys_iff.2 isOpen)
  next entry local_ =>
    split at eq
    · obtain rfl := Except.ok.inj eq
      refine ⟨rfl, by simp [Gather.start], by simp [Gather.start], fun global => ?_⟩
      simp only at global
      simp [global, Scope.entryUri?] at local_
    · simp at eq

/-- The next document is read; what is passed over has been read or found missing. -/
theorem next {gather : Gather SnapshotDocument} (g : b.Gathers none task n h store)
    (eq : b.gather.next? = some (uri, gather)) :
    ({ b with gather } : Building).Gathers (some uri) task n h store := by
  obtain ⟨rest, pending, rfl⟩ := Gather.next?_eq_some eq
  refine ⟨g.found, g.missing, fun global x isOpen => ?_⟩
  obtain waits | now | found | missed := g.all global isOpen
  · obtain left | settled := Gather.mem_pending_cases waits
    · rw [pending] at left
      rcases List.mem_cons.1 left with rfl | left
      · exact .inr (.inl rfl)
      · exact .inl left
    · rcases Gather.isSettled_iff.1 settled with found | missing
      · exact .inr (.inr (.inl found))
      · exact .inr (.inr (.inr (g.missing missing isOpen)))
  · simp at now
  · exact .inr (.inr (.inl found))
  · exact .inr (.inr (.inr missed))

/-- A document that is found missing was not open when it was to be read. -/
theorem skip (g : b.Gathers (some uri) task n h store)
    (absent : store.has uri → h.Missed task n uri) :
    ({ b with gather := b.gather.skip uri } : Building).Gathers none task n h store := by
  refine ⟨g.found, fun {x} hx isOpen => ?_, fun global x isOpen => ?_⟩
  · rcases List.mem_append.1 hx with old | new
    · exact g.missing old isOpen
    · obtain rfl : x = uri := by simpa using new
      exact absent isOpen
  · obtain waits | now | found | missed := g.all global isOpen
    · exact .inl waits
    · obtain rfl : uri = x := by simpa using now
      exact .inr (.inr (.inr (absent isOpen)))
    · exact .inr (.inr (.inl found))
    · exact .inr (.inr (.inr missed))

/-- A document that was read is as the store has it. -/
theorem add (g : b.Gathers (some uri) task n h store) (targets : List Uri) (isIt : d.uri = uri)
    (fresh : d.origin = .memory → store.Belies d → h.Overlooked task n d) :
    ({ b with gather := b.gather.add uri d targets } : Building).Gathers none task n h store := by
  refine ⟨fun {x d'} hd => ?_, g.missing, fun global x isOpen => ?_⟩
  · rcases Dict.mem_put hd with new | old
    · obtain ⟨rfl, rfl⟩ : x = uri ∧ d' = d := by simpa using new
      exact ⟨isIt, fresh⟩
    · exact g.found old
  · obtain waits | now | found | missed := g.all global isOpen
    · exact .inl (List.mem_append_left _ waits)
    · obtain rfl : uri = x := by simpa using now
      exact .inr (.inr (.inl (by simp [Gather.add, Dict.has])))
    · refine .inr (.inr (.inl ?_))
      simp only [Gather.add, Dict.has, Dict.get?_put] at found ⊢
      split
      · rfl
      · exact found
    · exact .inr (.inr (.inr missed))

/-- What is known of the answer to a read. -/
def Brings (doc : Option SnapshotDocument) (uri : Uri) (task n : Nat) (h : History)
    (store : Store) :
    Prop :=
  match doc with
  | none => store.has uri → h.Missed task n uri
  | some d => d.uri = uri ∧ (d.origin = .memory → store.Belies d → h.Overlooked task n d)

theorem receive {c : Compiler} {doc : Option SnapshotDocument} {b' : Building}
    (g : b.Gathers (some uri) task n h store) (brings : Brings doc uri task n h store)
    (eq : b.receive c uri doc = .ok b') : b'.scope = b.scope ∧ b'.Gathers none task n h store := by
  cases doc with
  | none =>
    obtain rfl := Except.ok.inj eq
    exact ⟨rfl, g.skip brings⟩
  | some d =>
    obtain ⟨targets, rfl, -⟩ := Building.eq_of_receive eq
    exact ⟨rfl, g.add targets brings.1 brings.2⟩

/-- When nothing is left to be read, the snapshot fits. -/
theorem fits (g : b.Gathers none task n h store) (complete : b.gather.next? = none)
    (f : Fingerprint) : (b.assemble f).Fits task n h store where
  fresh := by
    intro d hd memory belied
    have mem : d ∈ Dict.values b.gather.found := (Text.sortOn_perm _ _).mem_iff.1 hd
    obtain ⟨⟨x, d⟩, found, rfl⟩ := List.mem_map.1 mem
    exact (g.found found).2 memory belied
  full := by
    intro global x isOpen
    have holds (found : Dict.has b.gather.found x) : ∃ d ∈ (b.assemble f).ordered, d.uri = x := by
      obtain ⟨⟨x, d⟩, mem, rfl⟩ := List.mem_map.1 (Dict.mem_keys_iff.2 found)
      exact ⟨d, (Text.sortOn_perm _ _).mem_iff.2 (List.mem_map.2 ⟨_, mem, rfl⟩), (g.found mem).1⟩
    obtain waits | now | found | missed := g.all global isOpen
    · rcases Gather.isSettled_iff.1
        (Gather.isSettled_of_next?_eq_none complete waits) with found | missing
      · exact .inl (holds found)
      · exact .inr (g.missing missing isOpen)
    · simp at now
    · exact .inl (holds found)
    · exact .inr missed

end Gathers

end Building

end Quill
