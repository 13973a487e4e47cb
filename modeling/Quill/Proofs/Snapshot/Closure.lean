import Quill.Proofs.Data.Dict
import Quill.Snapshot.Basic

/-!
# What a snapshot holds and what it lacks

The snapshot of a document holds the document and, again and again, what a document that it holds
includes, as far as that could be read; the rest is missing. So what is missing follows from what
was found, though no fingerprint is computed from it.

## Main definitions

* `Compiler.Reaches` — what has to be read for some documents.
* `Building.Closed`, `Snapshot.Closed` — everything of that has been found, is missing or is still
  to be read.
-/

namespace Quill

variable {c : Compiler} {entry x : Uri}

/-- To read the entry with all that it includes, `x` has to be read: it is the entry, or included by
something that has been found. -/
def Compiler.Reaches (c : Compiler) (entry : Uri) (found : Dict Uri SnapshotDocument) (x : Uri) :
    Prop :=
  x = entry ∨ ∃ e ∈ found, ∃ targets, c.targets e.1 e.2.text = .ok targets ∧ x ∈ targets

/-- What has been found is filed once, under its uri. For a document with all that it includes,
exactly what has to be read is found, missing, waiting or being read now. -/
structure Building.Closed (c : Compiler) (b : Building) (current : Option Uri) : Prop where
  keyed : ∀ e ∈ b.gather.found, e.2.uri = e.1
  nodup : (Dict.keys b.gather.found).Nodup
  apart : ∀ x ∈ b.gather.missing, Dict.has b.gather.found x = false
  fresh : ∀ x, current = some x → b.gather.isSettled x = false
  reached : ∀ {entry}, b.scope = .document entry → ∀ {x},
    x ∈ b.gather.missing ∨ x ∈ b.gather.pending ∨ current = some x →
    c.Reaches entry b.gather.found x
  settled : ∀ {entry}, b.scope = .document entry → ∀ {x}, c.Reaches entry b.gather.found x →
    b.gather.isSettled x ∨ x ∈ b.gather.pending ∨ current = some x

/-- The documents are filed once, under their uris, and what is missing is not there. For a document
with all that it includes, exactly what has to be read is there or missing. -/
structure Snapshot.Closed (c : Compiler) (s : Snapshot) : Prop where
  keyed : ∀ e ∈ s.documents, e.2.uri = e.1
  nodup : (Dict.keys s.documents).Nodup
  missing : ∀ {entry}, s.scope = .document entry → ∀ {x},
    x ∈ s.missing ↔ c.Reaches entry s.documents x ∧ Dict.has s.documents x = false

namespace Gather

variable {α : Type} {g : Gather α}

theorem isSettled_iff : g.isSettled x ↔ Dict.has g.found x ∨ x ∈ g.missing := by
  simp [isSettled]

theorem mem_pending_cases (h : x ∈ g.pending) :
    x ∈ g.pending.dropWhile g.isSettled ∨ g.isSettled x := by
  rw [← List.takeWhile_append_dropWhile (p := g.isSettled) (l := g.pending)] at h
  rcases List.mem_append.1 h with passed | left
  · exact .inr (List.all_eq_true.1 List.all_takeWhile x passed)
  · exact .inl left

/-- The next document is the first one that is not settled. -/
theorem next?_eq_some {uri : Uri} {g' : Gather α} (eq : g.next? = some (uri, g')) :
    ∃ rest, g.pending.dropWhile g.isSettled = uri :: rest ∧ g' = { g with pending := rest } := by
  unfold next? at eq
  split at eq
  · simp at eq
  next u rest settled =>
    obtain ⟨rfl, rfl⟩ : u = uri ∧ _ := by simpa using eq
    exact ⟨rest, settled, rfl⟩

/-- When nothing is left to be read, everything is settled. -/
theorem isSettled_of_next?_eq_none (complete : g.next? = none) (h : x ∈ g.pending) :
    g.isSettled x := by
  refine (mem_pending_cases h).resolve_left fun left => ?_
  unfold next? at complete
  split at complete
  next none => simp [none] at left
  next => simp at complete

end Gather

/-- A document that was read is added, with what it names unless one file is all that is asked
for. -/
theorem Building.eq_of_receive {b b' : Building} {uri : Uri} {d : SnapshotDocument}
    (took : b.receive c uri (some d) = .ok b') :
    ∃ targets, b' = { b with gather := b.gather.add uri d targets } ∧
      ((∃ entry, b.scope = .file entry) ∨ c.targets uri d.text = .ok targets) := by
  unfold Building.receive at took
  dsimp only at took
  split at took
  next entry file => exact ⟨[], (Except.ok.inj took).symm, .inl ⟨entry, file⟩⟩
  next =>
    cases targets : c.targets uri d.text with
    | error f => simp [targets, bind, Except.bind] at took
    | ok ts => exact ⟨ts, by simpa [targets, bind, Except.bind, eq_comm] using took, .inr rfl⟩

namespace Building.Closed

variable {b b' : Building} {uri : Uri} {d : SnapshotDocument} {current : Option Uri}

theorem start {store : Store} {settings : CompileSettings} {scope : Scope}
    (eq : Building.start store settings scope = .ok b) : b.Closed c none := by
  unfold Building.start at eq
  split at eq
  next global =>
    obtain rfl := Except.ok.inj eq
    refine ⟨by simp [Gather.start], by simp [Gather.start, Dict.keys], by simp [Gather.start],
      by simp, fun {entry} document => ?_, fun {entry} document => ?_⟩ <;>
    · simp only at document
      simp [document, Scope.entryUri?] at global
  next root local_ =>
    split at eq
    · obtain rfl := Except.ok.inj eq
      refine ⟨by simp [Gather.start], by simp [Gather.start, Dict.keys], by simp [Gather.start],
        by simp, fun {entry} document x => ?_, fun {entry} document x => ?_⟩ <;>
      · simp only at document
        obtain rfl : entry = root := by simpa [document, Scope.entryUri?] using local_
        simp +contextual [Gather.start, Compiler.Reaches]
    · simp at eq

theorem next {gather : Gather SnapshotDocument} (closed : b.Closed c none)
    (eq : b.gather.next? = some (uri, gather)) :
    ({ b with gather } : Building).Closed c (some uri) := by
  have unsettled := Gather.isSettled_of_next? eq
  obtain ⟨rest, pending, rfl⟩ := Gather.next?_eq_some eq
  refine ⟨closed.keyed, closed.nodup, closed.apart, ?_, fun document x waits => ?_,
    fun document x reaches => ?_⟩
  · rintro x ⟨⟩
    exact unsettled
  · have before : x ∈ uri :: rest → x ∈ b.gather.pending := fun mem =>
      (List.dropWhile_sublist _).subset (pending ▸ mem)
    refine closed.reached document ?_
    rcases waits with missing | left | now
    · exact .inl missing
    · exact .inr (.inl (before (List.mem_cons_of_mem _ left)))
    · obtain rfl := Option.some.inj now
      exact .inr (.inl (before List.mem_cons_self))
  · obtain settled | waits | now := closed.settled document reaches
    · exact .inl settled
    · obtain left | settled := Gather.mem_pending_cases waits
      · rw [pending] at left
        rcases List.mem_cons.1 left with rfl | left
        · exact .inr (.inr rfl)
        · exact .inr (.inl left)
      · exact .inl settled
    · simp at now

theorem skip (closed : b.Closed c (some uri)) :
    ({ b with gather := b.gather.skip uri } : Building).Closed c none := by
  refine ⟨closed.keyed, closed.nodup, fun x missing => ?_, by simp, fun document x waits => ?_,
    fun document x reaches => ?_⟩
  · rcases List.mem_append.1 missing with old | new
    · exact closed.apart x old
    · obtain rfl := List.mem_singleton.1 new
      have unsettled := closed.fresh x rfl
      simp only [Gather.isSettled, Bool.or_eq_false_iff] at unsettled
      exact unsettled.1
  · refine closed.reached document ?_
    rcases waits with missing | waits | now
    · rcases List.mem_append.1 missing with old | new
      · exact .inl old
      · obtain rfl := List.mem_singleton.1 new
        exact .inr (.inr rfl)
    · exact .inr (.inl waits)
    · simp at now
  · obtain settled | waits | now := closed.settled document reaches
    · left
      rw [Gather.isSettled_iff] at settled ⊢
      exact settled.imp_right (List.mem_append_left _)
    · exact .inr (.inl waits)
    · obtain rfl := Option.some.inj now
      exact .inl (Gather.isSettled_iff.2 (.inr (List.mem_append_right _ List.mem_cons_self)))

/-- A document that was read brings in what it includes. -/
theorem add {targets : List Uri} (closed : b.Closed c (some uri)) (isIt : d.uri = uri)
    (names : ∀ entry, b.scope = .document entry → c.targets uri d.text = .ok targets) :
    ({ b with gather := b.gather.add uri d targets } : Building).Closed c none := by
  have unsettled := closed.fresh uri rfl
  simp only [Gather.isSettled, Bool.or_eq_false_iff] at unsettled
  obtain ⟨new, kept⟩ := unsettled
  have grows {entry x : Uri} (reaches : c.Reaches entry b.gather.found x) :
      c.Reaches entry (Dict.put b.gather.found uri d) x := by
    refine reaches.imp_right ?_
    rintro ⟨e, mem, ts, eq, named⟩
    refine ⟨e, Dict.mem_put_of_ne mem fun same => ?_, ts, eq, named⟩
    have found : Dict.has b.gather.found uri := Dict.mem_keys_iff.1 (List.mem_map.2 ⟨e, mem, same⟩)
    simp [found] at new
  refine ⟨fun e mem => ?_, Dict.nodup_keys_put closed.nodup _ _, fun x missing => ?_, by simp,
    fun {entry} document x waits => ?_, fun {entry} document x reaches => ?_⟩
  · rcases Dict.mem_put mem with rfl | old
    · exact isIt
    · exact closed.keyed e old
  · have other : x ≠ uri := by
      rintro rfl
      simp [show x ∈ b.gather.missing from missing] at kept
    refine Bool.eq_false_iff.2 fun found => ?_
    obtain rfl | found := (Dict.has_put _ _ _ _).1 found
    · exact other rfl
    · simp [closed.apart x missing] at found
  · rcases waits with missing | waits | now
    · exact grows (closed.reached document (.inl missing))
    · rcases List.mem_append.1 waits with old | named
      · exact grows (closed.reached document (.inr (.inl old)))
      · exact .inr ⟨(uri, d), Dict.mem_put_self _ _ _, targets, names entry document, named⟩
    · simp at now
  · have old (reaches : c.Reaches entry b.gather.found x) :
        (b.gather.add uri d targets).isSettled x ∨ x ∈ b.gather.pending ++ targets ∨
          (none : Option Uri) = some x := by
      obtain settled | waits | now := closed.settled document reaches
      · left
        rw [Gather.isSettled_iff] at settled ⊢
        exact settled.imp_left fun found => (Dict.has_put _ _ _ _).2 (.inr found)
      · exact .inr (.inl (List.mem_append_left _ waits))
      · obtain rfl := Option.some.inj now
        exact .inl (Gather.isSettled_iff.2 (.inl ((Dict.has_put _ _ _ _).2 (.inl rfl))))
    obtain rfl | ⟨e, mem, ts, eq, named⟩ := reaches
    · exact old (.inl rfl)
    · rcases Dict.mem_put mem with rfl | mem
      · obtain rfl := Except.ok.inj ((names entry document).symm.trans eq)
        exact .inr (.inl (List.mem_append_right _ named))
      · exact old (.inr ⟨e, mem, ts, eq, named⟩)

theorem receive {doc : Option SnapshotDocument} (closed : b.Closed c (some uri))
    (isIt : ∀ d, doc = some d → d.uri = uri) (eq : b.receive c uri doc = .ok b') :
    b'.Closed c none := by
  cases doc with
  | none =>
    obtain rfl := Except.ok.inj eq
    exact closed.skip
  | some d =>
    obtain ⟨targets, rfl, named⟩ := Building.eq_of_receive eq
    refine closed.add (isIt d rfl) fun entry document => named.resolve_left ?_
    rintro ⟨_, file⟩
    cases document.symm.trans file

/-- When nothing is left to be read, everything has been found or is missing. -/
theorem assemble (closed : b.Closed c none) (complete : b.gather.next? = none) (f : Fingerprint) :
    (b.assemble f).Closed c where
  keyed := closed.keyed
  nodup := closed.nodup
  missing := by
    intro entry document x
    change x ∈ Text.sort b.gather.missing ↔ c.Reaches entry b.gather.found x ∧ _
    rw [(Text.sort_perm _).mem_iff]
    refine ⟨fun missing => ⟨closed.reached document (.inl missing), closed.apart x missing⟩, ?_⟩
    rintro ⟨reaches, notin⟩
    have settled : b.gather.isSettled x := by
      obtain settled | waits | now := closed.settled document reaches
      · exact settled
      · exact Gather.isSettled_of_next?_eq_none complete waits
      · simp at now
    refine (Gather.isSettled_iff.1 settled).resolve_left fun found => ?_
    rw [show Dict.has b.gather.found x = false from notin] at found
    simp at found

end Building.Closed

end Quill
