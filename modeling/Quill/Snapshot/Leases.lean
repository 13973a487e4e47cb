import Quill.Snapshot.Basic

/-!
# Leases

While a snapshot is in use, everybody who builds one with the same fingerprint gets the one in use.
Leases count its users; a lease is given back once, and giving it back again does nothing.

## Main definitions

* `Leases` — the snapshots in use, and the leases that have not been given back.
* `Leases.take`, `Leases.release` — take a lease and give it back.
* `Leases.size` — how many snapshots are in use.
* `Leases.Within` — what is in use is in use there too.
* `Leases.LeftOf` — what is left when some leases have been given back.

## Main statements

* `Leases.release_within` — giving back a lease brings no snapshot into use.
* `Leases.interned_take` — taking one brings in the snapshot that was built, or none at all.
-/

namespace Quill

structure Interned where
  snapshot : Snapshot
  number : Nat
  leases : Nat
  deriving DecidableEq, Repr

/-- The snapshots in use by fingerprint, and the fingerprint of every lease that has not been given
back. -/
structure Leases where
  interned : Dict Text Interned := []
  live : Dict Nat Text := []
  nextNumber : Nat := 0
  nextLease : Nat := 0
  deriving DecidableEq, Repr

structure Lease where
  id : Nat
  snapshot : Snapshot
  number : Nat
  deriving DecidableEq, Repr

namespace Leases

def size (l : Leases) : Nat := l.interned.length

/-- Take a lease of a snapshot, or of the one in use that has its fingerprint. The last part says
how many leases that one has now. -/
def take (l : Leases) (built : Snapshot) : Leases × Lease × Option Nat :=
  let fingerprint := built.fingerprint
  let live := Dict.put l.live l.nextLease fingerprint
  match Dict.get? l.interned fingerprint with
  | some i =>
    ({ l with
        interned := Dict.put l.interned fingerprint { i with leases := i.leases + 1 }
        live, nextLease := l.nextLease + 1 },
      ⟨l.nextLease, i.snapshot, i.number⟩, some (i.leases + 1))
  | none =>
    ({ interned := Dict.put l.interned fingerprint ⟨built, l.nextNumber, 1⟩
       live, nextNumber := l.nextNumber + 1, nextLease := l.nextLease + 1 },
      ⟨l.nextLease, built, l.nextNumber⟩, none)

/-- Give a lease back. A snapshot that nobody uses any more is forgotten. -/
def release (l : Leases) (id : Nat) : Leases :=
  match Dict.get? l.live id with
  | none => l
  | some fingerprint =>
    let live := Dict.erase l.live id
    match Dict.get? l.interned fingerprint with
    | none => { l with live }
    | some i =>
      if i.leases ≤ 1 then { l with live, interned := Dict.erase l.interned fingerprint }
      else
        { l with live, interned :=
          Dict.put l.interned fingerprint { i with leases := i.leases - 1 } }

/-- A lease that has been given back, or was never taken, does nothing. -/
theorem release_of_not_live (l : Leases) {id : Nat} (h : Dict.get? l.live id = none) :
    l.release id = l := by
  simp [release, h]

/-! ## What is in use -/

variable {l l' l'' : Leases} {fp : Text} {i' : Interned}

/-- Every snapshot in use in `l'` is in use in `l`, under the same fingerprint. -/
def Within (l' l : Leases) : Prop :=
  ∀ fp i', Dict.get? l'.interned fp = some i' →
    ∃ i, Dict.get? l.interned fp = some i ∧ i.snapshot = i'.snapshot

theorem Within.refl (l : Leases) : l.Within l := fun _ _ h => ⟨_, h, rfl⟩

theorem Within.trans (h : l''.Within l') (g : l'.Within l) : l''.Within l := by
  intro fp i'' hi
  obtain ⟨i', hi, eq⟩ := h _ _ hi
  obtain ⟨i, hi, eq'⟩ := g _ _ hi
  exact ⟨i, hi, eq'.trans eq⟩

theorem release_within (l : Leases) (id : Nat) : (l.release id).Within l := by
  intro fp i' hi
  unfold release at hi
  split at hi
  next => exact ⟨i', hi, rfl⟩
  next fp' _ =>
    split at hi
    next => exact ⟨i', hi, rfl⟩
    next i hi' =>
      have other (ne : fp ≠ fp') : Dict.get? l.interned fp = some i' := by
        split at hi
        · exact Dict.get?_erase_of_ne l.interned ne ▸ hi
        · simpa [Dict.get?_put, ne] using hi
      by_cases eq : fp = fp'
      · subst eq
        split at hi
        · simp at hi
        · obtain rfl := Option.some.inj ((Dict.get?_put_self ..).symm.trans hi)
          exact ⟨i, hi', rfl⟩
      · exact ⟨i', other eq, rfl⟩

/-- `l'` is what is left of `l` when some leases have been given back. -/
inductive LeftOf : Leases → Leases → Prop where
  | refl (l : Leases) : LeftOf l l
  | release {l' l : Leases} (id : Nat) (h : LeftOf l' (l.release id)) : LeftOf l' l

theorem LeftOf.within (h : l'.LeftOf l) : l'.Within l := by
  induction h with
  | refl => exact .refl l'
  | release id _ ih => exact ih.trans (release_within _ id)

/-- After a lease is taken, the snapshots in use are those that were, and perhaps the one built. -/
theorem interned_take {built : Snapshot}
    (h : Dict.get? (l.take built).1.interned fp = some i') :
    (∃ i, Dict.get? l.interned fp = some i ∧ i.snapshot = i'.snapshot) ∨
      fp = built.fingerprint ∧ i'.snapshot = built := by
  simp only [take] at h
  split at h
  next i hi =>
    left
    rw [Dict.get?_put] at h
    split at h
    next eq =>
      obtain rfl := Option.some.inj h
      exact ⟨i, eq ▸ hi, rfl⟩
    next => exact ⟨i', h, rfl⟩
  next =>
    rw [Dict.get?_put] at h
    split at h
    next eq =>
      obtain rfl := Option.some.inj h
      exact .inr ⟨eq, rfl⟩
    next => exact .inl ⟨i', h, rfl⟩

theorem snapshot_take (l : Leases) (built : Snapshot) :
    (l.take built).2.1.snapshot = built ∨
      ∃ i, Dict.get? l.interned built.fingerprint = some i ∧
        (l.take built).2.1.snapshot = i.snapshot := by
  simp only [take]
  split
  next i hi => exact .inr ⟨i, hi, rfl⟩
  next => exact .inl rfl

end Leases

end Quill
