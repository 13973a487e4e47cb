import Mathlib.Data.List.Nodup
import Quill.Proofs.Data.Dict
import Quill.Snapshot.Leases

/-!
# How leases are counted

Leases are taken and given back in any order, and any of them may be given back again. A lease that
is given back again does nothing, also when its fingerprint is in use anew: a snapshot that comes
into use has a number that no other one ever had.

## Main definitions

* `LeaseEvent` — a lease is taken, or given back.
* `Leases.after` — what is in use after some events, with the leases that have not been given back.
* `Leases.Counts` — what is in use is what the leases are of.
* `Leases.Reached` — what may be in use.

## Main statements

* `Leases.counts_after` — after any events, what is in use is counted exactly.
-/

namespace Quill

/-- A lease is taken of a snapshot that was built, or the lease of a number is given back. -/
inductive LeaseEvent where
  | take (built : Snapshot)
  | release (id : Nat)

def Lease.fingerprint (a : Lease) : Text := a.snapshot.fingerprint

namespace Leases

def follow (p : Leases × List Lease) : LeaseEvent → Leases × List Lease
  | .take built => ((p.1.take built).1, p.2 ++ [(p.1.take built).2.1])
  | .release id => (p.1.release id, p.2.filter (·.id ≠ id))

/-- What is in use after some events, with the leases that have not been given back. -/
def after (events : List LeaseEvent) : Leases × List Lease := events.foldl follow ({}, [])

def ofFingerprint (held : List Lease) (fp : Text) : List Lease := held.filter (·.fingerprint = fp)

structure Counts (l : Leases) (held : List Lease) : Prop where
  /-- In use are the fingerprints of the leases, each once. -/
  used : ∀ fp, fp ∈ Dict.keys l.interned ↔ ∃ a ∈ held, a.fingerprint = fp
  once : (Dict.keys l.interned).Nodup
  /-- What is in use has as many leases as it says. -/
  counted : ∀ {fp i}, Dict.get? l.interned fp = some i → i.leases = (ofFingerprint held fp).length
  /-- A lease is of what is in use under its fingerprint. -/
  shared : ∀ a ∈ held, ∃ i, Dict.get? l.interned a.fingerprint = some i ∧
    a.snapshot = i.snapshot ∧ a.number = i.number
  /-- Leases of one fingerprint are of one instance, and others are not. -/
  instances : ∀ a ∈ held, ∀ b ∈ held, a.number = b.number ↔ a.fingerprint = b.fingerprint
  distinct : (held.map Lease.id).Nodup

def Reached (l : Leases) : Prop := ∃ events, (after events).1 = l

/-! ## One fingerprint -/

variable {l : Leases} {held : List Lease} {fp : Text} {id : Nat} {i : Interned} {a b : Lease}

theorem mem_ofFingerprint : a ∈ ofFingerprint held fp ↔ a ∈ held ∧ a.fingerprint = fp := by
  simp [ofFingerprint]

theorem ofFingerprint_append_self (h : a.fingerprint = fp) :
    ofFingerprint (held ++ [a]) fp = ofFingerprint held fp ++ [a] := by simp [ofFingerprint, h]

theorem ofFingerprint_append_of_ne (h : a.fingerprint ≠ fp) :
    ofFingerprint (held ++ [a]) fp = ofFingerprint held fp := by simp [ofFingerprint, h]

/-- When a lease is given back, the leases of other fingerprints stay. -/
theorem ofFingerprint_filter_of_ne (others : ∀ a ∈ held, a.id = id → a.fingerprint ≠ fp) :
    ofFingerprint (held.filter (·.id ≠ id)) fp = ofFingerprint held fp := by
  rw [ofFingerprint, List.filter_filter, ofFingerprint]
  refine List.filter_congr fun a ha => ?_
  by_cases same : a.id = id <;> simp [same, others a ha]

theorem length_ofFingerprint_filter (distinct : (held.map Lease.id).Nodup) (ha : a ∈ held) :
    (ofFingerprint (held.filter (·.id ≠ a.id)) a.fingerprint).length + 1 =
      (ofFingerprint held a.fingerprint).length := by
  obtain ⟨before, behind, rfl⟩ := List.append_of_mem ha
  have new : a.id ∉ (before ++ behind).map Lease.id := by
    rw [List.map_append]
    exact (List.nodup_cons.1 (List.nodup_middle.1 (by simpa using distinct))).1
  have apart : ∀ b ∈ before ++ behind, b.id ≠ a.id :=
    fun b hb same => new (List.mem_map.2 ⟨b, hb, same⟩)
  have kept : (before ++ a :: behind).filter (·.id ≠ a.id) = before ++ behind := by
    have := List.filter_eq_self.2 fun b hb => decide_eq_true (apart b hb)
    simpa [List.filter_append] using this
  rw [kept]
  simp [ofFingerprint, List.filter_append]
  omega

/-! ## What is in use -/

/-- What is in use is said of by the leases that are left, in full. -/
structure Sound (l : Leases) (held : List Lease) : Prop where
  live : l.live = held.map fun a => (a.id, a.fingerprint)
  distinct : (held.map Lease.id).Nodup
  taken : ∀ a ∈ held, a.id < l.nextLease
  once : (Dict.keys l.interned).Nodup
  entry : ∀ {fp i}, Dict.get? l.interned fp = some i → i.snapshot.fingerprint = fp ∧
    i.number < l.nextNumber ∧ 0 < i.leases ∧ i.leases = (ofFingerprint held fp).length
  shared : ∀ a ∈ held, ∃ i, Dict.get? l.interned a.fingerprint = some i ∧
    a.snapshot = i.snapshot ∧ a.number = i.number
  apart : ∀ {fp fp' i i'}, Dict.get? l.interned fp = some i → Dict.get? l.interned fp' = some i' →
    i.number = i'.number → fp = fp'

namespace Sound

theorem exists_held (h : l.Sound held) (found : Dict.get? l.interned fp = some i) :
    ∃ a ∈ held, a.fingerprint = fp := by
  obtain ⟨-, -, pos, count⟩ := h.entry found
  obtain ⟨a, ha⟩ := List.exists_mem_of_length_pos (count ▸ pos)
  exact ⟨a, mem_ofFingerprint.1 ha⟩

theorem counts (h : l.Sound held) : l.Counts held where
  used := by
    intro fp
    rw [Dict.mem_keys_iff, Dict.has, Option.isSome_iff_exists]
    constructor
    · rintro ⟨i, found⟩
      exact h.exists_held found
    · rintro ⟨a, ha, rfl⟩
      obtain ⟨i, found, -⟩ := h.shared a ha
      exact ⟨i, found⟩
  once := h.once
  counted := fun found => (h.entry found).2.2.2
  shared := h.shared
  instances := by
    intro a ha b hb
    obtain ⟨i, found, -, number⟩ := h.shared a ha
    obtain ⟨i', found', -, number'⟩ := h.shared b hb
    constructor
    · exact fun same => h.apart found found' (number ▸ number' ▸ same)
    · intro same
      obtain rfl : i = i' := Option.some.inj (found.symm.trans (same ▸ found'))
      rw [number, number']
  distinct := h.distinct

theorem empty : Sound {} [] := by
  constructor <;> simp [Dict.keys]

theorem not_live (h : l.Sound held) : Dict.has l.live l.nextLease = false := by
  rw [Dict.has_eq_false_iff, h.live, Dict.keys, List.map_map, List.mem_map]
  rintro ⟨a, ha, same⟩
  exact absurd (h.taken a ha) (Nat.not_lt.2 (Nat.le_of_eq same.symm))

/-- A lease is live until it is given back. -/
theorem get?_live_iff (h : l.Sound held) :
    Dict.get? l.live id = some fp ↔ ∃ a ∈ held, a.id = id ∧ a.fingerprint = fp := by
  have nodup : (Dict.keys l.live).Nodup := by
    simpa [h.live, Dict.keys, Function.comp_def] using h.distinct
  rw [Dict.get?_eq_some_iff nodup, h.live]
  simp

theorem lend (h : l.Sound held) {j : Interned} {next : Nat} (later : l.nextNumber ≤ next)
    (old : j.number < next)
    (count : j.leases = (ofFingerprint held j.snapshot.fingerprint).length + 1)
    (same : ∀ {i}, Dict.get? l.interned j.snapshot.fingerprint = some i →
      i.snapshot = j.snapshot ∧ i.number = j.number)
    (apart : ∀ {fp i}, Dict.get? l.interned fp = some i → i.number = j.number →
      fp = j.snapshot.fingerprint) :
    Sound { interned := Dict.put l.interned j.snapshot.fingerprint j
            live := Dict.put l.live l.nextLease j.snapshot.fingerprint
            nextNumber := next, nextLease := l.nextLease + 1 }
      (held ++ [⟨l.nextLease, j.snapshot, j.number⟩]) where
  live := by
    rw [Dict.put_of_not_has h.not_live, h.live, List.map_append]
    rfl
  distinct := by
    rw [List.map_append, List.nodup_append]
    refine ⟨h.distinct, List.pairwise_singleton .., fun n hn m hm eq => ?_⟩
    obtain ⟨b, hb, rfl⟩ := List.mem_map.1 hn
    obtain rfl : m = l.nextLease := by simpa using hm
    exact Nat.ne_of_lt (h.taken b hb) eq
  taken := by
    intro b hb
    rcases List.mem_append.1 hb with hb | hb
    · exact Nat.lt_succ_of_lt (h.taken b hb)
    · obtain rfl := List.mem_singleton.1 hb
      exact Nat.lt_succ_self _
  once := Dict.nodup_keys_put h.once ..
  entry := by
    intro fp i found
    rw [Dict.get?_put] at found
    split at found
    next eq =>
      obtain rfl := Option.some.inj found
      subst eq
      rw [ofFingerprint_append_self (by rfl), List.length_append]
      exact ⟨rfl, old, by omega, count⟩
    next other =>
      rw [ofFingerprint_append_of_ne (Ne.symm other)]
      obtain ⟨own, number, rest⟩ := h.entry found
      exact ⟨own, Nat.lt_of_lt_of_le number later, rest⟩
  shared := by
    intro a ha
    rw [Dict.get?_put]
    rcases List.mem_append.1 ha with ha | ha
    · obtain ⟨i, found, snapshot, number⟩ := h.shared a ha
      split
      next eq =>
        obtain ⟨snapshot', number'⟩ := same (eq ▸ found)
        exact ⟨j, rfl, snapshot.trans snapshot', number.trans number'⟩
      next => exact ⟨i, found, snapshot, number⟩
    · obtain rfl := List.mem_singleton.1 ha
      exact ⟨j, if_pos rfl, rfl, rfl⟩
  apart := by
    intro fp fp' i i' found found' eq
    rw [Dict.get?_put] at found found'
    split at found <;> split at found'
    next own own' => exact own.trans own'.symm
    next own _ =>
      obtain rfl := Option.some.inj found
      exact own.trans (apart found' eq.symm).symm
    next _ own =>
      obtain rfl := Option.some.inj found'
      exact (apart found eq).trans own.symm
    next => exact h.apart found found' eq

theorem take (h : l.Sound held) (built : Snapshot) :
    (l.take built).1.Sound (held ++ [(l.take built).2.1]) := by
  cases found : Dict.get? l.interned built.fingerprint with
  | some i =>
    obtain ⟨own, old, -, count⟩ := h.entry found
    have lent := h.lend (j := { i with leases := i.leases + 1 }) (Nat.le_refl _) old
      (by simp [own, count]) (fun found' => by
        obtain rfl := Option.some.inj (found.symm.trans (own ▸ found'))
        exact ⟨rfl, rfl⟩) (fun found' eq => (h.apart found' found eq).trans own.symm)
    simpa [Leases.take, found, own] using lent
  | none =>
    have new : ofFingerprint held built.fingerprint = [] := by
      refine List.filter_eq_nil_iff.2 fun a ha own => ?_
      obtain ⟨i, found', -⟩ := h.shared a ha
      simp [of_decide_eq_true own, found] at found'
    have lent := h.lend (j := ⟨built, l.nextNumber, 1⟩) (Nat.le_succ _) (Nat.lt_succ_self _)
      (by simp [new]) (fun found' => by simp [found] at found') fun found' eq =>
        absurd eq (Nat.ne_of_lt (h.entry found').2.1)
    simpa [Leases.take, found] using lent

/-- A lease less of what is in use, which goes out of use with its last one. -/
theorem giveBack (h : l.Sound held) (ha : a ∈ held)
    (found : Dict.get? l.interned a.fingerprint = some i) {interned : Dict Text Interned}
    (once : (Dict.keys interned).Nodup)
    (others : ∀ {fp}, fp ≠ a.fingerprint → Dict.get? interned fp = Dict.get? l.interned fp)
    (own : Dict.get? interned a.fingerprint =
      if i.leases ≤ 1 then none else some { i with leases := i.leases - 1 }) :
    Sound { l with interned, live := Dict.erase l.live a.id } (held.filter (·.id ≠ a.id)) := by
  have alone {b : Lease} (hb : b ∈ held) (same : b.id = a.id) : b = a :=
    List.inj_on_of_nodup_map h.distinct hb ha same
  have count := (h.entry found).2.2.2
  have fewer := length_ofFingerprint_filter h.distinct ha
  have entry {fp j} (hj : Dict.get? interned fp = some j) :
      (∃ j', Dict.get? l.interned fp = some j' ∧ j'.snapshot = j.snapshot ∧ j'.number = j.number) ∧
        0 < j.leases ∧ j.leases = (ofFingerprint (held.filter (·.id ≠ a.id)) fp).length := by
    by_cases eq : fp = a.fingerprint
    · subst eq
      rw [own] at hj
      split at hj
      · simp at hj
      · obtain rfl := Option.some.inj hj
        exact ⟨⟨i, found, rfl, rfl⟩, by dsimp only; omega, by dsimp only; omega⟩
    · rw [others eq] at hj
      rw [ofFingerprint_filter_of_ne fun b hb same => alone hb same ▸ Ne.symm eq]
      exact ⟨⟨j, hj, rfl, rfl⟩, (h.entry hj).2.2⟩
  constructor
  case live =>
    simp only [h.live, Dict.erase, List.filter_map]
    rfl
  case distinct => exact h.distinct.sublist (List.filter_sublist.map _)
  case taken => exact fun b hb => h.taken b (List.mem_filter.1 hb).1
  case once => exact once
  case entry =>
    intro fp j hj
    obtain ⟨⟨j', hj', snapshot, number⟩, counted⟩ := entry hj
    obtain ⟨name, old, -⟩ := h.entry hj'
    exact ⟨snapshot ▸ name, number ▸ old, counted⟩
  case shared =>
    intro b hb
    obtain ⟨hb, other⟩ := List.mem_filter.1 hb
    obtain ⟨j, hj, same⟩ := h.shared b hb
    by_cases eq : b.fingerprint = a.fingerprint
    · obtain rfl := Option.some.inj (found.symm.trans (eq ▸ hj))
      have left : b ∈ ofFingerprint (held.filter (·.id ≠ a.id)) a.fingerprint :=
        mem_ofFingerprint.2 ⟨List.mem_filter.2 ⟨hb, other⟩, eq⟩
      have := List.length_pos_of_mem left
      refine ⟨{ i with leases := i.leases - 1 }, ?_, same⟩
      rw [eq, own, if_neg (by omega)]
    · exact ⟨j, by rw [others eq, hj], same⟩
  case apart =>
    intro fp fp' j j' hj hj' eq
    obtain ⟨⟨k, hk, -, number⟩, -⟩ := entry hj
    obtain ⟨⟨k', hk', -, number'⟩, -⟩ := entry hj'
    exact h.apart hk hk' (number.trans (eq.trans number'.symm))

theorem release (h : l.Sound held) (id : Nat) :
    (l.release id).Sound (held.filter (·.id ≠ id)) := by
  cases live : Dict.get? l.live id with
  | none =>
    have others : held.filter (·.id ≠ id) = held := by
      refine List.filter_eq_self.2 fun a ha => decide_eq_true fun same => ?_
      simp [h.get?_live_iff.2 ⟨a, ha, same, rfl⟩] at live
    rwa [release_of_not_live l live, others]
  | some fp =>
    obtain ⟨a, ha, rfl, rfl⟩ := h.get?_live_iff.1 live
    obtain ⟨i, found, -⟩ := h.shared a ha
    simp only [Leases.release, live, found]
    split
    next last =>
      exact h.giveBack ha found (Dict.nodup_keys_erase h.once _)
        (fun other => Dict.get?_erase_of_ne _ other) (by simp [last])
    next more =>
      exact h.giveBack ha found (Dict.nodup_keys_put h.once ..)
        (fun other => Dict.get?_put_of_ne _ _ other) (by simp [more])

end Sound

/-! ## All events -/

theorem Sound.follow {p : Leases × List Lease} (h : p.1.Sound p.2) (event : LeaseEvent) :
    (Leases.follow p event).1.Sound (Leases.follow p event).2 := by
  cases event with
  | take built => exact h.take built
  | release id => exact h.release id

theorem sound_after (events : List LeaseEvent) : (after events).1.Sound (after events).2 :=
  List.foldlRecOn events follow (motive := fun p => p.1.Sound p.2) .empty fun _ h event _ =>
    h.follow event

/-- After any events, the snapshots in use are those of the leases that have not been given back,
each with the number of these. -/
theorem counts_after (events : List LeaseEvent) : (after events).1.Counts (after events).2 :=
  (sound_after events).counts

/-- What comes into use anew is another instance, and the old lease of its fingerprint does nothing
to it. -/
example : let s : Snapshot := ⟨.workspace, [], [], .default, "f"⟩
    (after [.take s, .release 0, .take s, .release 0]).1.interned =
      [(("f" : Text), (⟨s, 1, 1⟩ : Interned))] := by decide

namespace Reached

theorem empty : Reached {} := ⟨[], rfl⟩

theorem take (h : l.Reached) (built : Snapshot) : (l.take built).1.Reached := by
  obtain ⟨events, rfl⟩ := h
  exact ⟨events ++ [.take built], by simp [after, follow]⟩

theorem release (h : l.Reached) (id : Nat) : (l.release id).Reached := by
  obtain ⟨events, rfl⟩ := h
  exact ⟨events ++ [.release id], by simp [after, follow]⟩

theorem leftOf {l' : Leases} (left : l'.LeftOf l) (h : l.Reached) : l'.Reached := by
  induction left with
  | refl => exact h
  | release id _ ih => exact ih (h.release id)

/-- Where no lease is live, nothing is in use. -/
theorem size_eq_zero (h : l.Reached) (none : ∀ id, Dict.get? l.live id = none) : l.size = 0 := by
  obtain ⟨events, rfl⟩ := h
  have sound := sound_after events
  cases eq : (after events).1.interned with
  | nil => simp [size, eq]
  | cons e rest =>
    obtain ⟨a, ha, -⟩ := sound.counts.used e.1 |>.1 (by simp [eq, Dict.keys])
    have live := sound.get?_live_iff.2 ⟨a, ha, rfl, rfl⟩
    simp [none] at live

end Reached

/-! ## Live leases -/

@[simp] theorem get?_live_release_self (l : Leases) (id : Nat) :
    Dict.get? (l.release id).live id = none := by
  unfold release
  split
  next none => exact none
  next => split <;> (try split) <;> exact Dict.get?_erase_self ..

/-- Giving a lease back brings no lease up. -/
theorem live_of_release {n : Nat} (live : Dict.get? (l.release n).live id = some fp) :
    Dict.get? l.live id = some fp := by
  by_cases same : id = n
  · simp [same] at live
  · unfold release at live
    split at live
    next => exact live
    next =>
      have kept : Dict.get? (Dict.erase l.live n) id = some fp := by
        split at live
        · exact live
        · split at live <;> exact live
      rwa [Dict.get?_erase_of_ne _ same] at kept

theorem LeftOf.live {l' : Leases} (left : l'.LeftOf l) (live : Dict.get? l'.live id = some fp) :
    Dict.get? l.live id = some fp := by
  induction left with
  | refl => exact live
  | release n _ ih => exact live_of_release ih

theorem live_take (l : Leases) (built : Snapshot) :
    (l.take built).1.live = Dict.put l.live l.nextLease built.fingerprint := by
  simp only [take]
  split <;> rfl

theorem id_take (l : Leases) (built : Snapshot) : (l.take built).2.1.id = l.nextLease := by
  simp only [take]
  split <;> rfl

/-- Only the lease that is taken comes up. -/
theorem live_of_take {built : Snapshot} (live : Dict.get? (l.take built).1.live id = some fp) :
    id = (l.take built).2.1.id ∨ Dict.get? l.live id = some fp := by
  rw [live_take, Dict.get?_put] at live
  split at live
  next same => exact .inl (same.trans (id_take l built).symm)
  next => exact .inr live

end Leases

end Quill
