import Quill.Data.Dict

/-!
# Dictionaries without repetitions

A list of pairs is a dictionary if no key comes twice. Then every pair is the one that is found
under its key, and making the dictionary again changes nothing.

## Main statements

* `Dict.get?_eq_some_iff` — what is found are the pairs.
* `Dict.mem_keys_ofList`, `Dict.nodup_keys_ofList` — what is written pair by pair has the keys that
  were written, once.
* `Dict.ofList_eq_self` — pairs without repetitions are a dictionary.
* `Dict.get?_eq_of_perm`, `Dict.put_perm` — other orders of the same pairs.
* `Dict.get?_map`, `Dict.put_map` — other values under the same keys.
-/

namespace Quill.Dict

variable {κ α β : Type} [DecidableEq κ] {d : Dict κ α} {k : κ} {v : α} {e : κ × α}

theorem mem_put (h : e ∈ put d k v) : e = (k, v) ∨ e ∈ d := by
  induction d with
  | nil => exact .inl (by simpa [put] using h)
  | cons f rest ih =>
    unfold put at h
    split at h
    · exact (List.mem_cons.1 h).imp_right (List.mem_cons_of_mem _)
    · rcases List.mem_cons.1 h with rfl | h
      · exact .inr List.mem_cons_self
      · exact (ih h).imp_right (List.mem_cons_of_mem _)

/-- What is written under another key stays there. -/
theorem mem_put_of_ne (mem : e ∈ d) (other : e.1 ≠ k) : e ∈ put d k v := by
  induction d with
  | nil => simp at mem
  | cons f rest ih =>
    unfold put
    rcases List.mem_cons.1 mem with rfl | mem
    · simp [other]
    · split
      · exact List.mem_cons_of_mem _ mem
      · exact List.mem_cons_of_mem _ (ih mem)

theorem mem_put_self (d : Dict κ α) (k : κ) (v : α) : (k, v) ∈ put d k v := by
  induction d with
  | nil => simp [put]
  | cons f rest ih =>
    unfold put
    split
    · exact List.mem_cons_self
    · exact List.mem_cons_of_mem _ ih

theorem has_put (d : Dict κ α) (k k' : κ) (v : α) : has (put d k v) k' ↔ k' = k ∨ has d k' := by
  simp only [has, get?_put]
  split <;> simp_all

/-- Writing in the place of a value that a function does not tell apart changes no value of it. -/
theorem map_put_of_eq (f : α → β) {v' : α} (found : get? d k = some v) (same : f v' = f v) :
    (put d k v').map (fun e => f e.2) = d.map fun e => f e.2 := by
  induction d with
  | nil => simp at found
  | cons e rest ih =>
    obtain ⟨key, value⟩ := e
    by_cases own : key = k
    · obtain rfl : value = v := by simpa [get?, own] using found
      simp [put, own, same]
    · simpa [put, own] using ih (by simpa [get?, own] using found)

theorem put_of_not_has (new : has d k = false) (v : α) : put d k v = d ++ [(k, v)] := by
  induction d with
  | nil => rfl
  | cons e rest ih =>
    obtain ⟨key, value⟩ := e
    by_cases own : key = k
    · simp [has, get?, own] at new
    · simpa [put, own] using ih (by simpa [has, get?, own] using new)

theorem nodup_keys_put (nodup : (keys d).Nodup) (k : κ) (v : α) : (keys (put d k v)).Nodup := by
  cases found : has d k with
  | true => rwa [keys_put_of_has d v found]
  | false =>
    rw [keys_put_of_not_has d v found]
    refine List.nodup_append.2 ⟨nodup, List.pairwise_singleton _ k, fun a ha b hb => ?_⟩
    rintro rfl
    obtain rfl := List.mem_singleton.1 hb
    simp [mem_keys_iff, found] at ha

/-- In a dictionary without repetitions every entry is the one that is found. -/
theorem get?_eq_some_iff (nodup : (keys d).Nodup) : get? d k = some v ↔ (k, v) ∈ d := by
  induction d with
  | nil => simp
  | cons f rest ih =>
    obtain ⟨key, value⟩ := f
    obtain ⟨new, nodup⟩ := List.nodup_cons.1 nodup
    simp only [get?, List.mem_cons, Prod.mk.injEq]
    split
    next eq =>
      subst eq
      have none : (key, v) ∉ rest := fun mem => new (List.mem_map.2 ⟨_, mem, rfl⟩)
      simp [none, eq_comm]
    next ne => simp [ih nodup, Ne.symm ne]

/-- Dictionaries with the same keys in the same order and the same values are equal. -/
theorem eq_of_get?_eq {d' : Dict κ α} (same : keys d = keys d') (nodup : (keys d).Nodup)
    (eq : ∀ k, get? d k = get? d' k) : d = d' := by
  induction d generalizing d' with
  | nil => exact (List.map_eq_nil_iff.1 same.symm).symm
  | cons e rest ih =>
    cases d' with
    | nil => simp [keys] at same
    | cons e' rest' =>
      obtain ⟨key, value⟩ := e
      obtain ⟨key', value'⟩ := e'
      obtain ⟨rfl, later⟩ := List.cons.inj same
      obtain ⟨new, nodup⟩ := List.nodup_cons.1 nodup
      have new' : key ∉ keys rest' := fun mem => new ((congrArg (key ∈ ·) later).mpr mem)
      obtain rfl : value = value' := by simpa [get?] using eq key
      rw [ih later nodup fun k => ?_]
      by_cases own : key = k
      · subst own
        rw [Option.not_isSome_iff_eq_none.1 fun there => new (mem_keys_iff.2 there),
          Option.not_isSome_iff_eq_none.1 fun there => new' (mem_keys_iff.2 there)]
      · simpa [get?, own] using eq k

theorem mem_keys_put (d : Dict κ α) (k k' : κ) (v : α) :
    k' ∈ keys (put d k v) ↔ k' = k ∨ k' ∈ keys d := by
  rw [mem_keys_iff, mem_keys_iff, has_put]

/-- What is written pair by pair has the keys that were written. -/
theorem mem_keys_ofList (pairs : List (κ × α)) : k ∈ keys (ofList pairs) ↔ k ∈ keys pairs := by
  have all : ∀ d : Dict κ α, k ∈ keys (pairs.foldl (fun d e => put d e.1 e.2) d) ↔ k ∈ keys d ∨
      k ∈ keys pairs := by
    induction pairs with
    | nil => simp [keys]
    | cons e rest ih =>
      intro d
      rw [List.foldl_cons, ih, mem_keys_put, keys, keys, keys, List.map_cons, List.mem_cons,
        or_assoc, or_left_comm]
  exact (all []).trans (or_iff_right (by simp [keys]))

theorem nodup_keys_ofList (pairs : List (κ × α)) : (keys (ofList pairs)).Nodup := by
  refine List.foldlRecOn pairs _ (motive := fun d => (keys d).Nodup) (by simp [keys]) ?_
  exact fun _ nodup e _ => nodup_keys_put nodup e.1 e.2

/-- Pairs without repetitions are a dictionary. -/
theorem ofList_eq_self {pairs : List (κ × α)} (nodup : (keys pairs).Nodup) :
    ofList pairs = pairs := by
  have more : ∀ {acc : Dict κ α}, (keys (acc ++ pairs)).Nodup →
      pairs.foldl (fun d e => put d e.1 e.2) acc = acc ++ pairs := by
    clear nodup
    induction pairs with
    | nil => simp
    | cons e rest ih =>
      intro acc nodup
      have new : has acc e.1 = false := by
        refine Bool.eq_false_iff.2 fun there => ?_
        simp only [keys, List.map_append, List.map_cons] at nodup
        exact (List.nodup_append.1 nodup).2.2 e.1 (mem_keys_iff.2 there) e.1 (by simp) rfl
      rw [List.foldl_cons, put_of_not_has new, ih (by simpa using nodup), List.append_assoc]
      rfl
  exact more (by simpa using nodup)

theorem has_eq_false_iff : has d k = false ↔ k ∉ keys d := by simp [mem_keys_iff]

theorem nodup_keys_erase (nodup : (keys d).Nodup) (k : κ) : (keys (erase d k)).Nodup :=
  nodup.sublist (List.filter_sublist.map _)

/-- Removing what is not there changes nothing. -/
theorem erase_eq_self (new : k ∉ keys d) : erase d k = d := by
  refine List.filter_eq_self.2 fun e mem => ?_
  simpa using fun same : e.1 = k => new (List.mem_map.2 ⟨e, mem, same⟩)

/-! ## Sums over the values -/

/-- What the values come to when each of them counts for a number. -/
def sumOf (f : α → Int) (d : Dict κ α) : Int := d.foldr (fun e n => f e.2 + n) 0

omit [DecidableEq κ] in
@[simp] theorem sumOf_nil (f : α → Int) : sumOf f ([] : Dict κ α) = 0 := rfl

omit [DecidableEq κ] in
@[simp] theorem sumOf_cons (f : α → Int) (e : κ × α) (d : Dict κ α) :
    sumOf f (e :: d) = f e.2 + sumOf f d := rfl

/-- A value that is written counts in place of the one that was there. -/
theorem sumOf_put (f : α → Int) (d : Dict κ α) (k : κ) (v : α) :
    sumOf f (put d k v) + ((get? d k).map f).getD 0 = sumOf f d + f v := by
  induction d with
  | nil => simp [put]
  | cons e rest ih =>
    obtain ⟨key, value⟩ := e
    by_cases own : key = k
    · simp [put, get?, own]
      omega
    · simp [put, get?, own]
      omega

/-- What is removed counts no more. -/
theorem sumOf_erase (f : α → Int) (nodup : (keys d).Nodup) (k : κ) :
    sumOf f (erase d k) + ((get? d k).map f).getD 0 = sumOf f d := by
  induction d with
  | nil => simp [erase]
  | cons e rest ih =>
    obtain ⟨key, value⟩ := e
    obtain ⟨new, nodup⟩ := List.nodup_cons.1 nodup
    by_cases own : key = k
    · subst own
      rw [show erase ((key, value) :: rest) key = erase rest key by simp [erase], erase_eq_self new]
      simp [get?]
      omega
    · have kept : erase ((key, value) :: rest) k = (key, value) :: erase rest k := by
        simp [erase, own]
      have := ih nodup
      simp [kept, get?, own]
      omega

omit [DecidableEq κ] in
theorem sumOf_perm (f : α → Int) {d' : Dict κ α} (perm : d.Perm d') : sumOf f d = sumOf f d' := by
  induction perm with
  | nil => rfl
  | cons e _ ih => simp [ih]
  | swap e e' d => simp [← Int.add_assoc, Int.add_comm (f e.2)]
  | trans _ _ ih ih' => exact ih.trans ih'

omit [DecidableEq κ] in
/-! ## Other orders -/

/-- In another order the same is found. -/
theorem get?_eq_of_perm {d' : Dict κ α} (nodup : (keys d).Nodup) (perm : d.Perm d') (k : κ) :
    get? d k = get? d' k := by
  have nodup' : (keys d').Nodup := (perm.map _).nodup_iff.1 nodup
  refine Option.ext fun v => ?_
  rw [get?_eq_some_iff nodup, get?_eq_some_iff nodup', perm.mem_iff]

/-- What is written might as well come last. -/
theorem put_perm (nodup : (keys d).Nodup) (k : κ) (v : α) :
    (put d k v).Perm (erase d k ++ [(k, v)]) := by
  induction d with
  | nil => exact .refl _
  | cons e rest ih =>
    obtain ⟨key, value⟩ := e
    obtain ⟨new, nodup⟩ := List.nodup_cons.1 nodup
    by_cases own : key = k
    · subst own
      rw [show erase ((key, value) :: rest) key = erase rest key by simp [erase], erase_eq_self new]
      simpa [put] using (List.perm_append_singleton (key, v) rest).symm
    · rw [show erase ((key, value) :: rest) k = (key, value) :: erase rest k by simp [erase, own]]
      simpa [put, own] using ih nodup

/-! ## Other values under the same keys -/

theorem get?_map (f : κ × α → β) (d : Dict κ α) (k : κ) :
    get? (d.map fun e => (e.1, f e)) k = (get? d k).map fun v => f (k, v) := by
  induction d with
  | nil => rfl
  | cons e rest ih =>
    obtain ⟨key, value⟩ := e
    simp only [List.map_cons, get?, ih]
    split
    next eq => rw [eq, Option.map_some]
    next => rfl

theorem put_map (f : α → β) (d : Dict κ α) (k : κ) (v : α) :
    put (d.map fun e => (e.1, f e.2)) k (f v) = (put d k v).map fun e => (e.1, f e.2) := by
  induction d with
  | nil => rfl
  | cons e rest ih =>
    simp only [List.map_cons, put, ih]
    split <;> rfl

/-- A value that is made of each key. -/
theorem get?_ofKeys (f : κ → α) (ks : List κ) (k : κ) :
    get? (ks.map fun k => (k, f k)) k = if k ∈ ks then some (f k) else none := by
  induction ks with
  | nil => rfl
  | cons key rest ih =>
    simp only [List.map_cons, get?, ih, List.mem_cons]
    by_cases eq : key = k
    · simp [eq]
    · simp [eq, Ne.symm eq]

end Quill.Dict
