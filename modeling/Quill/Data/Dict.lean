/-!
# Dictionaries in order of insertion

A dictionary keeps its entries in the order in which their keys first came in. Writing to a key
that is present leaves it where it is; a key that was erased and comes back goes to the end.

## Main definitions

* `Dict` — a list of pairs.
* `Dict.get?`, `Dict.has`, `Dict.put`, `Dict.erase` — look up, test, write, remove.
* `Dict.ofList` — later pairs of one key win over earlier ones.
-/

namespace Quill

/-- Entries in the order in which their keys came in. -/
abbrev Dict (κ α : Type) := List (κ × α)

namespace Dict

variable {κ α : Type} [DecidableEq κ]

def get? (d : Dict κ α) (k : κ) : Option α :=
  match d with
  | [] => none
  | (key, value) :: rest => if key = k then some value else get? rest k

def has (d : Dict κ α) (k : κ) : Bool := (get? d k).isSome

def put (d : Dict κ α) (k : κ) (v : α) : Dict κ α :=
  match d with
  | [] => [(k, v)]
  | (key, value) :: rest => if key = k then (k, v) :: rest else (key, value) :: put rest k v

def erase (d : Dict κ α) (k : κ) : Dict κ α := d.filter fun e => e.1 ≠ k

def ofList (pairs : List (κ × α)) : Dict κ α := pairs.foldl (fun d e => put d e.1 e.2) []

def keys (d : Dict κ α) : List κ := d.map Prod.fst

def values (d : Dict κ α) : List α := d.map Prod.snd

@[simp] theorem get?_nil (k : κ) : get? ([] : Dict κ α) k = none := rfl

@[simp] theorem get?_put_self (d : Dict κ α) (k : κ) (v : α) : get? (put d k v) k = some v := by
  induction d with
  | nil => simp [put, get?]
  | cons e rest ih => rw [put]; split <;> simp_all [get?]

theorem get?_put_of_ne (d : Dict κ α) {k k' : κ} (v : α) (h : k' ≠ k) :
    get? (put d k v) k' = get? d k' := by
  induction d with
  | nil => simp [put, get?, Ne.symm h]
  | cons e rest ih => rw [put]; split <;> simp_all [get?, Ne.symm h]

theorem get?_put (d : Dict κ α) (k k' : κ) (v : α) :
    get? (put d k v) k' = if k' = k then some v else get? d k' := by
  split
  next h => subst h; simp
  next h => exact get?_put_of_ne d v h

@[simp] theorem get?_erase_self (d : Dict κ α) (k : κ) : get? (erase d k) k = none := by
  induction d with
  | nil => rfl
  | cons e rest ih =>
    by_cases h : e.1 = k <;> simp_all [erase, get?]

theorem get?_erase_of_ne (d : Dict κ α) {k k' : κ} (h : k' ≠ k) :
    get? (erase d k) k' = get? d k' := by
  induction d with
  | nil => rfl
  | cons e rest ih =>
    obtain ⟨key, value⟩ := e
    by_cases hk : key = k
    · subst hk
      simp only [erase, ne_eq, decide_not, get?, Ne.symm h, if_false] at *
      simpa using ih
    · by_cases hk' : key = k' <;> simp_all [erase, get?]

theorem mem_keys_iff {d : Dict κ α} {k : κ} : k ∈ keys d ↔ has d k := by
  induction d with
  | nil => simp [keys, has]
  | cons e rest ih =>
    obtain ⟨key, value⟩ := e
    by_cases h : key = k
    · simp [keys, has, get?, h]
    · simpa [keys, has, get?, h, Ne.symm h] using ih

/-- Writing a new key puts it last. -/
theorem keys_put_of_not_has (d : Dict κ α) {k : κ} (v : α) (h : has d k = false) :
    keys (put d k v) = keys d ++ [k] := by
  induction d with
  | nil => rfl
  | cons e rest ih =>
    obtain ⟨key, value⟩ := e
    by_cases hk : key = k
    · simp [has, get?, hk] at h
    · simp_all [keys, has, get?, put]

/-- Writing a key that is present changes no key. -/
theorem keys_put_of_has (d : Dict κ α) {k : κ} (v : α) (h : has d k) :
    keys (put d k v) = keys d := by
  induction d with
  | nil => simp [has] at h
  | cons e rest ih =>
    obtain ⟨key, value⟩ := e
    by_cases hk : key = k
    · simp [keys, put, hk]
    · simp_all [keys, has, get?, put]

theorem get?_eq_some_split {d : Dict κ α} {k : κ} {v : α} (h : get? d k = some v) :
    ∃ before behind, d = before ++ (k, v) :: behind ∧ ∀ e ∈ before, e.1 ≠ k := by
  induction d with
  | nil => simp at h
  | cons e rest ih =>
    obtain ⟨key, value⟩ := e
    by_cases hk : key = k
    · obtain rfl : value = v := by simpa [get?, hk] using h
      exact ⟨[], rest, by rw [hk]; rfl, by simp⟩
    · obtain ⟨before, behind, rfl, first⟩ := ih (by simpa [get?, hk] using h)
      exact ⟨(key, value) :: before, behind, rfl, by simpa [hk] using first⟩

theorem get?_append (a b : Dict κ α) (k : κ) : get? (a ++ b) k = (get? a k).or (get? b k) := by
  induction a with
  | nil => rfl
  | cons e rest ih =>
    obtain ⟨key, value⟩ := e
    by_cases hk : key = k <;> simp [get?, hk, ih]

/-- How many values meet a test after one was written depends on that one and on what it
replaced. -/
theorem countP_put (d : Dict κ α) (k : κ) (v : α) (p : α → Bool) :
    (put d k v).countP (fun e => p e.2) + (if (get? d k).any p then 1 else 0) =
      d.countP (fun e => p e.2) + if p v then 1 else 0 := by
  induction d with
  | nil => simp [put]
  | cons e rest ih =>
    obtain ⟨key, value⟩ := e
    by_cases hk : key = k
    · simp [put, get?, hk, List.countP_cons]
      omega
    · simp [put, get?, hk, List.countP_cons]
      omega

end Dict

end Quill
