import Mathlib.Data.List.Nodup
import Quill.Proofs.Data.Dict
import Quill.Proofs.Number.Rounding
import Quill.Value.Basic

/-!
# Values as data

What two values of a data format have in common when they are equal as data: numbers are their
values, and an object is what stands under each of its names, in whatever order its fields are kept.

## Main definitions

* `Value.IsPlain` — a value that a data format has: objects with distinct names, finite numbers.
* `Meaning`, `Value.meaning` — the value as data.
-/

namespace Quill

/-- A value as data. An object is what stands under each name, so it has no order of fields. -/
inductive Meaning where
  | null
  | bool (b : Bool)
  | number (value : ℚ)
  | text (t : Text)
  | array (items : List Meaning)
  | object (field : Text → Option Meaning)

namespace Value

/-- Whether a value is built from null, Booleans, finite numbers, texts, arrays, and objects that
have no name twice. -/
inductive IsPlain : Value → Prop
  | null : IsPlain .null
  | bool (b : Bool) : IsPlain (.bool b)
  | number {n : Number} (double : n.IsDouble) : IsPlain (.number n)
  | text (t : Text) : IsPlain (.text t)
  | array {xs : List Value} (items : ∀ x ∈ xs, IsPlain x) : IsPlain (.array xs)
  | object {fields : List (Text × Value)} (distinct : (Dict.keys fields).Nodup)
      (values : ∀ f ∈ fields, IsPlain f.2) : IsPlain (.object fields)

/-- An integer that a number can hold is plain data. -/
theorem isPlain_int {k : ℤ} (exact : (Number.ofInt k).toInt? = some k) : (Value.int k).IsPlain := by
  refine .number (Number.isDouble_ofRatio _ _ Nat.one_pos ?_)
  show (Number.ofInt k).isFinite
  match Number.ofInt k, exact with
  | .finite .., _ => rfl

mutual
/-- The value as data; what no data format has counts as null. -/
def meaning : Value → Meaning
  | .bool b => .bool b
  | .number n => .number n.toRat
  | .text t => .text t
  | .array xs => .array (meaningItems xs)
  | .object fields => .object (meaningField fields)
  | _ => .null

def meaningItems : List Value → List Meaning
  | [] => []
  | x :: xs => meaning x :: meaningItems xs

def meaningField : List (Text × Value) → Text → Option Meaning
  | [], _ => none
  | (k, v) :: rest, name => if k = name then some (meaning v) else meaningField rest name
end

theorem meaningItems_eq (xs : List Value) : meaningItems xs = xs.map meaning := by
  induction xs with
  | nil => rfl
  | cons x xs ih => rw [meaningItems, ih, List.map_cons]

theorem meaningField_eq (fields : List (Text × Value)) (name : Text) :
    meaningField fields name = (Dict.get? fields name).map meaning := by
  induction fields with
  | nil => rfl
  | cons f rest ih =>
    obtain ⟨k, v⟩ := f
    rw [meaningField, Dict.get?, ih]
    split <;> rfl

def meaningFields (fields : List (Text × Value)) : Dict Text Meaning :=
  fields.map fun f => (f.1, f.2.meaning)

theorem get?_meaningFields (fields : List (Text × Value)) (name : Text) :
    Dict.get? (meaningFields fields) name = meaningField fields name := by
  rw [meaningFields, Dict.get?_map fun f : Text × Value => f.2.meaning, meaningField_eq]

theorem keys_meaningFields (fields : List (Text × Value)) :
    Dict.keys (meaningFields fields) = Dict.keys fields := by
  simp [meaningFields, Dict.keys]

/-- Objects with the same fields as data are the same data. -/
theorem meaning_object_eq {fields others : List (Text × Value)}
    (eq : meaningFields fields = meaningFields others) :
    (Value.object fields).meaning = (Value.object others).meaning := by
  rw [meaning, meaning]
  congr 1
  funext name
  rw [← get?_meaningFields, eq, get?_meaningFields]

/-- Objects with the same names in the same order are the same data exactly when their fields
are. -/
theorem meaning_object_eq_iff {fields others : List (Text × Value)}
    (names : Dict.keys fields = Dict.keys others) (distinct : (Dict.keys fields).Nodup) :
    (Value.object fields).meaning = (Value.object others).meaning ↔
      meaningFields fields = meaningFields others := by
  refine ⟨fun eq => ?_, meaning_object_eq⟩
  simp only [meaning, Meaning.object.injEq] at eq
  refine Dict.eq_of_get?_eq ?_ ?_ fun name => ?_
  · rw [keys_meaningFields, keys_meaningFields, names]
  · rwa [keys_meaningFields]
  · rw [get?_meaningFields, get?_meaningFields, eq]

theorem keys_record (fields : List (String × Value)) :
    Dict.keys (fields.map fun f => (Text.ofString f.1, f.2)) =
      (fields.map Prod.fst).map Text.ofString := by
  simp [Dict.keys]

theorem isPlain_record {fields : List (String × Value)}
    (distinct : ((fields.map Prod.fst).map Text.ofString).Nodup)
    (values : ∀ f ∈ fields, f.2.IsPlain) :
    (record fields).IsPlain := by
  refine .object (by rwa [keys_record]) fun f hf => ?_
  obtain ⟨g, hg, rfl⟩ := List.mem_map.1 hf
  exact values g hg

/-- Records with the same names are the same data exactly when their values are. -/
theorem meaning_record_eq_iff {fields others : List (String × Value)}
    (names : fields.map Prod.fst = others.map Prod.fst)
    (distinct : ((fields.map Prod.fst).map Text.ofString).Nodup) :
    (record fields).meaning = (record others).meaning ↔
      fields.map (fun f => f.2.meaning) = others.map (fun f => f.2.meaning) := by
  rw [record, record, meaning_object_eq_iff (by rw [keys_record, keys_record, names])
    (by rwa [keys_record]), meaningFields, meaningFields, List.map_map, List.map_map]
  constructor
  · intro eq
    simpa [Function.comp_def] using congrArg (List.map Prod.snd) eq
  · intro eq
    clear distinct
    induction fields generalizing others with
    | nil => rw [List.map_nil, eq_comm, List.map_eq_nil_iff] at names; rw [names]
    | cons f fields ih =>
      cases others with
      | nil => simp at names
      | cons g others =>
        obtain ⟨name, names⟩ := List.cons.inj names
        obtain ⟨value, values⟩ := List.cons.inj eq
        have value : f.2.meaning = g.2.meaning := value
        rw [List.map_cons, List.map_cons, ih names values, Function.comp_apply, Function.comp_apply,
          name, value]

/-- The order of the fields is no part of an object. -/
theorem meaning_object_of_perm {fields others : List (Text × Value)}
    (distinct : (Dict.keys fields).Nodup) (perm : fields.Perm others) :
    (Value.object fields).meaning = (Value.object others).meaning := by
  have distinct' : (Dict.keys others).Nodup := (perm.map Prod.fst).nodup_iff.1 distinct
  rw [meaning, meaning]
  congr 1
  funext name
  rw [meaningField_eq, meaningField_eq]
  congr 1
  ext v
  rw [Dict.get?_eq_some_iff distinct, Dict.get?_eq_some_iff distinct', perm.mem_iff]

/-- Names that are array positions come first; that changes the order of the fields only. -/
theorem meaning_ofFields {fields : List (Text × Value)} (distinct : (Dict.keys fields).Nodup) :
    (ofFields fields).meaning = (Value.object fields).meaning := by
  simp only [ofFields, Dict.ofList_eq_self distinct, List.partition_eq_filter_filter]
  refine (meaning_object_of_perm distinct (List.Perm.symm ?_)).symm
  exact ((sortBy_perm _ _).append_right _).trans (List.filter_append_perm _ fields)

end Value

end Quill
