import Quill.Proofs.Number.Rounding
import Quill.Proofs.Value.Meaning
import Quill.Server.Settings

/-!
# Configurations carried by patches

A configuration that came of settings can be carried by a patch: its numbers are doubles again, and
none of its fields is one that a patch would refuse. Whatever it is applied to, the result is the
carried configuration.

## Main definitions

* `Carries` — a number that a patch carries to a field with a least value.
* `EngineConfig.IsCarried` — a configuration that a patch carries.
* `ConfigPatch.IsDouble` — a patch whose numbers are doubles.

## Main statements

* `EngineConfig.patch_toPatch` — the configuration that a patch carries replaces any other one.
* `EngineConfig.isCarried_patch` — patches of doubles lead from carried configurations to carried
  ones.
-/

namespace Quill

/-! ## Numbers -/

/-- A number comes through a patch to a field that refuses less than `least`. -/
structure Carries (least k : ℕ) : Prop where
  le : least ≤ k
  exact : (Number.ofNat k).floor? = some (k : ℤ)

def ConfigPatch.numbers (p : ConfigPatch) : List Number :=
  [p.debounceMs, p.maxWorkers, p.maxRestarts, p.backgroundBudgetMs, p.cache.join,
    p.formatter.bind FormatterPatch.printWidth].flatMap Option.toList

def ConfigPatch.IsDouble (p : ConfigPatch) : Prop := ∀ n ∈ p.numbers, n.IsDouble

namespace EngineConfig

variable {c d : EngineConfig} {p : ConfigPatch} {n : Option Number} {least old k : ℕ}

theorem takeNat_ofNat (carries : Carries least k) (old : ℕ) :
    takeNat (some (.ofNat k)) old least = k := by
  rw [takeNat, Option.bind_some, carries.exact]
  exact if_pos carries.le

theorem carries_takeNat (double : ∀ x ∈ n, x.IsDouble) (carries : Carries least old) :
    Carries least (takeNat n old least) := by
  refine ⟨le_takeNat n carries.le, ?_⟩
  unfold takeNat
  split
  next k eq =>
    split
    · obtain ⟨x, rfl, floor⟩ := Option.bind_eq_some_iff.1 eq
      exact Number.floor?_ofNat (double x rfl) floor
    · exact carries.exact
  next => exact carries.exact

theorem takeText_eq {t : Text} (ne : t ≠ []) (old : Text) : takeText (some t) old = t := by
  cases t with
  | nil => exact absurd rfl ne
  | cons => rfl

theorem takeText_ne_nil {t : Option Text} {old : Text} (ne : old ≠ []) : takeText t old ≠ [] := by
  unfold takeText
  split
  · exact List.cons_ne_nil _ _
  · exact ne

/-! ## Configurations -/

/-- A patch carries every field of the configuration. -/
structure IsCarried (c : EngineConfig) : Prop where
  debounceMs : Carries 0 c.debounceMs
  maxWorkers : Carries 1 c.limits.maxWorkers
  maxRestarts : Carries 0 c.limits.maxRestarts
  backgroundBudgetMs : Carries 0 c.limits.backgroundBudgetMs
  maxWeight : Carries 1 c.maxWeight
  fontRevision : c.compile.fontRevision ≠ []
  printWidth : Carries 1 c.printWidth

theorem isCarried_default : default.IsCarried := by
  have carries {least : ℕ} (k : ℕ) (le : least ≤ k)
      (small : (Number.ofNat k).floor? = some (k : ℤ)) :
      Carries least k := ⟨le, small⟩
  exact ⟨carries 150 (by decide) (by decide +kernel), carries 2 (by decide) (by decide +kernel),
    carries 2 (by decide) (by decide +kernel), carries 500 (by decide) (by decide +kernel),
    carries 512 (by decide) (by decide +kernel), by
      decide, carries 80 (by decide) (by decide +kernel)⟩

theorem isCarried_patch (carried : c.IsCarried) (double : p.IsDouble) : (c.patch p).IsCarried := by
  have each {n : Option Number}
      (mem : n ∈ [p.debounceMs, p.maxWorkers, p.maxRestarts, p.backgroundBudgetMs,
      p.cache.join, p.formatter.bind FormatterPatch.printWidth]) : ∀ x ∈ n,
        x.IsDouble := fun x inside =>
    double x (List.mem_flatMap.2 ⟨n, mem, Option.mem_toList.2 inside⟩)
  exact ⟨carries_takeNat (each (by simp)) carried.debounceMs,
    carries_takeNat (each (by simp)) carried.maxWorkers,
    carries_takeNat (each (by simp)) carried.maxRestarts,
    carries_takeNat (each (by simp)) carried.backgroundBudgetMs,
    carries_takeNat (each (by simp)) carried.maxWeight, takeText_ne_nil carried.fontRevision,
    carries_takeNat (each (by simp)) carried.printWidth⟩

/-- A carried configuration replaces any other one. -/
theorem patch_toPatch (carried : d.IsCarried) (c : EngineConfig) : c.patch d.toPatch = d := by
  obtain ⟨debounceMs, maxWorkers, maxRestarts, backgroundBudgetMs, maxWeight, fontRevision,
    printWidth⟩ := carried
  simp only [patch, toPatch, Option.join_some, Option.bind_some, Option.getD_some,
    takeNat_ofNat debounceMs,
    takeNat_ofNat maxWorkers, takeNat_ofNat maxRestarts, takeNat_ofNat backgroundBudgetMs,
    takeNat_ofNat maxWeight, takeText_eq fontRevision, takeNat_ofNat printWidth]

end EngineConfig

/-! ## Settings -/

namespace Value

variable {v : Value} {n : Number}

/-- What stands under a key of plain data is plain data, if it is there. -/
theorem isPlain_field (plain : v.IsPlain ∨ v = .undefined) (key : Text) :
    (v.field key).IsPlain ∨ v.field key = .undefined := by
  unfold field field?
  split
  next fields =>
    cases found : Dict.get? fields key with
    | none => exact .inr rfl
    | some w =>
      obtain plain | eq := plain
      · cases plain with
        | object distinct values => exact .inl (values _ ((Dict.get?_eq_some_iff distinct).1 found))
      · exact absurd eq (by simp)
  next => exact .inr rfl

theorem isDouble_of_number? (plain : v.IsPlain ∨ v = .undefined) (mem : n ∈ ConfigPatch.number? v) :
    n.IsDouble := by
  obtain ⟨eq, -⟩ := Option.filter_eq_some_iff.1 (Option.mem_def.1 mem)
  obtain plain | rfl := plain
  · cases plain with
    | number double =>
      obtain rfl := Option.some.inj eq
      exact double
    | _ => exact absurd eq (by simp [number?])
  · simp [number?] at eq

end Value

theorem Settings.isDouble_ofValue {v : Value} (plain : v.IsPlain) :
    (ofValue v).engine.IsDouble := by
  have field := Value.isPlain_field (v := v) (.inl plain)
  unfold ofValue
  split
  · intro n mem
    simp only [ConfigPatch.numbers, ConfigPatch.formatterOfValue, List.mem_flatMap, List.mem_cons,
      List.not_mem_nil, or_false, Option.mem_toList, Option.join_some, Option.bind_some] at mem
    obtain ⟨x, inside, mem⟩ := mem
    rcases inside with rfl | rfl | rfl | rfl | rfl | rfl <;>
      exact Value.isDouble_of_number? (Value.isPlain_field (field _) _) mem
  · exact fun n mem => by simp [default, ConfigPatch.numbers] at mem

end Quill
