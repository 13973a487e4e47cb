import Mathlib.Data.List.Induction
import Quill.Compile.Resolution

/-!
# Bindings that are shadowed

A use is resolved by a walk along the bindings that shadow one another, and marks the one that it
finds. What comes of it can be said without the walk and the marks: a use stands for the last
binding before it that it may mean, and a binding is used if some use stands for it.

## Main definitions

* `Resolution.mayMean` — whether a use may stand for a binding; `Resolution.lastIndex?` — the number
  of the last binding of a kind.
* `Resolution.placedBindings`, `Resolution.placedUses`, `Resolution.bindings` — the bindings and the
  uses of placed items, as they are looked up.
* `World.reports` — all that a compile reports.
* `Resolution.Scoping.Resolves` — what has been resolved so far is what is looked up.

## Main statements

* `Resolution.Scoping.walk_eq` — a walk from the binding in scope comes to the last one that the use
  may mean.
* `Resolution.Scoping.Resolves.define`, `Resolution.Scoping.Resolves.use` — a binding comes into
  scope, and a use is resolved.
* `Resolution.Scoping.resolves_ofPlaced` — so all items are resolved as they are looked up.
* `World.bindings_compile`, `World.uses_compile` — a compile lists what is looked up.
-/

namespace Quill

namespace Resolution

/-! ## Looking up -/

structure PlacedBinding where
  uri : Uri
  binding : Binding
  deriving DecidableEq, Repr

def placedBindings (placed : List PlacedItem) : List PlacedBinding :=
  placed.filterMap fun p =>
    match p.item with
    | .binding b => some ⟨p.uri, b⟩
    | _ => none

/-- Whether the use `m` of the document `uri` may stand for a binding: the names agree and the use
does not stand in the value of the binding. -/
def mayMean (uri : Uri) (m : Mark) (b : PlacedBinding) : Bool :=
  b.binding.name == m.name && !(b.uri == uri && m.span.within b.binding.valueSpan)

def lastIndex? (p : PlacedBinding → Bool) (bs : List PlacedBinding) : Option Nat :=
  (bs.zipIdx.reverse.find? fun e => p e.1).map Prod.snd

def placedUses (defined : List PlacedBinding) : List PlacedItem → List PlacedUse
  | [] => []
  | p :: rest =>
    match p.item with
    | .binding b => placedUses (defined ++ [⟨p.uri, b⟩]) rest
    | .use m => ⟨p.uri, m, lastIndex? (mayMean p.uri m) defined⟩ :: placedUses defined rest
    | _ => placedUses defined rest

def bindings (bs : List PlacedBinding) (us : List PlacedUse) : List BindingDefinition :=
  bs.zipIdx.map fun (b, i) =>
    { name := b.binding.name, value := b.binding.value, uri := b.uri, span := b.binding.span
      nameSpan := b.binding.nameSpan, used := us.any (·.target == some i) }

end Resolution

def Item.use? : Item → Option Mark
  | use m => some m
  | _ => none

namespace Resolution

section

variable {front : List PlacedItem} {x : PlacedItem}

theorem placedBindings_concat : placedBindings (front ++ [x]) =
    placedBindings front ++ (x.item.binding?.map (⟨x.uri, ·⟩)).toList := by
  rw [placedBindings, List.filterMap_append]
  cases kind : x.item <;> simp [placedBindings, Item.binding?, kind]

theorem placedUses_concat (defined : List PlacedBinding) : placedUses defined (front ++ [x]) =
    placedUses defined front ++ (x.item.use?.map fun m =>
      ⟨x.uri, m, lastIndex? (mayMean x.uri m) (defined ++ placedBindings front)⟩).toList := by
  induction front generalizing defined with
  | nil => cases kind : x.item <;> simp [placedUses, placedBindings, Item.use?, kind]
  | cons y rest ih => cases kind : y.item <;> simp [placedUses, placedBindings, kind, ih]

theorem lastIndex?_concat (fits : PlacedBinding → Bool) (bs : List PlacedBinding)
    (b : PlacedBinding) :
    lastIndex? fits (bs ++ [b]) = if fits b then some bs.length else lastIndex? fits bs := by
  rw [lastIndex?, List.zipIdx_append, List.reverse_append]
  by_cases h : fits b <;> simp [h, lastIndex?]

theorem lastIndex?_lt {fits : PlacedBinding → Bool} {bs : List PlacedBinding} {i : Nat}
    (last : lastIndex? fits bs = some i) : i < bs.length := by
  obtain ⟨e, found, rfl⟩ := Option.map_eq_some_iff.1 last
  have mem := List.mem_reverse.1 (List.mem_of_find?_eq_some found)
  simpa using List.snd_lt_of_mem_zipIdx mem

theorem target_lt {placed : List PlacedItem} {u : PlacedUse} (mem : u ∈ placedUses [] placed)
    {i : Nat} (target : u.target = some i) : i < (placedBindings placed).length := by
  induction placed using List.reverseRecOn with
  | nil => cases mem
  | append_singleton front x ih =>
    rw [placedBindings_concat, List.length_append]
    rw [placedUses_concat, List.mem_append] at mem
    obtain mem | mem := mem
    · exact Nat.lt_add_right _ (ih mem)
    · obtain ⟨m, -, rfl⟩ := Option.map_eq_some_iff.1 (Option.mem_toList.1 mem)
      exact Nat.lt_add_right _ (lastIndex?_lt target)

end

/-! ## Walking along what is shadowed -/

namespace Scoping

structure Resolves (placed : List PlacedItem) (s : Scoping) : Prop where
  defined : s.defined.map (fun b => ⟨b.uri, b.binding⟩) = placedBindings placed
  /-- In scope is the last binding of a name. -/
  innermost : ∀ name, Dict.get? s.innermost name =
    lastIndex? (fun b => b.binding.name == name) (placedBindings placed)
  /-- A binding shadows the last one of its name before it. -/
  shadows : ∀ {i b}, s.defined[i]? = some b → b.shadows =
    lastIndex? (fun c => c.binding.name == b.binding.name) ((placedBindings placed).take i)
  uses : s.uses = placedUses [] placed
  used : ∀ {i b}, s.defined[i]? = some b → b.used = (placedUses [] placed).any (·.target == some i)

variable {placed : List PlacedItem} {s : Scoping}

namespace Resolves

theorem length_defined (h : s.Resolves placed) :
    s.defined.length = (placedBindings placed).length := by
  simp [← h.defined]

theorem start : Resolves [] {} where
  defined := rfl
  innermost _ := rfl
  shadows found := by simp at found
  uses := rfl
  used found := by simp at found

/-- A walk that sets out from the last binding of the name among the first ones comes to the last
among them that the use may mean. -/
theorem walk_take (h : s.Resolves placed) (uri : Uri) (m : Mark) {k steps : Nat}
    (inside : k ≤ (placedBindings placed).length) (enough : k ≤ steps) :
    walk s.defined uri m steps
        (lastIndex? (fun b => b.binding.name == m.name) ((placedBindings placed).take k)) =
      lastIndex? (mayMean uri m) ((placedBindings placed).take k) := by
  induction k generalizing steps with
  | zero => cases steps <;> rfl
  | succ k ih =>
    have reached : k < s.defined.length := h.length_defined ▸ inside
    obtain ⟨b, found⟩ : ∃ b, s.defined[k]? = some b := ⟨_, List.getElem?_eq_getElem reached⟩
    have next : (placedBindings placed)[k]? = some ⟨b.uri, b.binding⟩ := by
      simp [← h.defined, found]
    have length : ((placedBindings placed).take k).length = k :=
      List.length_take_of_le (Nat.le_of_succ_le inside)
    rw [List.take_add_one, next, Option.toList_some, lastIndex?_concat, lastIndex?_concat, length]
    by_cases named : b.binding.name = m.name
    · obtain ⟨steps, rfl⟩ : ∃ n, steps = n + 1 := ⟨steps - 1, by omega⟩
      have behind := h.shadows found
      rw [named] at behind
      simp only [named, beq_self_eq_true, if_true, walk, found, Option.bind_some, behind, mayMean,
        Bool.true_and]
      -- either the use stands in the value of this binding, or the binding is the one it means
      cases own : b.uri == uri && m.span.within b.binding.valueSpan
      · simp
      · simpa using ih (Nat.le_of_succ_le inside) (Nat.le_of_succ_le_succ enough)
    · simpa [named, mayMean] using ih (Nat.le_of_succ_le inside) (Nat.le_of_succ_le enough)

/-- A walk from the binding in scope comes to the last binding that the use may mean. -/
theorem walk_eq (h : s.Resolves placed) (uri : Uri) (m : Mark) :
    walk s.defined uri m s.defined.length (Dict.get? s.innermost m.name) =
      lastIndex? (mayMean uri m) (placedBindings placed) := by
  have walked := h.walk_take uri m (Nat.le_refl _) (Nat.le_of_eq h.length_defined.symm)
  rwa [List.take_length, ← h.innermost] at walked

theorem skip (h : s.Resolves placed) {p : PlacedItem} (binding : p.item.binding? = none)
    (use : p.item.use? = none) : s.Resolves (placed ++ [p]) := by
  have bindings : placedBindings (placed ++ [p]) = placedBindings placed := by
    simp [placedBindings_concat, binding]
  have uses : placedUses [] (placed ++ [p]) = placedUses [] placed := by
    simp [placedUses_concat, use]
  exact ⟨bindings ▸ h.defined, bindings ▸ h.innermost, fun found => bindings ▸ h.shadows found,
    uses ▸ h.uses, fun found => uses ▸ h.used found⟩

theorem define (h : s.Resolves placed) (uri : Uri) (b : Binding) :
    (s.define uri b).Resolves (placed ++ [⟨uri, .binding b⟩]) := by
  have length := h.length_defined
  have old {i : Nat} {c : ScopedBinding} (found : (s.define uri b).defined[i]? = some c) :
      s.defined[i]? = some c ∧ i < (placedBindings placed).length ∨
        i = (placedBindings placed).length ∧ c = ⟨uri, b, Dict.get? s.innermost b.name, false⟩ := by
    obtain before | behind := Nat.lt_or_ge i s.defined.length
    · rw [Scoping.define, List.getElem?_append_left before] at found
      exact .inl ⟨found, length ▸ before⟩
    · rw [Scoping.define, List.getElem?_append_right behind, List.getElem?_singleton] at found
      split at found
      next here => exact .inr ⟨by omega, (Option.some.inj found).symm⟩
      next => cases found
  have bindings : placedBindings (placed ++ [⟨uri, .binding b⟩]) = placedBindings placed ++
      [⟨uri, b⟩] :=
    placedBindings_concat
  have uses : placedUses [] (placed ++ [⟨uri, .binding b⟩]) = placedUses [] placed :=
    (placedUses_concat []).trans (List.append_nil _)
  constructor
  case defined => simp [Scoping.define, h.defined, bindings]
  case innermost =>
    intro name
    rw [bindings, lastIndex?_concat, ← length]
    by_cases own : b.name = name
    · simp [Scoping.define, own]
    · simpa [Scoping.define, own, Dict.get?_put_of_ne _ _ (Ne.symm own)] using h.innermost name
  case shadows =>
    intro i c found
    obtain ⟨found, before⟩ | ⟨rfl, rfl⟩ := old found
    · rw [bindings, List.take_append_of_le_length (Nat.le_of_lt before)]
      exact h.shadows found
    · rw [bindings, List.take_left]
      exact h.innermost b.name
  case uses => exact h.uses.trans uses.symm
  case used =>
    intro i c found
    rw [uses]
    obtain ⟨found, -⟩ | ⟨rfl, rfl⟩ := old found
    · exact h.used found
    · -- no use stands for a binding that comes after it
      refine (List.any_eq_false.2 fun u mem => ?_).symm
      simpa using fun target => Nat.lt_irrefl _ (target_lt mem target)

/-- The binding that a use stands for is marked, and nothing else happens to the bindings. -/
theorem getElem?_use (h : s.Resolves placed) (uri : Uri) (m : Mark) (i : Nat) :
    (s.use uri m).defined[i]? = s.defined[i]?.map fun b => { b with
      used := b.used || lastIndex? (mayMean uri m) (placedBindings placed) == some i } := by
  rw [Scoping.use, h.walk_eq]
  cases lastIndex? (mayMean uri m) (placedBindings placed) with
  | none => simp
  | some j =>
    simp only [Option.elim_some, List.getElem?_modify, Option.map_eq_map]
    refine Option.map_congr fun b _ => ?_
    by_cases here : j = i
    · simp [here]
    · simp [here, beq_eq_false_iff_ne.2 here]

theorem use (h : s.Resolves placed) (uri : Uri) (m : Mark) :
    (s.use uri m).Resolves (placed ++ [⟨uri, .use m⟩]) := by
  have bindings : placedBindings (placed ++ [⟨uri, .use m⟩]) = placedBindings placed :=
    placedBindings_concat.trans (List.append_nil _)
  have uses : placedUses [] (placed ++ [⟨uri, .use m⟩]) =
      placedUses [] placed ++ [⟨uri, m, lastIndex? (mayMean uri m) (placedBindings placed)⟩] :=
    placedUses_concat []
  have defined := h.getElem?_use uri m
  have marked {i : Nat} {c : ScopedBinding} (found : (s.use uri m).defined[i]? = some c) :
      ∃ b, s.defined[i]? = some b ∧ c = { b with
        used := b.used || lastIndex? (mayMean uri m) (placedBindings placed) == some i } := by
    obtain ⟨b, there, rfl⟩ := Option.map_eq_some_iff.1 ((defined i).symm.trans found)
    exact ⟨b, there, rfl⟩
  constructor
  case defined =>
    rw [bindings, ← h.defined]
    refine List.ext_getElem? fun i => ?_
    rw [List.getElem?_map, List.getElem?_map, defined, Option.map_map]
    rfl
  case innermost => exact fun name => bindings ▸ h.innermost name
  case shadows =>
    intro i c found
    obtain ⟨b, there, rfl⟩ := marked found
    exact bindings ▸ h.shadows there
  case uses => simp [Scoping.use, h.walk_eq, h.uses, uses]
  case used =>
    intro i c found
    obtain ⟨b, there, rfl⟩ := marked found
    simp [uses, h.used there]

end Resolves

theorem resolves_ofPlaced (placed : List PlacedItem) : (ofPlaced placed).Resolves placed := by
  induction placed using List.reverseRecOn with
  | nil => exact .start
  | append_singleton front x ih =>
    obtain ⟨uri, item⟩ := x
    rw [ofPlaced, List.foldl_append]
    cases item with
    | binding b => exact ih.define uri b
    | use m => exact ih.use uri m
    | _ => exact ih.skip rfl rfl

/-- The bindings are defined with the marks that the uses leave. -/
theorem map_definition_ofPlaced (placed : List PlacedItem) :
    (ofPlaced placed).defined.map ScopedBinding.definition =
      bindings (placedBindings placed) (placedUses [] placed) := by
  have resolves := resolves_ofPlaced placed
  refine List.ext_getElem? fun i => ?_
  rw [bindings, ← resolves.defined, List.getElem?_map, List.getElem?_map, List.getElem?_zipIdx,
    List.getElem?_map]
  cases found : (ofPlaced placed).defined[i]? with
  | none => rfl
  | some b => simp [ScopedBinding.definition, resolves.used found]

end Scoping

end Resolution

namespace World

/-- A compile lists the bindings with the marks that they get when the uses are looked up. -/
theorem bindings_compile (w : World) : w.compile.artifact.bindings =
    Resolution.bindings (Resolution.placedBindings w.expand.placed)
      (Resolution.placedUses [] w.expand.placed) :=
  Resolution.Scoping.map_definition_ofPlaced _

/-- A compile lists the uses with what is looked up for them. -/
theorem uses_compile (w : World) : w.compile.artifact.uses =
    Resolution.uses w.settings.inputs w.compile.artifact.bindings
      (Resolution.placedUses [] w.expand.placed) :=
  congrArg (Resolution.uses _ _) (Resolution.Scoping.resolves_ofPlaced _).uses

/-- All that a compile reports: what it finds when it expands inclusions, and then when it resolves
names. -/
def reports (w : World) : List Report :=
  w.expand.reports ++ Resolution.duplicates [] (Resolution.placedLabels none w.expand.placed) ++
    Resolution.unknownLabels w.compile.artifact.references ++
    Resolution.unknownVariables w.compile.artifact.uses ++
    Resolution.unusedBindings w.compile.artifact.bindings

theorem diagnostics_compile (w : World) :
    w.compile.diagnostics = w.diagnostics w.compile.artifact.files w.reports := rfl

end World

end Quill
