import Mathlib.Data.List.Basic
import Mathlib.Data.List.Forall2
import Mathlib.Data.List.Induction
import Mathlib.Data.List.Nodup
import Quill.Proofs.Compile.Cycles
import Quill.Proofs.Compile.Shadowing
import Quill.Proofs.Data.Lists

/-!
# The items of a closure and the scope of bindings

An expansion visits every item of every file of the closure once, with the items of a file put in
behind the first inclusion of it. Whatever a compile lists of references, bindings, uses and
inclusions are the items of that kind among the visits, all of them and in this order.

A use means the last binding of its name that is placed before it, in whatever file that stands,
unless the use stands in the value of that binding, which cannot mean itself. If there is none, the
use means the input of its name.

## Main definitions

* `Item.reference?` — the references among the items.
* `World.Tours` — the visits go through the items of the closure.
* `World.Lists` — an artifact lists the items that are visited.
* `Resolution.MayStandFor`, `Resolution.StandsFor` — which bindings a use may mean, and which it
  means.
* `Resolution.places` — where the items of a kind are placed.
* `Resolution.Defines`, `Resolution.Resolves` — what is listed for the binding or the use in a
  place.
* `World.Binds` — what a compile makes of bindings and uses.

## Main statements

* `World.tours_expand` — an expansion goes through the items of the closure.
* `World.lists_compile` — a compile lists them.
* `Resolution.lastIndex?_cases` — the number that is looked up is that of the last place that fits.
* `Resolution.lastIndex?_take_eq_some_iff` — a use has the number of the binding that it stands for.
* `World.compile_binds` — every compile of an entry with a source resolves every use so.
-/

namespace Quill

namespace Item

def reference? : Item → Option Mark
  | reference m => some m
  | _ => none

theorem label?_eq_some {item : Item} {m : Mark} : item.label? = some m ↔ item = .label m := by
  cases item <;> simp [label?]

theorem binding?_eq_some {item : Item} {b : Binding} :
    item.binding? = some b ↔ item = .binding b := by
  cases item <;> simp [binding?]

end Item

namespace World

/-- The visits go through the items of the closure, which has these files: as in the flattened
document, and through the items of each file once and in order. -/
structure Tours (w : World) (visits : List Visit) (files : List Uri) : Prop where
  flattens : w.Flattens [w.entry] (w.visitsOf [w.entry] w.entry) visits files
  mem_files : ∀ uri, uri ∈ files ↔ w.Reaches uri ∧ (w.source? uri).isSome
  nodup : files.Nodup
  inside : ∀ v ∈ visits, v.uri ∈ files
  items : ∀ uri ∈ files, ∀ src, w.source? uri = some src →
    (visits.filter (·.uri = uri)).map (·.item) = src.module.items

/-- The artifact lists the inclusions that are visited, each with its status, and the references,
bindings and uses. -/
structure Lists (w : World) (a : Artifact) (visits : List Visit) : Prop where
  includes : a.includes = visits.filterMap w.edge?
  references : a.references.map (fun r => (r.uri, r.name, r.span)) =
    visits.filterMap fun v => v.item.reference?.map fun m => (v.uri, m.name, m.span)
  bindings : a.bindings.map (fun d => (d.uri, d.name, d.value, d.span, d.nameSpan)) =
    visits.filterMap fun v => v.item.binding?.map fun b =>
      (v.uri, b.name, b.value, b.span, b.nameSpan)
  uses : a.uses.map (fun u => (u.uri, u.name, u.span)) =
    visits.filterMap fun v => v.item.use?.map fun m => (v.uri, m.name, m.span)

end World

/-! ## Placed items -/

/-- What is picked from the placed items is picked from the visits, if nothing is picked from
inclusions. -/
theorem filterMap_plain? {β : Type} (pick : Uri → Item → Option β)
    (nothing : ∀ uri i, pick uri (.inclusion i) = none)
    (visits : List Visit) : ((visits.filterMap Visit.plain?).filterMap fun p => pick p.uri p.item) =
      visits.filterMap fun v => pick v.uri v.item := by
  rw [List.filterMap_filterMap]
  refine List.filterMap_congr fun v _ => ?_
  obtain ⟨⟨uri, item⟩, chain⟩ := v
  cases item <;> simp [Visit.plain?, Item.inclusion?, nothing]

namespace Resolution

theorem map_references (labels : List LabelDefinition) (placed : List PlacedItem) :
    (references labels placed).map (fun r => (r.uri, r.name, r.span)) =
      placed.filterMap fun p => p.item.reference?.map fun m => (p.uri, m.name, m.span) := by
  rw [references, List.map_filterMap]
  refine List.filterMap_congr fun p _ => ?_
  cases p.item <;> rfl

theorem map_placedBindings {β : Type} (f : Uri → Binding → β) (placed : List PlacedItem) :
    (placedBindings placed).map (fun b => f b.uri b.binding) =
      placed.filterMap fun p => p.item.binding?.map (f p.uri) := by
  rw [placedBindings, List.map_filterMap]
  refine List.filterMap_congr fun p _ => ?_
  cases p.item <;> rfl

theorem map_bindings {β : Type} (f : Uri → Text → Text → Span → Span → β) (bs : List PlacedBinding)
    (us : List PlacedUse) :
    (bindings bs us).map (fun d => f d.uri d.name d.value d.span d.nameSpan) =
      bs.map fun b => f b.uri b.binding.name b.binding.value b.binding.span b.binding.nameSpan := by
  calc (bindings bs us).map (fun d => f d.uri d.name d.value d.span d.nameSpan)
    _ = (bs.zipIdx.map Prod.fst).map fun b =>
          f b.uri b.binding.name b.binding.value b.binding.span b.binding.nameSpan := by
        rw [bindings, List.map_map, List.map_map]
        rfl
    _ = _ := by rw [List.zipIdx_map_fst]

theorem map_placedUses {β : Type} (f : Uri → Mark → β) (defined : List PlacedBinding)
    (placed : List PlacedItem) :
    (placedUses defined placed).map (fun u => f u.uri u.mark) =
      placed.filterMap fun p => p.item.use?.map (f p.uri) := by
  induction placed generalizing defined with
  | nil => rfl
  | cons p rest ih => cases kind : p.item <;> simp [placedUses, kind, Item.use?, ih]

theorem map_uses {β : Type} (f : Uri → Text → Span → β) (inputs : Dict Text Text)
    (bs : List BindingDefinition)
    (us : List PlacedUse) : (uses inputs bs us).map (fun u => f u.uri u.name u.span) =
      us.map fun u => f u.uri u.mark.name u.mark.span := by
  rw [uses, List.map_map]
  rfl

end Resolution

/-! ## Expansions and compiles -/

namespace World

variable {w : World}

/-- An expansion goes through the items of the closure. What is placed are the items but for the
inclusions, and what is reported are the problems of the files and of the inclusions. -/
theorem tours_expand (found : (w.source? w.entry).isSome) :
    ∃ visits, w.Tours visits w.expand.files ∧
    w.expand.placed = visits.filterMap Visit.plain? ∧ w.expand.edges = visits.filterMap w.edge? ∧
    w.expand.reports.Perm
      (w.expand.files.flatMap w.syntaxProblems ++ visits.filterMap w.problem?) := by
  obtain ⟨visits, flattens, placed, edges, reports⟩ := visits_expand found
  refine ⟨visits, ?_, placed, edges, reports⟩
  constructor
  case flattens => exact flattens
  case mem_files => exact fun uri => mem_files_iff found
  case nodup => exact flattens.nodup (List.pairwise_singleton _ _)
  case inside => exact flattens.uri_mem fun v mem => by simp [uri_of_mem_visitsOf mem]
  case items =>
    intro uri mem src source
    obtain ⟨chain, own⟩ := exists_filter_eq found flattens mem
    simp [own, visitsOf_eq source, Function.comp_def]

theorem compile?_eq_ok (found : (w.source? w.entry).isSome) : w.compile? = .ok w.compile := by
  simp [compile?, Option.isSome_iff_ne_none.1 found]

theorem lists_compile
    {visits : List Visit} (placed : w.expand.placed = visits.filterMap Visit.plain?)
    (edges : w.expand.edges = visits.filterMap w.edge?) : w.Lists w.compile.artifact visits := by
  constructor
  case includes => exact edges
  case references =>
    rw [← filterMap_plain? (fun uri item => item.reference?.map fun m => (uri, m.name, m.span))
      (fun _ _ => rfl), ← placed]
    exact Resolution.map_references _ _
  case bindings =>
    rw [← filterMap_plain? (fun uri item => item.binding?.map fun b =>
      (uri, b.name, b.value, b.span, b.nameSpan)) (fun _ _ => rfl), ← placed, bindings_compile]
    exact (Resolution.map_bindings
      (fun uri name value span nameSpan => (uri, name, value, span, nameSpan)) _ _).trans
      (Resolution.map_placedBindings (fun uri b => (uri, b.name, b.value, b.span, b.nameSpan)) _)
  case uses =>
    rw [← filterMap_plain? (fun uri item => item.use?.map fun m => (uri, m.name, m.span))
      (fun _ _ => rfl), ← placed, uses_compile]
    exact (Resolution.map_uses (fun uri name span => (uri, name, span)) _ _ _).trans
      (Resolution.map_placedUses (fun uri m => (uri, m.name, m.span)) _ _)

end World

namespace Resolution

/-! ## What a use stands for -/

def MayStandFor (placed : List PlacedItem) (p q : Nat) : Prop :=
  q < p ∧ ∃ uri m uri' b, placed[p]? = some ⟨uri, .use m⟩ ∧ placed[q]? = some ⟨uri', .binding b⟩ ∧
  b.name = m.name ∧
    ¬ (uri' = uri ∧ b.valueSpan.start ≤ m.span.start ∧ m.span.stop ≤ b.valueSpan.stop)

/-- The use at `p` stands for the binding at `q`, the last one that it may stand for. -/
def StandsFor (placed : List PlacedItem) (p q : Nat) : Prop :=
  MayStandFor placed p q ∧ ∀ q', MayStandFor placed p q' → q' ≤ q

def places (kind : Item → Bool) (placed : List PlacedItem) : List Nat :=
  (List.range placed.length).filter fun p => placed[p]?.any (kind ·.item)

/-- What is listed for the binding at `q`. It is marked as used if a use stands for it. -/
def Defines (placed : List PlacedItem) (q : Nat) (d : BindingDefinition) : Prop :=
  ∃ b, placed[q]? = some ⟨d.uri, .binding b⟩ ∧ d.name = b.name ∧ d.value = b.value ∧
  d.span = b.span ∧
    d.nameSpan = b.nameSpan ∧ (d.used = true ↔ ∃ p, StandsFor placed p q)

def Resolves (inputs : Dict Text Text) (placed : List PlacedItem) (p : Nat) (u : ResolvedUse) :
    Prop :=
  ∃ m, placed[p]? = some ⟨u.uri, .use m⟩ ∧ u.name = m.name ∧ u.span = m.span ∧
    ((∃ q d, StandsFor placed p q ∧ Defines placed q d ∧ u.target = some (.binding d)) ∨
      (∀ q, ¬ MayStandFor placed p q) ∧ u.target = (Dict.get? inputs m.name).map .input)

variable {kind : Item → Bool} {placed front : List PlacedItem} {x : PlacedItem} {uri : Uri}
  {m : Mark} {b : Binding} {i p q q' : Nat}

theorem StandsFor.unique (h : StandsFor placed p q) (h' : StandsFor placed p q') : q = q' :=
  Nat.le_antisymm (h'.2 q h.1) (h.2 q' h'.1)

/-- Whether a use may stand for a binding is what the code asks of the two items. -/
theorem mayStandFor_iff (use : placed[p]? = some ⟨uri, .use m⟩) : MayStandFor placed p q ↔
    q < p ∧ ∃ b : PlacedBinding, placed[q]? = some ⟨b.uri, .binding b.binding⟩ ∧
    mayMean uri m b = true := by
  simp only [MayStandFor, use, mayMean, Span.within, Option.some.injEq, PlacedItem.mk.injEq,
    Item.use.injEq,
    Bool.and_eq_true, Bool.not_eq_true', Bool.and_eq_false_iff, beq_iff_eq, not_and_or]
  constructor
  · rintro ⟨before, _, _, uri', b, ⟨rfl, rfl⟩, binding, name, off⟩
    refine ⟨before, ⟨uri', b⟩, binding, name, ?_⟩
    simpa [← not_and_or] using off
  · rintro ⟨before, ⟨uri', b⟩, binding, name, off⟩
    refine ⟨before, uri, m, uri', b, ⟨rfl, rfl⟩, binding, name, ?_⟩
    simpa [← not_and_or] using off

/-! ## Places -/

theorem mem_places : p ∈ places kind placed ↔ ∃ x, placed[p]? = some x ∧ kind x.item = true := by
  rw [places, List.mem_filter, List.mem_range, Option.any_eq_true]
  refine and_iff_right_of_imp fun there => ?_
  obtain ⟨x, at_p, -⟩ := there
  exact (List.getElem?_eq_some_iff.1 at_p).1

theorem nodup_places : (places kind placed).Nodup := List.nodup_range.filter _

theorem places_concat : places kind (front ++ [x]) =
    places kind front ++ if kind x.item then [front.length] else [] := by
  have old : ∀ p ∈ List.range front.length, (front ++ [x])[p]?.any (kind ·.item) =
      front[p]?.any (kind ·.item) :=
    fun p mem => by rw [List.getElem?_append_left (List.mem_range.1 mem)]
  rw [places, List.length_append, List.length_singleton, List.range_succ, List.filter_append,
    List.filter_congr old, places]
  simp [List.filter_singleton]

/-- The places in front are the first ones. -/
theorem places_prefix (kind : Item → Bool) (front more : List PlacedItem) :
    places kind front <+: places kind (front ++ more) := by
  induction more using List.reverseRecOn with
  | nil => simp
  | append_singleton more x ih =>
    rw [← List.append_assoc, places_concat]
    exact ih.trans (List.prefix_append _ _)

theorem getElem?_places_of_take (h : (places kind (placed.take p))[i]? = some q) :
    (places kind placed)[i]? = some q := by
  obtain ⟨more, eq⟩ := places_prefix kind (placed.take p) (placed.drop p)
  rw [List.take_append_drop] at eq
  rw [← eq, List.getElem?_append_left (List.getElem?_eq_some_iff.1 h).1, h]

theorem getElem?_concat_of_some (h : front[q]? = some x) (y : PlacedItem) :
    (front ++ [y])[q]? = some x := by
  rw [List.getElem?_append_left (List.getElem?_eq_some_iff.1 h).1, h]

/-! ## The lists of the code -/

theorem forall₂_placedBindings (placed : List PlacedItem) :
    List.Forall₂ (fun (q : Nat) (b : PlacedBinding) => placed[q]? =
      some ⟨b.uri, .binding b.binding⟩)
      (places (·.binding?.isSome) placed) (placedBindings placed) := by
  induction placed using List.reverseRecOn with
  | nil => exact .nil
  | append_singleton front x ih =>
    rw [places_concat, placedBindings_concat]
    apply List.rel_append
    · exact ih.imp fun q b at_q => getElem?_concat_of_some at_q x
    · obtain ⟨uri, item⟩ := x
      cases item <;> simp [Item.binding?]

theorem forall₂_placedUses (placed : List PlacedItem) :
    List.Forall₂ (fun (p : Nat) (u : PlacedUse) => placed[p]? = some ⟨u.uri, .use u.mark⟩ ∧
        u.target = lastIndex? (mayMean u.uri u.mark) (placedBindings (placed.take p)))
      (places (·.use?.isSome) placed) (placedUses [] placed) := by
  induction placed using List.reverseRecOn with
  | nil => exact .nil
  | append_singleton front x ih =>
    rw [places_concat, placedUses_concat]
    apply List.rel_append
    · refine ih.imp fun p u listed => ?_
      obtain ⟨at_p, target⟩ := listed
      refine ⟨getElem?_concat_of_some at_p x, ?_⟩
      have inside : p ≤ front.length := Nat.le_of_lt (List.getElem?_eq_some_iff.1 at_p).1
      rw [target, List.take_append_of_le_length inside]
    · obtain ⟨uri, item⟩ := x
      cases item <;> simp [Item.use?]

/-- The number that is looked up among the bindings in front is that of the last place that fits. -/
theorem lastIndex?_cases (fits : PlacedBinding → Bool) (front : List PlacedItem) :
    (∃ (i q : Nat) (b : PlacedBinding), lastIndex? fits (placedBindings front) = some i ∧
      (places (·.binding?.isSome) front)[i]? = some q ∧
      front[q]? = some ⟨b.uri, .binding b.binding⟩ ∧ fits b = true ∧
      ∀ (q' : Nat) (b' : PlacedBinding), front[q']? = some ⟨b'.uri, .binding b'.binding⟩ →
      fits b' = true → q' ≤ q) ∨
    lastIndex? fits (placedBindings front) = none ∧
      ∀ (q : Nat) (b : PlacedBinding), front[q]? = some ⟨b.uri, .binding b.binding⟩ →
      ¬ fits b = true := by
  induction front using List.reverseRecOn with
  | nil => exact .inr ⟨rfl, by simp⟩
  | append_singleton front x ih =>
    -- what is behind stands in the last place or was there before
    have split {q : Nat} {y : PlacedItem} (at_q : (front ++ [x])[q]? = some y) :
        front[q]? = some y ∨ q = front.length ∧ x = y := by
      rw [List.getElem?_append] at at_q
      split at at_q
      · exact .inl at_q
      · rw [List.getElem?_singleton] at at_q
        split at at_q
        · exact .inr ⟨by omega, Option.some.inj at_q⟩
        · cases at_q
    by_cases last : ∃ b : PlacedBinding, x = ⟨b.uri, .binding b.binding⟩ ∧ fits b = true
    · obtain ⟨b, rfl, fit⟩ := last
      refine .inl ⟨(placedBindings front).length, front.length, b, ?_,
        ?_, by simp, fit, fun q' b' at_q' _ => ?_⟩
      · simp [placedBindings_concat, Item.binding?, lastIndex?_concat, fit]
      · simp [places_concat, Item.binding?, ← (forall₂_placedBindings front).length_eq]
      · exact (split at_q').elim (fun old => Nat.le_of_lt (List.getElem?_eq_some_iff.1 old).1)
          (Nat.le_of_eq ·.1)
    · -- the last item does not fit, so that it is as without it
      have same : lastIndex? fits (placedBindings (front ++ [x])) =
          lastIndex? fits (placedBindings front) := by
        obtain ⟨uri, item⟩ := x
        rw [placedBindings_concat]
        cases item with
        | binding b =>
          have other : ¬ fits ⟨uri, b⟩ = true := fun fit => last ⟨⟨uri, b⟩, rfl, fit⟩
          simp [Item.binding?, lastIndex?_concat, other]
        | heading | label | reference | use | inclusion => simp [Item.binding?]
      rw [same]
      refine ih.imp ?_ ?_
      · rintro ⟨i, q, b, found, place, at_q, fit, greatest⟩
        refine ⟨i, q, b, found, ?_, getElem?_concat_of_some at_q x, fit, fun q' b' at_q' fit' => ?_⟩
        · rw [places_concat, List.getElem?_append_left (List.getElem?_eq_some_iff.1 place).1, place]
        · exact (split at_q').elim (greatest q' b' · fit') fun new => absurd ⟨b', new.2, fit'⟩ last
      · rintro ⟨none, nowhere⟩
        exact ⟨none, fun q b at_q fit => (split at_q).elim (nowhere q b · fit) fun new => last
          ⟨b, new.2, fit⟩⟩

/-! ## Numbers and places -/

theorem lastIndex?_take_cases (use : placed[p]? = some ⟨uri, .use m⟩) :
    (∃ i q, lastIndex? (mayMean uri m) (placedBindings (placed.take p)) = some i ∧
      (places (·.binding?.isSome) placed)[i]? = some q ∧ StandsFor placed p q) ∨
    lastIndex? (mayMean uri m) (placedBindings (placed.take p)) = none ∧ ∀ q,
    ¬ MayStandFor placed p q := by
  have front {q : Nat} {x : PlacedItem} : (placed.take p)[q]? = some x ↔ q < p ∧
      placed[q]? = some x := by
    rw [List.getElem?_take]
    split <;> simp [*]
  refine (lastIndex?_cases (mayMean uri m) (placed.take p)).imp ?_ ?_
  · rintro ⟨i, q, b, found, place, at_q, fit, greatest⟩
    obtain ⟨before, at_q⟩ := front.1 at_q
    refine ⟨i, q, found, getElem?_places_of_take place,
      (mayStandFor_iff use).2 ⟨before, b, at_q, fit⟩, ?_⟩
    intro q' may
    obtain ⟨before', b', at_q', fit'⟩ := (mayStandFor_iff use).1 may
    exact greatest q' b' (front.2 ⟨before', at_q'⟩) fit'
  · rintro ⟨none, nowhere⟩
    refine ⟨none, fun q may => ?_⟩
    obtain ⟨before, b, at_q, fit⟩ := (mayStandFor_iff use).1 may
    exact nowhere q b (front.2 ⟨before, at_q⟩) fit

theorem lastIndex?_take_eq_some_iff (use : placed[p]? = some ⟨uri, .use m⟩)
    (place : (places (·.binding?.isSome) placed)[i]? = some q) :
    lastIndex? (mayMean uri m) (placedBindings (placed.take p)) = some i ↔
    StandsFor placed p q := by
  obtain ⟨i', q', found, place', stands⟩ | ⟨none, nowhere⟩ := lastIndex?_take_cases use
  · rw [found, Option.some.injEq]
    constructor
    · rintro rfl
      obtain rfl := Option.some.inj (place.symm.trans place')
      exact stands
    · intro stands'
      obtain rfl := stands.unique stands'
      obtain ⟨inside, at_i⟩ := List.getElem?_eq_some_iff.1 place
      obtain ⟨inside', at_i'⟩ := List.getElem?_eq_some_iff.1 place'
      exact (List.Nodup.getElem_inj_iff nodup_places).1 (at_i'.trans at_i.symm)
  · rw [none]
    exact ⟨nofun, fun stands => absurd stands.1 (nowhere q)⟩

theorem exists_target_iff (place : (places (·.binding?.isSome) placed)[i]? = some q) :
    (∃ u ∈ placedUses [] placed, u.target = some i) ↔ ∃ p, StandsFor placed p q := by
  have uses := forall₂_placedUses placed
  constructor
  · rintro ⟨u, mem, target⟩
    obtain ⟨p, -, use, number⟩ := Related.exists_left uses mem
    exact ⟨p, (lastIndex?_take_eq_some_iff use place).1 (number.symm.trans target)⟩
  · rintro ⟨p, stands⟩
    obtain ⟨-, uri, m, -, -, use, -⟩ := stands.1
    obtain ⟨u, mem, use', number⟩ := Related.exists_right uses (mem_places.2 ⟨_, use, rfl⟩)
    rw [(lastIndex?_take_eq_some_iff use' place).2 stands] at number
    exact ⟨u, mem, number⟩

/-! ## What is listed -/

theorem Defines.unique {d d' : BindingDefinition} (h : Defines placed q d)
    (h' : Defines placed q d') : d = d' := by
  obtain ⟨b, at_q, name, value, span, nameSpan, used⟩ := h
  obtain ⟨b', at_q', name', value', span', nameSpan', used'⟩ := h'
  obtain ⟨uri, rfl⟩ : d.uri = d'.uri ∧ b = b' := by simpa using at_q.symm.trans at_q'
  have mark : d.used = d'.used := Bool.eq_iff_iff.2 (used.trans used'.symm)
  cases d
  cases d'
  simp_all

/-- Each binding is listed, marked if a use stands for it. -/
theorem forall₂_defines (placed : List PlacedItem) : List.Forall₂ (Defines placed)
    (places (·.binding?.isSome) placed)
    (bindings (placedBindings placed) (placedUses [] placed)) := by
  have listed := forall₂_placedBindings placed
  refine List.forall₂_iff_get.2 ⟨by simp [bindings, listed.length_eq], fun i place inside => ?_⟩
  have inside : i < (placedBindings placed).length := listed.length_eq ▸ place
  refine ⟨(placedBindings placed)[i].binding, ?_⟩
  simpa [bindings] using
    ⟨listed.get place inside, exists_target_iff (List.getElem?_eq_getElem place)⟩

theorem forall₂_resolves (inputs : Dict Text Text) (placed : List PlacedItem) :
    List.Forall₂ (Resolves inputs placed) (places (·.use?.isSome) placed)
      (uses inputs (bindings (placedBindings placed) (placedUses [] placed))
        (placedUses [] placed)) := by
  rw [uses, List.forall₂_map_right_iff]
  refine (forall₂_placedUses placed).imp fun p u listed => ?_
  obtain ⟨use, number⟩ := listed
  refine ⟨u.mark, use, rfl, rfl, ?_⟩
  obtain ⟨i, q, found, place, stands⟩ | ⟨none, nowhere⟩ := lastIndex?_take_cases use
  · have related := Related.getElem? (forall₂_defines placed) i
    rw [place] at related
    obtain ⟨none, -⟩ | ⟨_, d, eq, at_i, defines⟩ := Related.cases related
    · cases none
    · obtain rfl := Option.some.inj eq
      exact .inl ⟨q, d, stands, defines, by simp [number, found, at_i]⟩
  · exact .inr ⟨nowhere, by simp [number, none]⟩

/-- So a binding is marked exactly if what it defines is what a use that is listed means. -/
theorem used_iff {inputs : Dict Text Text} {ds : List BindingDefinition} {us : List ResolvedUse}
    (defines : List.Forall₂ (Defines placed) (places (·.binding?.isSome) placed) ds)
    (resolves : List.Forall₂ (Resolves inputs placed) (places (·.use?.isSome) placed) us)
    {d : BindingDefinition}
    (mem : d ∈ ds) : d.used = true ↔ ∃ u ∈ us, u.target = some (.binding d) := by
  constructor
  · intro used
    obtain ⟨q, -, defined⟩ := Related.exists_left defines mem
    obtain ⟨p, stands⟩ := defined.choose_spec.2.2.2.2.2.1 used
    obtain ⟨-, uri, m, -, -, use, -⟩ := stands.1
    obtain ⟨u, listed, m, -, -, -, means⟩ :=
      Related.exists_right resolves (mem_places.2 ⟨_, use, rfl⟩)
    obtain ⟨q', d', stands', defined', target⟩ | ⟨nowhere, -⟩ := means
    · obtain rfl := stands.unique stands'
      obtain rfl := defined.unique defined'
      exact ⟨u, listed, target⟩
    · exact absurd stands.1 (nowhere q)
  · rintro ⟨u, listed, target⟩
    obtain ⟨p, -, m, -, -, -, means⟩ := Related.exists_left resolves listed
    obtain ⟨q, d', stands, ⟨b, -, -, -, -, -, used⟩, target'⟩ | ⟨-, none⟩ := means
    · obtain rfl : d = d' := by simpa using target.symm.trans target'
      exact used.2 ⟨p, stands⟩
    · rw [target, eq_comm, Option.map_eq_some_iff] at none
      obtain ⟨_, -, other⟩ := none
      cases other

end Resolution

/-! ## Compiles -/

namespace World

open Resolution

variable {w : World}

/-- What a compile makes of bindings and uses, when these are the placed items. -/
structure Binds (w : World) (a : Artifact) (placed : List PlacedItem) : Prop where
  /-- Each binding is listed once, in order, and is marked exactly if a use stands for it. -/
  bindings : List.Forall₂ (Defines placed) (places (·.binding?.isSome) placed) a.bindings
  /-- Each use is listed once, in order, with what it stands for. -/
  uses : List.Forall₂ (Resolves w.settings.inputs placed) (places (·.use?.isSome) placed) a.uses
  /-- What is listed as used is what some use that is listed resolves to. -/
  used : ∀ d ∈ a.bindings, d.used = true ↔ ∃ u ∈ a.uses, u.target = some (.binding d)

/-- Every compile of an entry with a source goes through the items of the closure. It lists all
bindings and uses among them, each once and in order, and every use with the last binding before it
that it may stand for, whatever the files they stand in, or else with the input of its name, if
there is one. -/
theorem compile_binds (found : (w.source? w.entry).isSome) : ∃ c visits, w.compile? = .ok c ∧
    w.Tours visits c.artifact.files ∧ w.Lists c.artifact visits ∧
    w.Binds c.artifact (visits.filterMap Visit.plain?) := by
  obtain ⟨visits, tours, placed, edges, -⟩ := tours_expand found
  refine ⟨w.compile, visits, compile?_eq_ok found, tours, lists_compile placed edges, ?_⟩
  rw [← placed]
  have defines := bindings_compile w ▸ forall₂_defines w.expand.placed
  have resolves := forall₂_resolves w.settings.inputs w.expand.placed
  rw [← bindings_compile, ← uses_compile] at resolves
  exact ⟨defines, resolves, fun d mem => used_iff defines resolves mem⟩

/-- A name that is defined three times in two files, in its own terms and around an inclusion, and
an input. -/
def shadowing : World :=
  ofSources "/m" [.ofText "/m" "#let a = one\n#include \"x\"\n#a #b #c\n#let a = #a two\n#a",
    .ofText "/x" "#a\n#let a = #a #b\n#let d = #a\n#a"] ⟨[("b", "in")], "default"⟩

def meaning? (u : ResolvedUse) : Option (Option Uri × Text) :=
  u.target.map fun
    | .binding d => (some d.uri, d.value)
    | .input value => (none, value)

theorem compile_binds_shadowing : (shadowing.source? shadowing.entry).isSome ∧ ∃ c visits,
    shadowing.compile? = .ok c ∧ shadowing.Tours visits c.artifact.files ∧
    shadowing.Lists c.artifact visits ∧
      shadowing.Binds c.artifact (visits.filterMap Visit.plain?) ∧
      c.artifact.bindings.map (fun d => (d.uri, d.value, d.used)) =
        ([("/m", "one", true), ("/x", "#a #b", true), ("/x", "#a", false), ("/m", "#a two", true)] :
          List (Uri × Text × Bool)) ∧
      c.artifact.uses.map (fun u => (u.uri, u.name, meaning? u)) =
        ([("/x", "a", some (some "/m", "one")), ("/x", "a", some (some "/m", "one")),
          ("/x", "b", some (none, "in")),
          ("/x", "a", some (some "/x", "#a #b")), ("/x", "a", some (some "/x", "#a #b")),
          ("/m", "a", some (some "/x", "#a #b")), ("/m", "b", some (none, "in")), ("/m", "c", none),
          ("/m", "a", some (some "/x", "#a #b")), ("/m", "a", some (some "/m", "#a two"))] :
          List (Uri × Text × Option (Option Uri × Text))) := by
  have found : (shadowing.source? shadowing.entry).isSome := by decide +kernel
  obtain ⟨c, visits, compiled, tours, lists, binds⟩ := compile_binds found
  refine ⟨found, c, visits, compiled, tours, lists, binds, ?_⟩
  obtain rfl : shadowing.compile = c := Except.ok.inj ((compile?_eq_ok found).symm.trans compiled)
  decide +kernel

end World

end Quill
