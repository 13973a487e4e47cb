import Quill.Proofs.Compile.Expansion
import Quill.Proofs.Compile.Shadowing
import Quill.Proofs.Data.Lists
import Quill.Proofs.Markup.Renamed

/-!
# Worlds that differ in names and places only

Two worlds are alike if one has other names than the other, and has them in other places, but which
names are equal and which place comes before which is the same in both. An expansion cannot tell
them apart.

Labels and bindings are told apart by their names and by where they stand, so names resolve alike
too. Only the inputs of a compile are not named by any document: a use that means an input loses it
when the name becomes another one.

## Main definitions

* `Likeness` — what names and places of one world correspond to in another one.
* `Likeness.SameItem`, `Likeness.SameModule`, `Likeness.SameWorld` — items, documents and worlds
  that are alike.
* `Likeness.SameExpansion` — expansions that are alike.
* `Likeness.SameReference`, `Likeness.SameUse` — references and uses that mean the same.
* `Resolution.takesInput` — the uses that lose their input.
* `Likeness.SameCompiled` — compiles that come to the same.

## Main statements

* `Likeness.SameWorld.expand` — worlds that are alike have expansions that are alike.
* `Likeness.SameWorld.compile` — worlds that are alike compile to the same.
-/

namespace Quill

open List (Forall₂)

/-- What the names of one world, and the offsets of its documents, correspond to in another one.
Equal names correspond to equal names, and the order of places is the same. -/
structure Likeness where
  name : NameKind → Text → Text → Prop
  place : Uri → Int → Int → Prop
  name_eq_iff : ∀ {k a a' b b'}, name k a a' → name k b b' → (a = b ↔ a' = b')
  place_le_iff : ∀ {u x x' y y'}, place u x x' → place u y y' → (x ≤ y ↔ x' ≤ y')

structure Report.Same (r r' : Report) : Prop where
  uri : r'.uri = r.uri
  code : r'.finding.code = r.finding.code

namespace Likeness

variable (L : Likeness)

/-! ## Documents and worlds -/

structure SameMark (k : NameKind) (u : Uri) (m m' : Mark) : Prop where
  name : L.name k m.name m'.name
  span : m.span.Moved (L.place u) m'.span
  nameSpan : m.nameSpan.Moved (L.place u) m'.nameSpan

/-- Bindings that are alike; what their values read does not matter. -/
structure SameBinding (u : Uri) (b b' : Binding) : Prop where
  name : L.name .binding b.name b'.name
  span : b.span.Moved (L.place u) b'.span
  nameSpan : b.nameSpan.Moved (L.place u) b'.nameSpan
  valueSpan : b.valueSpan.Moved (L.place u) b'.valueSpan

/-- Items of a document that are alike; what headings read does not matter. -/
inductive SameItem (u : Uri) : Item → Item → Prop
  | heading (h h' : Heading) : SameItem u (.heading h) (.heading h')
  | label {m m' : Mark} (same : L.SameMark .label u m m') : SameItem u (.label m) (.label m')
  | reference {m m' : Mark} (same : L.SameMark .label u m m') :
      SameItem u (.reference m) (.reference m')
  | binding {b b' : Binding} (same : L.SameBinding u b b') : SameItem u (.binding b) (.binding b')
  | use {m m' : Mark} (same : L.SameMark .binding u m m') : SameItem u (.use m) (.use m')
  | inclusion {i i' : Inclusion} (same : i.Moved (L.place u) i') :
      SameItem u (.inclusion i) (.inclusion i')

structure SameModule (u : Uri) (m m' : Module) : Prop where
  items : Forall₂ (L.SameItem u) m.items m'.items
  errors : Forall₂ (SyntaxError.Moved (L.place u)) m.errors m'.errors

/-- Worlds with the same documents, which are alike as far as inclusions lead from the entry. -/
structure SameWorld (inside : Uri → Prop) (w w' : World) : Prop where
  entry : w'.entry = w.entry
  settings : w'.settings = w.settings
  length : w'.sources.length = w.sources.length
  present : ∀ u, (w'.source? u).isSome = (w.source? u).isSome
  inside_entry : inside w.entry
  inside_target : ∀ {u src i}, inside u → w.source? u = some src → .inclusion i ∈ src.module.items →
    (w.source? i.target).isSome → inside i.target
  modules : ∀ {u src src'}, inside u → w.source? u = some src → w'.source? u = some src' →
    L.SameModule u src.module src'.module

/-! ## Expansions -/

structure SamePlaced (p p' : PlacedItem) : Prop where
  uri : p'.uri = p.uri
  item : L.SameItem p.uri p.item p'.item

structure SameExpansion (s s' : Expansion) : Prop where
  files : s'.files = s.files
  placed : Forall₂ L.SamePlaced s.placed s'.placed
  reports : Forall₂ Report.Same s.reports s'.reports

variable {L} {inside : Uri → Prop} {w w' : World} {u : Uri} {m m' : Module} {i i' : Inclusion}
  {t t' : Item} {s s' : Expansion}

theorem SameExpansion.addReport (h : L.SameExpansion s s') {r r' : Report} (same : r.Same r') :
    L.SameExpansion (s.addReport r) (s'.addReport r') :=
  ⟨h.files, h.placed, List.rel_append h.reports (.cons same .nil)⟩

theorem SameExpansion.addEdge (h : L.SameExpansion s s') (u : Uri) (i i' : Inclusion)
    (status : IncludeStatus) :
    L.SameExpansion (s.addEdge u i status) (s'.addEdge u i' status) :=
  ⟨h.files, h.placed, h.reports⟩

theorem SameExpansion.addItem (h : L.SameExpansion s s') (same : L.SameItem u t t') :
    L.SameExpansion (s.addItem u t) (s'.addItem u t') :=
  ⟨h.files, List.rel_append h.placed (.cons ⟨rfl, same⟩ .nil), h.reports⟩

theorem SameExpansion.addFile (h : L.SameExpansion s s') (same : L.SameModule u m m') :
    L.SameExpansion (s.addFile u m) (s'.addFile u m') := by
  refine ⟨by simp [Expansion.addFile, h.files], h.placed, List.rel_append h.reports ?_⟩
  rw [List.forall₂_map_left_iff, List.forall₂_map_right_iff]
  exact same.errors.imp fun e e' same => ⟨rfl, congrArg SyntaxProblem.code same.problem⟩

namespace SameWorld

variable (same : L.SameWorld inside w w')
include same

/-- An inclusion is expanded alike if what lies deeper is. -/
theorem expandInclusion {deeper deeper' : List Uri → Uri → Expansion → Expansion}
    (deep : ∀ chain {s s'}, (w.source? i.target).isSome → L.SameExpansion s s' →
      L.SameExpansion (deeper chain i.target s) (deeper' chain i.target s'))
    (target : i'.target = i.target) (chain : List Uri) (u : Uri) (h : L.SameExpansion s s') :
    L.SameExpansion (w.expandInclusion deeper chain u i s)
      (w'.expandInclusion deeper' chain u i' s') := by
  have present : (w'.source? i.target).isNone = (w.source? i.target).isNone := by
    rw [← Option.not_isSome, ← Option.not_isSome, same.present]
  rw [World.expandInclusion, World.expandInclusion, target, present, h.files]
  split
  · exact (h.addEdge u i i' _).addReport ⟨rfl, rfl⟩
  split
  · exact (h.addEdge u i i' _).addReport ⟨rfl, rfl⟩
  next there =>
    split
    · exact h.addEdge u i i' _
    · exact deep _ (Option.isSome_iff_ne_none.2 (by simpa using there)) (h.addEdge u i i' _)

theorem expandFile (depth : Nat) (chain : List Uri) (inner : inside u) (h : L.SameExpansion s s') :
    L.SameExpansion (w.expandFile depth chain u s) (w'.expandFile depth chain u s') := by
  induction depth generalizing chain u s s' with
  | zero => exact h
  | succ depth ih =>
    have present := same.present u
    cases found : w.source? u with
    | none =>
      have none : w'.source? u = none := by simpa [found] using present
      simpa only [World.expandFile, found, none] using h
    | some src =>
      obtain ⟨src', found'⟩ := Option.isSome_iff_exists.1 (present.trans (by simp [found]))
      have alike := same.modules inner found found'
      have inner_target {i : Inclusion} (mem : .inclusion i ∈ src.module.items)
          (there : (w.source? i.target).isSome) : inside i.target :=
            same.inside_target inner found mem there
      rw [World.expandFile_succ found, World.expandFile_succ found']
      have start := h.addFile alike
      have items := alike.items
      generalize s.addFile u src.module = s, s'.addFile u src'.module = s' at start
      -- item by item; of the document only where its inclusions lead is still needed
      generalize src.module.items = list, src'.module.items = list' at items inner_target
      clear alike found found'
      induction items generalizing s s' with
      | nil => exact start
      | @cons t t' list list' first rest more =>
        refine more _ _ ?_ fun mem => inner_target (List.mem_cons_of_mem _ mem)
        cases first with
        | inclusion moved =>
          exact same.expandInclusion
            (fun chain s s' there => ih chain (inner_target List.mem_cons_self there))
              moved.target chain u start
        | heading | label | reference | binding | use =>
          exact start.addItem (by constructor <;> assumption)

/-- Worlds that are alike have expansions that are alike. -/
theorem expand : L.SameExpansion w.expand w'.expand := by
  rw [World.expand, World.expand, same.length, same.entry]
  exact same.expandFile _ _ same.inside_entry ⟨rfl, .nil, .nil⟩

end SameWorld

end Likeness

namespace Likeness

variable {L : Likeness} {u : Uri} {k : NameKind} {s s' t t' : Span}

/-! ## Places and names -/

theorem within_eq (h : s.Moved (L.place u) s') (h' : t.Moved (L.place u) t') :
    s.within t = s'.within t' := by
  have start := L.place_le_iff h'.1 h.1
  have stop := L.place_le_iff h.2 h'.2
  simp only [Span.within, start, stop]

theorem name_beq {a a' b b' : Text} (h : L.name k a a') (h' : L.name k b b') :
    (a == b) = (a' == b') := by
  rw [Bool.eq_iff_iff, beq_iff_eq, beq_iff_eq, L.name_eq_iff h h']

variable (L)

/-! ## What is resolved -/

structure SameLabel (l l' : Resolution.PlacedLabel) : Prop where
  uri : l'.uri = l.uri
  mark : L.SameMark .label l.uri l.mark l'.mark

structure SameDefinition (d d' : LabelDefinition) : Prop where
  uri : d'.uri = d.uri
  name : L.name .label d.name d'.name
  span : d.span.Moved (L.place d.uri) d'.span
  nameSpan : d.nameSpan.Moved (L.place d.uri) d'.nameSpan

/-- A place in one document and what it corresponds to. -/
def SameSpot (e e' : Uri × Span) : Prop := e'.1 = e.1 ∧ e.2.Moved (L.place e.1) e'.2

/-- References that are alike and lead to the same label. -/
structure SameReference (r r' : ResolvedReference) : Prop where
  uri : r'.uri = r.uri
  name : L.name .label r.name r'.name
  span : r.span.Moved (L.place r.uri) r'.span
  target : Option.Rel L.SameSpot r.target r'.target

structure SamePlacedBinding (b b' : Resolution.PlacedBinding) : Prop where
  uri : b'.uri = b.uri
  binding : L.SameBinding b.uri b.binding b'.binding

/-- Uses in their places that are alike and mean the same binding. -/
structure SamePlacedUse (v v' : Resolution.PlacedUse) : Prop where
  uri : v'.uri = v.uri
  mark : L.SameMark .binding v.uri v.mark v'.mark
  target : v'.target = v.target

structure SameBindingDefinition (b b' : BindingDefinition) : Prop where
  uri : b'.uri = b.uri
  name : L.name .binding b.name b'.name
  span : b.span.Moved (L.place b.uri) b'.span
  nameSpan : b.nameSpan.Moved (L.place b.uri) b'.nameSpan
  used : b'.used = b.used

end Likeness

namespace Resolution

def takesInput (lost : Text → Bool) (v : ResolvedUse) : Bool :=
  lost v.name && match v.target with
    | some (.input _) => true
    | _ => false

end Resolution

namespace Likeness

variable (L : Likeness) (lost : Text → Bool)

/-- Uses that are alike and mean the same, unless they lose an input. -/
structure SameUse (v v' : ResolvedUse) : Prop where
  uri : v'.uri = v.uri
  name : L.name .binding v.name v'.name
  span : v.span.Moved (L.place v.uri) v'.span
  target : (∃ b b', v.target = some (.binding b) ∧ v'.target = some (.binding b') ∧
      L.SameBindingDefinition b b') ∨
    (∀ b, v.target ≠ some (.binding b)) ∧ v'.target = if lost v.name then none else v.target

/-- Compiles that come to the same: the files, the definitions, and what references and uses mean;
and as many diagnostics of every code for every file, but for an unknown variable for each use that
loses an input. -/
structure SameCompiled (c c' : Compiled) : Prop where
  files : c'.artifact.files = c.artifact.files
  labels : Forall₂ L.SameDefinition c.artifact.labels c'.artifact.labels
  references : Forall₂ L.SameReference c.artifact.references c'.artifact.references
  bindings : Forall₂ L.SameBindingDefinition c.artifact.bindings c'.artifact.bindings
  uses : Forall₂ (L.SameUse lost) c.artifact.uses c'.artifact.uses
  diagnostics : Forall₂ (fun e e' => e'.1 = e.1 ∧ ∀ code : Text,
    e'.2.countP (·.code = code) = e.2.countP (·.code = code) +
      if code = "unknown-variable" then
        c.artifact.uses.countP fun v => v.uri = e.1 && Resolution.takesInput lost v
      else 0) c.diagnostics c'.diagnostics

variable {L} {lost} {placed placed' : List PlacedItem}

/-! ## Labels and references -/

theorem placedLabels_same (h : Forall₂ L.SamePlaced placed placed')
    (current current' : Option (Uri × Heading)) :
    Forall₂ L.SameLabel (Resolution.placedLabels current placed)
      (Resolution.placedLabels current' placed') := by
  induction h generalizing current current' with
  | nil => exact .nil
  | @cons p p' placed placed' first rest ih =>
    obtain ⟨uri, item⟩ := p
    obtain ⟨uri', item'⟩ := p'
    obtain ⟨uri_eq, same⟩ := first
    cases same with
    | heading h h' => exact ih _ _
    | label same => exact .cons ⟨uri_eq, same⟩ (ih _ _)
    | reference | binding | use | inclusion => exact ih _ _

variable {known known' : List LabelDefinition} {labels labels' : List Resolution.PlacedLabel}

theorem SameLabel.definition {l l' : Resolution.PlacedLabel} (h : L.SameLabel l l') :
    L.SameDefinition l.definition l'.definition :=
  ⟨h.uri, h.mark.name, h.mark.span, h.mark.nameSpan⟩

theorem firstLabels_same (h : Forall₂ L.SameLabel labels labels')
    (k : Forall₂ L.SameDefinition known known') :
    Forall₂ L.SameDefinition (Resolution.firstLabels known labels)
      (Resolution.firstLabels known' labels') := by
  induction h generalizing known known' with
  | nil => exact .nil
  | @cons l l' labels labels' first rest ih =>
    rw [Resolution.firstLabels, Resolution.firstLabels,
      Related.any_eq k fun d d' same => name_beq same.name first.mark.name]
    split
    · exact ih k
    · exact .cons first.definition (ih (List.rel_append k (.cons first.definition .nil)))

theorem duplicates_same (h : Forall₂ L.SameLabel labels labels')
    (k : Forall₂ L.SameDefinition known known') :
    Forall₂ Report.Same (Resolution.duplicates known labels)
      (Resolution.duplicates known' labels') := by
  induction h generalizing known known' with
  | nil => exact .nil
  | @cons l l' labels labels' first rest ih =>
    rw [Resolution.duplicates, Resolution.duplicates]
    rcases Related.cases (Related.find? k fun d d' same => name_beq same.name first.mark.name) with
      ⟨none, none'⟩ | ⟨d, d', found, found', -⟩
    · simpa only [none, none'] using ih (List.rel_append k (.cons first.definition .nil))
    · simpa only [found, found'] using .cons ⟨first.uri, rfl⟩ (ih k)

theorem references_same (h : Forall₂ L.SamePlaced placed placed')
    (k : Forall₂ L.SameDefinition known known') :
    Forall₂ L.SameReference (Resolution.references known placed)
      (Resolution.references known' placed') := by
  refine List.rel_filterMap (fun p p' same => ?_) h
  obtain ⟨uri, item⟩ := p
  obtain ⟨uri', item'⟩ := p'
  obtain ⟨uri_eq, same⟩ := same
  cases same with
  | reference same =>
    refine .some ⟨uri_eq, same.name, same.span, ?_⟩
    rcases Related.cases (Related.find? k fun d d' defines => name_beq defines.name same.name) with
      ⟨none, none'⟩ | ⟨d, d', found, found', defines⟩
    · simpa only [none, none'] using .none
    · simpa only [found, found'] using .some ⟨defines.uri, defines.nameSpan⟩
  | heading | label | binding | use | inclusion => exact .none

/-! ## Bindings and uses -/

variable {bs bs' : List Resolution.PlacedBinding} {vs vs' : List Resolution.PlacedUse}

theorem placedBindings_same (h : Forall₂ L.SamePlaced placed placed') :
    Forall₂ L.SamePlacedBinding (Resolution.placedBindings placed)
      (Resolution.placedBindings placed') := by
  refine List.rel_filterMap (fun p p' same => ?_) h
  obtain ⟨uri, item⟩ := p
  obtain ⟨uri', item'⟩ := p'
  obtain ⟨uri_eq, same⟩ := same
  cases same with
  | binding same => exact .some ⟨uri_eq, same⟩
  | heading | label | reference | use | inclusion => exact .none

theorem mayMean_eq {uri uri' : Uri} (uri_eq : uri' = uri)
    {m m' : Mark} (mark : L.SameMark .binding uri m m')
    {b b' : Resolution.PlacedBinding} (h : L.SamePlacedBinding b b') :
    Resolution.mayMean uri m b = Resolution.mayMean uri' m' b' := by
  rw [Resolution.mayMean, Resolution.mayMean, name_beq h.binding.name mark.name, uri_eq, h.uri]
  by_cases own : b.uri = uri
  · subst own
    rw [within_eq mark.span h.binding.valueSpan]
  · simp [beq_eq_false_iff_ne.2 own]

theorem lastIndex?_eq {p p' : Resolution.PlacedBinding → Bool}
    (h : Forall₂ L.SamePlacedBinding bs bs')
    (same : ∀ b b', L.SamePlacedBinding b b' → p b = p' b') :
    Resolution.lastIndex? p bs = Resolution.lastIndex? p' bs' := by
  have pairs := List.rel_reverse (Related.zipIdx h 0)
  rw [Resolution.lastIndex?, Resolution.lastIndex?]
  rcases Related.cases (Related.find? pairs fun e e' h => same _ _ h.1) with
    ⟨none, none'⟩ | ⟨e, e', found, found', -, index⟩
  · rw [none, none']
  · rw [found, found']
    exact congrArg some index

theorem placedUses_same (h : Forall₂ L.SamePlaced placed placed')
    (k : Forall₂ L.SamePlacedBinding bs bs') :
    Forall₂ L.SamePlacedUse (Resolution.placedUses bs placed)
      (Resolution.placedUses bs' placed') := by
  induction h generalizing bs bs' with
  | nil => exact .nil
  | @cons p p' placed placed' first rest ih =>
    obtain ⟨uri, item⟩ := p
    obtain ⟨uri', item'⟩ := p'
    obtain ⟨uri_eq, same⟩ := first
    cases same with
    | binding same => exact ih (List.rel_append k (.cons ⟨uri_eq, same⟩ .nil))
    | use same =>
      refine .cons ⟨uri_eq, same, ?_⟩ (ih k)
      exact (lastIndex?_eq k fun b b' => mayMean_eq uri_eq same).symm
    | heading | label | reference | inclusion => exact ih k

theorem bindings_same (h : Forall₂ L.SamePlacedBinding bs bs')
    (k : Forall₂ L.SamePlacedUse vs vs') :
    Forall₂ L.SameBindingDefinition (Resolution.bindings bs vs) (Resolution.bindings bs' vs') := by
  rw [Resolution.bindings, Resolution.bindings, List.forall₂_map_left_iff,
    List.forall₂_map_right_iff]
  refine (Related.zipIdx h 0).imp fun e e' h => ?_
  obtain ⟨same, index⟩ := h
  have used : vs.any (·.target == some e.2) = vs'.any (·.target == some e'.2) :=
    Related.any_eq k fun v v' h => by rw [h.target, index]
  exact ⟨same.uri, same.binding.name, same.binding.span, same.binding.nameSpan, used.symm⟩

variable {inputs : Dict Text Text} {ds ds' : List BindingDefinition}

theorem uses_same (keeps : ∀ {a a'}, L.name .binding a a' →
      Dict.get? inputs a' = if lost a then none else Dict.get? inputs a)
    (h : Forall₂ L.SameBindingDefinition ds ds') (k : Forall₂ L.SamePlacedUse vs vs') :
    Forall₂ (L.SameUse lost) (Resolution.uses inputs ds vs) (Resolution.uses inputs ds' vs') := by
  rw [Resolution.uses, Resolution.uses, List.forall₂_map_left_iff, List.forall₂_map_right_iff]
  refine k.imp fun v v' same => ⟨same.uri, same.mark.name, same.mark.span, ?_⟩
  have found :
      Option.Rel L.SameBindingDefinition (v.target.bind (ds[·]?)) (v'.target.bind (ds'[·]?)) := by
    rw [same.target]
    cases v.target with
    | none => exact .none
    | some i => exact Related.getElem? h i
  rcases Related.cases found with ⟨none, none'⟩ | ⟨b, b', eq, eq', defines⟩
  · simp only [none, none', keeps same.mark.name]
    refine .inr ⟨by simp, ?_⟩
    split <;> rfl
  · simp only [eq, eq']
    exact .inl ⟨b, b', rfl, rfl, defines⟩

/-! ## Reports and diagnostics -/

def tally (uri : Uri) (code : Text) (rs : List Report) : Nat :=
  rs.countP fun r => r.uri == uri && r.finding.code == code

variable {uri : Uri} {code : Text} {rs rs' : List ResolvedReference} {us us' : List ResolvedUse}

theorem tally_append (a b : List Report) :
    tally uri code (a ++ b) = tally uri code a + tally uri code b :=
  List.countP_append

theorem tally_eq {a b : List Report} (h : Forall₂ Report.Same a b) :
    tally uri code b = tally uri code a :=
  (Related.countP_eq h fun r r' same => by rw [same.uri, same.code]).symm

theorem tally_unknownLabels (h : Forall₂ L.SameReference rs rs') :
    tally uri code (Resolution.unknownLabels rs') =
      tally uri code (Resolution.unknownLabels rs) := by
  simp only [tally, Resolution.unknownLabels, List.countP_map, List.countP_filter]
  refine (Related.countP_eq h fun r r' same => ?_).symm
  rcases Related.cases same.target with ⟨none, none'⟩ | ⟨e, e', found, found', -⟩
  · simp [none, none', same.uri, Finding.code]
  · simp [found, found']

theorem tally_unusedBindings (h : Forall₂ L.SameBindingDefinition ds ds') :
    tally uri code (Resolution.unusedBindings ds') =
      tally uri code (Resolution.unusedBindings ds) := by
  simp only [tally, Resolution.unusedBindings, List.countP_map, List.countP_filter]
  exact (Related.countP_eq h fun b b' same => by simp [same.uri, same.used, Finding.code]).symm

def isUnknown (uri : Uri) (code : Text) (v : ResolvedUse) : Bool :=
  v.uri = uri && code = "unknown-variable" && v.target.isNone

theorem tally_eq_countP_isUnknown (us : List ResolvedUse) :
    tally uri code (Resolution.unknownVariables us) = us.countP (isUnknown uri code) := by
  simp only [tally, Resolution.unknownVariables, List.countP_map, List.countP_filter]
  refine List.countP_congr fun v _ => ?_
  simp [isUnknown, Finding.code, eq_comm (a := code)]

/-- A use that loses an input is unknown afterwards, and was not before. -/
theorem SameUse.isUnknown_eq {v v' : ResolvedUse} (h : L.SameUse lost v v') :
    (if isUnknown uri code v' then 1 else 0) = (if isUnknown uri code v then 1 else 0) +
      if code = "unknown-variable" then if v.uri = uri && Resolution.takesInput lost v then 1
      else 0 else 0 := by
  rw [isUnknown, isUnknown, h.uri]
  by_cases unknown : code = Text.ofString "unknown-variable"
  · rcases h.target with ⟨b, b', means, means', -⟩ | ⟨other, means'⟩
    · simp [means, means', Resolution.takesInput]
    · cases means : v.target with
      | none => cases lost v.name <;> simp [means, means', Resolution.takesInput]
      | some target =>
        cases target with
        | binding b => exact absurd means (other b)
        | input value => cases named : lost v.name <;>
          simp [means, means', named, unknown, Resolution.takesInput]
  · simp [unknown]

theorem tally_unknownVariables (h : Forall₂ (L.SameUse lost) us us') :
    tally uri code (Resolution.unknownVariables us') =
      tally uri code (Resolution.unknownVariables us) +
      if code = "unknown-variable" then us.countP fun v =>
        v.uri = uri && Resolution.takesInput lost v else 0 := by
  rw [tally_eq_countP_isUnknown, tally_eq_countP_isUnknown]
  induction h with
  | nil => simp
  | @cons v v' us us' first rest ih =>
    simp only [List.countP_cons, ih, first.isUnknown_eq]
    split <;> omega

theorem countP_diagnostics (tables : Dict Uri LineTable) (reports : List Report) :
    (Diagnostic.sort ((reports.filter (·.uri == uri)).map (World.diagnose tables))).countP
      (·.code = code) =
      tally uri code reports := by
  rw [Diagnostic.sort, (sortBy_perm _ _).countP_eq, List.countP_map, List.countP_filter, tally]
  refine List.countP_congr fun r _ => ?_
  simp only [Function.comp_apply, Bool.and_eq_true, decide_eq_true_eq, beq_iff_eq]
  exact and_comm

/-! ## Compiles -/

/-- Worlds that are alike compile to the same, if only the inputs with names that are lost have
become others. -/
theorem SameWorld.compile {inside : Uri → Prop} {w w' : World} (same : L.SameWorld inside w w')
    (keeps : ∀ {a a'}, L.name .binding a a' →
      Dict.get? w.settings.inputs a' = if lost a then none else Dict.get? w.settings.inputs a) :
    L.SameCompiled lost w.compile w'.compile := by
  have expanded := same.expand
  have placedLabels := placedLabels_same expanded.placed none none
  have labels := firstLabels_same placedLabels .nil
  have references :
      Forall₂ L.SameReference w.compile.artifact.references w'.compile.artifact.references :=
    references_same expanded.placed labels
  have placedBindings := placedBindings_same expanded.placed
  have placedUses := placedUses_same expanded.placed .nil
  have settings := same.settings
  have bindings :
      Forall₂ L.SameBindingDefinition w.compile.artifact.bindings w'.compile.artifact.bindings := by
    rw [World.bindings_compile, World.bindings_compile]
    exact bindings_same placedBindings placedUses
  have uses : Forall₂ (L.SameUse lost) w.compile.artifact.uses w'.compile.artifact.uses := by
    rw [World.uses_compile, World.uses_compile, settings]
    exact uses_same keeps bindings placedUses
  refine ⟨expanded.files, labels, references, bindings, uses, ?_⟩
  have files : w'.compile.artifact.files = w.compile.artifact.files := expanded.files
  simp only [World.diagnostics_compile, World.diagnostics, files, List.forall₂_map_left_iff,
    List.forall₂_map_right_iff]
  refine List.forall₂_same.2 fun uri _ => ⟨rfl, fun code => ?_⟩
  simp only [countP_diagnostics, World.reports, tally_append, tally_eq expanded.reports,
    tally_eq (duplicates_same placedLabels .nil),
    tally_unknownLabels references, tally_unknownVariables uses, tally_unusedBindings bindings]
  omega

end Likeness

end Quill
