import Mathlib.Data.List.TFAE
import Quill.Proofs.Analysis.Symbols
import Quill.Proofs.Compile.Findings
import Quill.Proofs.Compile.Scope
import Quill.Proofs.Flow.Computed
import Quill.Proofs.Markup.Cursor

/-!
# Looking up what an item means

A reference is looked up in an artifact by its name to describe it and by where it begins to locate
it, a use by its whole place and by where it begins. The items of the entry are listed once, and
they begin at different places. So all of this finds one meaning, which is also the one that is
reported when there is none.

## Main definitions

* `Resolution.FirstLabel` — the first label of its name.
* `Denotation` — what a reference or a use may mean, with its description and its place.
* `World.Resolves` — what an item means among the placed items.
* `Snapshot.Agree` — diagnostics, hover and definition are of one meaning.

## Main statements

* `World.Tours.exists_listed` — an item of a file is listed, and nothing else of the file is where
  it is.
* `World.Tours.reported_iff` — a report is in the range of an item exactly if the item lacks
  something.
* `World.exists_meaning` — a reference or a use of a file has one meaning.
* `Snapshot.answers_agree` — under every cursor the answers agree with the diagnostics.
-/

namespace Quill

/-! ## Meanings -/

def Resolution.FirstLabel (placed : List PlacedItem) (l : LabelDefinition) : Prop :=
  ∃ front m behind, placed = front ++ ⟨l.uri, .label m⟩ :: behind ∧ l.name = m.name ∧
  l.span = m.span ∧
    l.nameSpan = m.nameSpan ∧ ∀ x ∈ front, ∀ m', x.item = .label m' → m'.name ≠ m.name

/-- What a reference or a use may mean. -/
inductive Denotation where
  | label (l : LabelDefinition)
  | binding (b : BindingDefinition)
  | input (value : Text)

namespace Denotation

def ofTarget : UseTarget → Denotation
  | .binding b => binding b
  | .input value => input value

def description (uri : Uri) (name : Text) : Denotation → Text
  | label l =>
    let heading : Text :=
      (l.heading.map fun title : Text => (" on **" ++ title ++ "**" : Text)).getD []
    let place : Text := if l.uri = uri then [] else " in " ++ Hover.code (uri.display l.uri)
    "Label " ++ Hover.code name ++ heading ++ place
  | binding b => Hover.bindingBlock b.name b.value
  | input value => Hover.code name ++ " = " ++ Hover.code value ++ " (compile input)"

/-- The document and the place of the name of what is meant; inputs are defined nowhere. -/
def place? : Denotation → Option (Uri × Span)
  | label l => some (l.uri, l.nameSpan)
  | binding b => some (b.uri, b.nameSpan)
  | input _ => none

end Denotation

/-- The mark of a reference or a use, and the finding with which it is reported when it means
nothing. -/
def Item.unknown? : Item → Option (Mark × Finding)
  | reference m => some (m, .unknownLabel m.name)
  | use m => some (m, .unknownVariable m.name)
  | _ => none

def Hover.unknown : Finding → Text
  | .unknownLabel name => "Unknown label " ++ code name
  | .unknownVariable name => "Unknown variable " ++ code name
  | _ => []

/-- What an item of the document `uri` means among the placed items: a reference means the first
label of its name, a use the binding that it stands for in its place, or else the input of its
name. -/
inductive World.Resolves (w : World) (placed : List PlacedItem) (uri : Uri) :
    Item → Option Denotation → Prop
  | label {m : Mark} {l : LabelDefinition} (first : Resolution.FirstLabel placed l)
    (name : l.name = m.name) :
    Resolves w placed uri (.reference m) (some (.label l))
  | noLabel {m : Mark} (nowhere : ∀ x ∈ placed, ∀ m', x.item = .label m' → m'.name ≠ m.name) :
    Resolves w placed uri (.reference m) none
  | use {m : Mark} {p : Nat} {target : Option UseTarget}
    (resolves : Resolution.Resolves w.settings.inputs placed p ⟨m.name, uri, m.span, target⟩) :
    Resolves w placed uri (.use m) (target.map .ofTarget)

/-- The diagnostics of the entry and the answers to a hover and a definition are of one meaning of
an item, which is reported as `f` when it means nothing. -/
structure Snapshot.Agree (s : Snapshot) (entry : Uri) (m : Mark) (f : Finding)
    (meaning : Option Denotation)
    (reported : List Diagnostic) (info : HoverInfo) (found : List Location) : Prop where
  /-- The item means nothing; this is reported in its range; a hover says so; it leads nowhere and
  means no input. -/
  unknown : List.TFAE [meaning = none,
    ∃ d ∈ reported, d.code = f.code ∧ d.range = s.rangeOf entry m.span,
    info.contents = Hover.unknown f,
    found = [] ∧ ∀ value, meaning ≠ some (.input value)]
  /-- A hover describes what the item means, and this is where the definition leads. -/
  known : ∀ k, meaning = some k → info.contents = k.description entry m.name ∧
    found = (k.place?.map fun p => ⟨p.1, s.rangeOf p.1 p.2⟩).toList
  range : info.range = s.rangeOf entry m.span

/-- The codes with which a name is reported that means nothing. -/
def Finding.unknownCodes : List Text := ["unknown-label", "unknown-variable"]

theorem SyntaxProblem.code_not_mem (p : SyntaxProblem) : p.code ∉ Finding.unknownCodes := by
  cases p <;> simp only [code] <;> decide

theorem Item.span_of_reference? (item : Item) (m : Mark) (picked : item.reference? = some m) :
    item.span = m.span ∧ item.inclusion? = none := by
  cases item <;> simp_all [reference?, span, inclusion?]

theorem Item.span_of_use? (item : Item) (m : Mark) (picked : item.use? = some m) :
    item.span = m.span ∧ item.inclusion? = none := by
  cases item <;> simp_all [use?, span, inclusion?]

/-! ## What is listed of a file -/

namespace World

variable {w : World} {visits : List Visit} {files : List Uri} {uri : Uri} {t : Text} {α : Type}
  {l : List α} {place : α → Uri × Text × Span} {pick : Item → Option Mark} {m : Mark} {a : α}

theorem rangeOf_eq (source : w.source? uri = some (.ofText uri t)) (s : Span) :
    w.rangeOf uri s = (LineTable.ofText t).rangeOf s := by
  rw [rangeOf, source]
  rfl

section listed

variable (picks : ∀ item m, pick item = some m → item.span = m.span ∧ item.inclusion? = none)
  (listed : l.map place = visits.filterMap fun v => (pick v.item).map fun m =>
    (v.uri, m.name, m.span))
  (tours : w.Tours visits files) (mem : uri ∈ files) (source : w.source? uri = some (.ofText uri t))
include picks listed tours mem source

omit picks in
theorem Tours.map_filter : (l.filter fun a => (place a).1 = uri).map place =
    (Module.read uri t).items.filterMap fun item => (pick item).map fun m =>
      (uri, m.name, m.span) := by
  have own : (visits.filter (·.uri = uri)).map (·.item) = (Module.read uri t).items :=
    tours.items uri mem _ source
  calc (l.filter fun a => (place a).1 = uri).map place
    _ = (l.map place).filter fun e => e.1 = uri := by rw [List.filter_map]; rfl
    _ = (visits.filter (·.uri = uri)).filterMap fun v => (pick v.item).map fun m =>
      (uri, m.name, m.span) := by
        rw [listed, List.filter_filterMap, List.filterMap_filter]
        refine List.filterMap_congr fun v _ => ?_
        by_cases here : v.uri = uri <;> cases pick v.item <;> simp [here, Option.filter]
    _ = _ := by rw [← own, List.filterMap_map]; rfl

/-- An item of a file is listed, and nothing else of the file is where it is. -/
theorem Tours.exists_listed {item : Item} (inside : item ∈ (Module.read uri t).items)
    (picked : pick item = some m) : ∃ a ∈ l, place a = (uri, m.name, m.span) ∧
      ∀ b ∈ l, (place b).1 = uri → (place b).2.2.start = m.span.start → b = a := by
  have own := tours.map_filter listed mem source
  have there : (uri, m.name, m.span) ∈ (l.filter fun a => (place a).1 = uri).map place := by
    rw [own]
    exact List.mem_filterMap.2 ⟨item, inside, by rw [picked]; rfl⟩
  obtain ⟨a, at_a, eq⟩ := List.mem_map.1 there
  refine ⟨a, (List.mem_filter.1 at_a).1, eq, fun b at_b here start => ?_⟩
  have sorted : ((l.filter fun a => (place a).1 = uri).map place).Pairwise
      fun x y => x.2.2.start < y.2.2.start := by
    rw [own, List.pairwise_filterMap]
    refine (Module.pairwise_start_lt uri t).imp fun {i j} before e eq e' eq' => ?_
    obtain ⟨m, picked, rfl⟩ := Option.map_eq_some_iff.1 eq
    obtain ⟨m', picked', rfl⟩ := Option.map_eq_some_iff.1 eq'
    have first := picks i m picked
    have second := picks j m' picked'
    simpa [← first.1, ← second.1] using before first.2
  have apart := (List.pairwise_map.1 sorted).imp fun lt => Int.ne_of_lt lt
  by_contra other
  have : Std.Symm fun a b : α => (place a).2.2.start ≠ (place b).2.2.start := ⟨fun _ _ => Ne.symm⟩
  have ne := apart.forall (List.mem_filter.2 ⟨at_b, by simpa using here⟩) at_a other
  exact ne (start.trans (by rw [eq]))

/-- What is listed of a file begins where an item of it does. -/
theorem Tours.exists_item (at_a : a ∈ l) (here : (place a).1 = uri) :
    ∃ item ∈ (Module.read uri t).items, item.span = (place a).2.2 := by
  have there : place a ∈ (l.filter fun a => (place a).1 = uri).map place :=
    List.mem_map_of_mem (List.mem_filter.2 ⟨at_a, by simpa using here⟩)
  rw [tours.map_filter listed mem source] at there
  obtain ⟨item, inside, eq⟩ := List.mem_filterMap.1 there
  obtain ⟨m, picked, eq⟩ := Option.map_eq_some_iff.1 eq
  exact ⟨item, inside, by rw [← eq]; exact (picks item m picked).1⟩

/-- If the reports with a code are on what is listed and lacks something, then there is one in the
range of an item exactly if the item lacks it. -/
theorem Tours.reported_iff {reports : List Report} {code : Text} (lacks : α → Prop)
    (reported : ∀ r ∈ reports, r.finding.code = code →
      r.uri = uri ∧ ∃ b ∈ l, (place b).1 = uri ∧ lacks b ∧ (place b).2.2 = r.span)
    (lacking : ∀ b ∈ l, (place b).1 = uri → lacks b →
      ∃ r ∈ reports, r.finding.code = code ∧ r.uri = uri ∧ r.span = (place b).2.2)
    (at_a : a ∈ l) (eq : place a = (uri, m.name, m.span))
    (alone : ∀ b ∈ l, (place b).1 = uri → (place b).2.2.start = m.span.start → b = a) :
    (∃ d ∈ reports.map w.diagnosticOf, d.code = code ∧ d.range = w.rangeOf uri m.span) ↔
    lacks a := by
  constructor
  · rintro ⟨d, mem_d, code_eq, range⟩
    obtain ⟨r, mem_r, rfl⟩ := List.mem_map.1 mem_d
    obtain ⟨own, b, at_b, here, lack, span⟩ := reported r mem_r code_eq
    refine alone b at_b here ?_ ▸ lack
    obtain ⟨i, inside, span_i⟩ := tours.exists_item picks listed mem source at_b here
    obtain ⟨j, inside', span_j⟩ := tours.exists_item picks listed mem source at_a (by rw [eq])
    have same : (LineTable.ofText t).rangeOf i.span = (LineTable.ofText t).rangeOf j.span := by
      have range : w.rangeOf r.uri r.span = w.rangeOf uri m.span := range
      rw [own, rangeOf_eq source, rangeOf_eq source] at range
      rw [span_i, span, span_j, eq, range]
    rw [← span_i, show m.span = (place a).2.2 by rw [eq], ← span_j]
    by_contra ne
    obtain lt | lt := Int.lt_or_gt_of_ne ne
    · exact Outline.rangeOf_ne inside inside' lt same
    · exact Outline.rangeOf_ne inside' inside lt same.symm
  · intro lack
    obtain ⟨r, mem_r, code_eq, own, span⟩ := lacking a at_a (by rw [eq]) lack
    refine ⟨_, List.mem_map_of_mem mem_r, code_eq, ?_⟩
    change w.rangeOf r.uri r.span = _
    rw [own, span, eq]

end listed

/-! ## What means nothing -/

theorem explained_cases {c : Artifact} {r : Report} (mem : r ∈ w.explained c visits uri) :
    (∃ x ∈ c.references, x.uri = uri ∧ x.target = none ∧
      r = { uri, finding := .unknownLabel x.name, span := x.span }) ∨
    (∃ x ∈ c.uses, x.uri = uri ∧ x.target = none ∧
      r = { uri, finding := .unknownVariable x.name, span := x.span }) ∨
    r.finding.code ∉ Finding.unknownCodes := by
  simp only [explained, List.mem_append] at mem
  obtain ((((mem | mem) | mem) | mem) | mem) | mem := mem
  case inl.inl.inl.inl.inl =>
    unfold syntaxProblems at mem
    split at mem
    · obtain ⟨e, -, rfl⟩ := List.mem_map.1 mem
      exact .inr (.inr e.problem.code_not_mem)
    · cases mem
  case inl.inl.inl.inl.inr =>
    obtain ⟨v, -, eq⟩ := List.mem_filterMap.1 mem
    obtain ⟨i, -, eq⟩ := Option.bind_eq_some_iff.1 eq
    split at eq
    · cases eq
    · obtain rfl := Option.some.inj eq
      exact .inr (.inr (by simp only [Finding.code]; decide))
    · obtain rfl := Option.some.inj eq
      exact .inr (.inr (by simp only [Finding.code]; decide))
  case inl.inl.inl.inr =>
    obtain ⟨⟨l, k⟩, -, eq⟩ := List.mem_filterMap.1 (List.mem_filter.1 mem).1
    obtain ⟨first, -, rfl⟩ := Option.map_eq_some_iff.1 eq
    exact .inr (.inr (by simp only [Finding.code]; decide))
  case inl.inl.inr =>
    obtain ⟨x, at_x, rfl⟩ := List.mem_map.1 mem
    obtain ⟨at_x, own⟩ := List.mem_filter.1 at_x
    simp only [Bool.and_eq_true, decide_eq_true_eq, Option.isNone_iff_eq_none] at own
    exact .inl ⟨x, at_x, own.1, own.2, rfl⟩
  case inl.inr =>
    obtain ⟨x, at_x, rfl⟩ := List.mem_map.1 mem
    obtain ⟨at_x, own⟩ := List.mem_filter.1 at_x
    simp only [Bool.and_eq_true, decide_eq_true_eq, Option.isNone_iff_eq_none] at own
    exact .inr (.inl ⟨x, at_x, own.1, own.2, rfl⟩)
  case inr =>
    obtain ⟨d, -, rfl⟩ := List.mem_map.1 mem
    exact .inr (.inr (by simp only [Finding.code]; decide))

theorem reference_mem_explained {c : Artifact} {x : ResolvedReference} (mem : x ∈ c.references)
    (own : x.uri = uri) (lacks : x.target = none) :
    { uri, finding := .unknownLabel x.name, span := x.span } ∈ w.explained c visits uri := by
  have there : x ∈ c.references.filter fun r => r.uri = uri && r.target.isNone := by
    simp [mem, own, lacks]
  simp only [explained, List.mem_append]
  exact .inl (.inl (.inr (List.mem_map_of_mem there)))

theorem use_mem_explained {c : Artifact} {x : ResolvedUse} (mem : x ∈ c.uses) (own : x.uri = uri)
    (lacks : x.target = none) :
    { uri, finding := .unknownVariable x.name, span := x.span } ∈ w.explained c visits uri := by
  have there : x ∈ c.uses.filter fun u => u.uri = uri && u.target.isNone := by
    simp [mem, own, lacks]
  simp only [explained, List.mem_append]
  exact .inl (.inr (List.mem_map_of_mem there))

theorem exists_diagnostics (tours : w.Tours visits w.expand.files)
    (placed : w.expand.placed = visits.filterMap Visit.plain?)
    (reports : w.expand.reports.Perm
      (w.expand.files.flatMap w.syntaxProblems ++ visits.filterMap w.problem?))
    (mem : uri ∈ w.expand.files) : ∃ reported, Dict.get? w.compile.diagnostics uri = some reported ∧
      reported.Perm ((w.explained w.compile.artifact visits uri).map w.diagnosticOf) :=
  ⟨_, (Dict.get?_ofKeys _ _ _).trans (if_pos mem), sort_diagnose_perm tours placed reports mem⟩

/-- What alone satisfies something is found by it. -/
theorem find?_eq_some_of_alone {p : α → Bool} (mem : a ∈ l) (holds : p a)
    (alone : ∀ b ∈ l, p b → b = a) :
    l.find? p = some a := by
  obtain ⟨b, found⟩ := Option.isSome_iff_exists.1 (List.find?_isSome.2 ⟨a, mem, holds⟩)
  rw [found, alone b (List.mem_of_find?_eq_some found) (List.find?_some found)]

section lookups

variable {c : Artifact} (lists : w.Lists c visits) (tours : w.Tours visits files)
  (mem : uri ∈ files) (source : w.source? uri = some (.ofText uri t))
include lists tours mem source

/-- A reference is found by where it begins, and it is reported exactly if it has no target. -/
theorem exists_reference (inside : .reference m ∈ (Module.read uri t).items) :
    ∃ r ∈ c.references, r.name = m.name ∧
    (c.references.find? fun r => r.uri == uri && r.span.start == m.span.start) = some r ∧
    ((∃ d ∈ (w.explained c visits uri).map w.diagnosticOf,
      d.code = "unknown-label" ∧ d.range = w.rangeOf uri m.span) ↔ r.target = none) := by
  have picks := Item.span_of_reference?
  obtain ⟨r, at_r, eq, alone⟩ := tours.exists_listed picks lists.references mem source inside rfl
  obtain ⟨own, name, span⟩ : r.uri = uri ∧ r.name = m.name ∧ r.span = m.span := by simpa using eq
  refine ⟨r, at_r, name, ?_, ?_⟩
  · refine find?_eq_some_of_alone at_r (by simp [own, span]) fun b at_b holds => ?_
    simp only [Bool.and_eq_true, beq_iff_eq] at holds
    exact alone b at_b holds.1 holds.2
  · refine tours.reported_iff picks lists.references mem source (·.target = none) ?_
      ?_ at_r eq alone
    · intro r mem code
      obtain ⟨x, at_x, own, lacks, rfl⟩ | ⟨x, at_x, own, lacks, rfl⟩ | other := explained_cases mem
      · exact ⟨rfl, x, at_x, own, lacks, rfl⟩
      · exact absurd code (by simp only [Finding.code]; decide)
      · exact absurd (by rw [code]; exact List.mem_cons_self) other
    · intro x at_x own lacks
      exact ⟨_, reference_mem_explained at_x own lacks, rfl, rfl, rfl⟩

/-- A use is found by where it begins and by all of its place, and it is reported exactly if it has
no target. -/
theorem exists_use (inside : .use m ∈ (Module.read uri t).items) :
    ∃ u ∈ c.uses, u = ⟨m.name, uri, m.span, u.target⟩ ∧
    (c.uses.find? fun u => u.uri == uri && u.span == m.span) = some u ∧
    (c.uses.find? fun u => u.uri == uri && u.span.start == m.span.start) = some u ∧
    ((∃ d ∈ (w.explained c visits uri).map w.diagnosticOf,
      d.code = "unknown-variable" ∧ d.range = w.rangeOf uri m.span) ↔ u.target = none) := by
  have picks := Item.span_of_use?
  obtain ⟨u, at_u, eq, alone⟩ := tours.exists_listed picks lists.uses mem source inside rfl
  obtain ⟨own, name, span⟩ : u.uri = uri ∧ u.name = m.name ∧ u.span = m.span := by simpa using eq
  refine ⟨u, at_u, by rw [← own, ← name, ← span], ?_, ?_, ?_⟩
  · refine find?_eq_some_of_alone at_u (by simp [own, span]) fun b at_b holds => ?_
    simp only [Bool.and_eq_true, beq_iff_eq] at holds
    exact alone b at_b holds.1 (congrArg Span.start holds.2)
  · refine find?_eq_some_of_alone at_u (by simp [own, span]) fun b at_b holds => ?_
    simp only [Bool.and_eq_true, beq_iff_eq] at holds
    exact alone b at_b holds.1 holds.2
  · refine tours.reported_iff picks lists.uses mem source (·.target = none) ?_ ?_ at_u eq alone
    · intro r mem code
      obtain ⟨x, at_x, own, lacks, rfl⟩ | ⟨x, at_x, own, lacks, rfl⟩ | other := explained_cases mem
      · exact absurd code (by simp only [Finding.code]; decide)
      · exact ⟨rfl, x, at_x, own, lacks, rfl⟩
      · exact absurd (by rw [code]; exact List.mem_cons_of_mem _ List.mem_cons_self) other
    · intro x at_x own lacks
      exact ⟨_, use_mem_explained at_x own lacks, rfl, rfl, rfl⟩

end lookups

end World

/-! ## What is looked up -/

namespace Resolution

variable {placed : List PlacedItem} {x : PlacedItem}

theorem FirstLabel.cons {l : LabelDefinition} (first : FirstLabel placed l)
    (other : ∀ m, x.item = .label m → m.name ≠ l.name) : FirstLabel (x :: placed) l := by
  obtain ⟨front, m, behind, rfl, name, span, nameSpan, earlier⟩ := first
  refine ⟨x :: front, m, behind, rfl, name, span, nameSpan, ?_⟩
  rw [← name] at earlier ⊢
  exact List.forall_mem_cons.2 ⟨other, earlier⟩

/-- A label is put in front of those behind it, and nothing else is. -/
theorem placedLabels_cons_cases (current : Option (Uri × Heading)) (x : PlacedItem)
    (rest : List PlacedItem) :
    (∃ m heading, x.item = .label m ∧
      placedLabels current (x :: rest) = ⟨x.uri, m, heading⟩ :: placedLabels current rest) ∨
    (∀ m, x.item ≠ .label m) ∧ ∃ next, placedLabels current (x :: rest) =
      placedLabels next rest := by
  cases kind : x.item with
  | label m => exact .inl ⟨m, _, rfl, by rw [placedLabels, kind]⟩
  | heading h => exact .inr ⟨by simp, some (x.uri, h), by rw [placedLabels, kind]⟩
  | reference | binding | use | inclusion =>
    exact .inr ⟨by simp, current, by rw [placedLabels, kind]⟩

theorem find?_placedLabels_cases (current : Option (Uri × Heading)) (placed : List PlacedItem)
    (name : Text) :
    (∃ l, ((placedLabels current placed).map PlacedLabel.definition).find? (·.name == name) =
      some l ∧
      FirstLabel placed l ∧ l.name = name) ∨
    ((placedLabels current placed).map PlacedLabel.definition).find? (·.name == name) = none ∧
      ∀ x ∈ placed, ∀ m, x.item = .label m → m.name ≠ name := by
  induction placed generalizing current with
  | nil => exact .inr ⟨rfl, by simp⟩
  | cons x rest ih =>
    obtain ⟨m, heading, label, eq⟩ | ⟨other, next, eq⟩ := placedLabels_cons_cases current x rest
    · rw [eq, List.map_cons]
      by_cases isIt : m.name = name
      · refine .inl ⟨_, by
            rw [List.find?_cons_of_pos]; simpa [PlacedLabel.definition] using isIt, ?_, isIt⟩
        exact ⟨[], m, rest, by rw [← label]; rfl, rfl, rfl, rfl, by simp⟩
      · rw [List.find?_cons_of_neg (by simpa [PlacedLabel.definition] using isIt)]
        have others : ∀ m', x.item = .label m' → m'.name ≠ name := by
          rintro m' label'
          obtain rfl := Item.label.inj (label.symm.trans label')
          exact isIt
        obtain ⟨l, found, first, rfl⟩ | ⟨none, nowhere⟩ := ih current
        · exact .inl ⟨l, found, first.cons others, rfl⟩
        · exact .inr ⟨none, List.forall_mem_cons.2 ⟨others, nowhere⟩⟩
    · rw [eq]
      obtain ⟨l, found, first, rfl⟩ | ⟨none, nowhere⟩ := ih next
      · exact .inl ⟨l, found, first.cons fun m label => absurd label (other m), rfl⟩
      · exact .inr ⟨none, List.forall_mem_cons.2 ⟨fun m label => absurd label (other m), nowhere⟩⟩

end Resolution

namespace World

open Resolution

variable {w : World}

theorem label?_cases (w : World) (name : Text) :
    (∃ l, w.compile.artifact.label? name = some l ∧ FirstLabel w.expand.placed l ∧ l.name = name) ∨
    w.compile.artifact.label? name = none ∧
      ∀ x ∈ w.expand.placed, ∀ m, x.item = .label m → m.name ≠ name := by
  have first := find?_firstLabels [] (placedLabels none w.expand.placed) name
  rw [List.nil_append, List.nil_append] at first
  have found : w.compile.artifact.label? name =
      ((placedLabels none w.expand.placed).map PlacedLabel.definition).find? (·.name == name) :=
        first
  rw [found]
  exact find?_placedLabels_cases none w.expand.placed name

theorem target_of_mem_references {r : ResolvedReference} (mem : r ∈ w.compile.artifact.references) :
    r.target = (w.compile.artifact.label? r.name).map fun l => (l.uri, l.nameSpan) := by
  obtain ⟨x, -, eq⟩ := List.mem_filterMap.1 mem
  cases kind : x.item with
  | reference m =>
    rw [kind] at eq
    obtain rfl := Option.some.inj eq
    rfl
  | heading | label | binding | use | inclusion =>
    rw [kind] at eq
    cases eq

end World

/-! ## Answers -/

variable {s : Snapshot} {entry : Uri} {doc : SnapshotDocument} {item : Item}
  {m : Mark} {f : Finding} {reported : List Diagnostic} {meaning : Option Denotation} {p : Position}

theorem Item.hitSpan_of_unknown? (names : item.unknown? = some (m, f)) : item.hitSpan = m.span := by
  cases item with
  | reference m' | use m' =>
    obtain ⟨rfl, -⟩ := Prod.mk.inj (Option.some.inj names)
    rfl
  | heading | label | binding | inclusion => cases names

/-- No description says that a name means nothing. -/
theorem Denotation.description_ne_unknown (names : item.unknown? = some (m, f)) (k : Denotation)
    (uri : Uri) (name : Text) :
    k.description uri name ≠ Hover.unknown f := by
  intro eq
  cases item with
  | reference m' | use m' =>
    obtain ⟨-, rfl⟩ := Prod.mk.inj (Option.some.inj names)
    cases k <;> exact absurd (List.cons.inj eq).1 (by decide)
  | heading | label | binding | inclusion => cases names

namespace Hover

def textOf (uri : Uri) (m : Mark) (f : Finding) (meaning : Option Denotation) : Text :=
  (meaning.map (·.description uri m.name)).getD (unknown f)

theorem reference_eq (a : Artifact) (uri : Uri) (m : Mark) :
    reference a uri m = textOf uri m (.unknownLabel m.name) ((a.label? m.name).map .label) := by
  rw [reference]
  cases a.label? m.name with
  | none => rfl
  | some l =>
    simp only [textOf, Option.map_some, Option.getD_some, Denotation.description]
    cases l.heading <;> rfl

theorem use_eq {a : Artifact} {uri : Uri} {m : Mark} {u : ResolvedUse}
    (found : (a.uses.find? fun u => u.uri == uri && u.span == m.span) = some u) :
    use a uri m = textOf uri m (.unknownVariable m.name) (u.target.map .ofTarget) := by
  rw [use, found, Option.bind_some]
  rcases u.target with _ | ⟨b⟩ | ⟨value⟩ <;> rfl

end Hover

namespace Definition

def locationsOf (s : Snapshot) (meaning : Option Denotation) : List Location :=
  ((meaning.bind Denotation.place?).map fun p => ⟨p.1, s.rangeOf p.1 p.2⟩).toList

theorem ofReference_eq {a : Artifact} {uri : Uri} {r : ResolvedReference}
    {l : Option LabelDefinition}
    (found : (a.references.find? fun r => r.uri == uri && r.span.start == m.span.start) = some r)
    (target : r.target = l.map fun l => (l.uri, l.nameSpan)) :
    ofReference s a uri m = locationsOf s (l.map .label) := by
  rw [ofReference, found, Option.bind_some, target]
  cases l <;> rfl

theorem ofUse_eq {a : Artifact} {uri : Uri} {u : ResolvedUse}
    (found : (a.uses.find? fun u => u.uri == uri && u.span.start == m.span.start) = some u) :
    ofUse s a uri m = locationsOf s (u.target.map .ofTarget) := by
  rw [ofUse, found, Option.bind_some]
  rcases u.target with _ | ⟨b⟩ | ⟨value⟩ <;> rfl

end Definition

namespace World

variable {w : World} {visits : List Visit} {uri : Uri} {t : Text}

/-- A reference or a use of a file has one meaning. It is described and located as that, and it is
reported exactly if there is none. -/
theorem exists_meaning (tours : w.Tours visits w.expand.files)
    (lists : w.Lists w.compile.artifact visits) (mem : uri ∈ w.expand.files)
    (source : w.source? uri = some (.ofText uri t)) (inside : item ∈ (Module.read uri t).items)
    (names : item.unknown? = some (m, f)) : ∃ meaning, w.Resolves w.expand.placed uri item meaning ∧
      (∀ l, meaning = some (.label l) → l ∈ w.compile.artifact.labels) ∧
      (∀ s, Hover.contents? s uri (some w.compile.artifact) item =
        some (Hover.textOf uri m f meaning)) ∧
      (∀ s, Definition.locations s uri (some w.compile.artifact) item =
        Definition.locationsOf s meaning) ∧
      ((∃ d ∈ (w.explained w.compile.artifact visits uri).map w.diagnosticOf,
        d.code = f.code ∧ d.range = w.rangeOf uri m.span) ↔ meaning = none) := by
  cases item with
  | reference m' =>
    obtain ⟨rfl, rfl⟩ := Prod.mk.inj (Option.some.inj names)
    obtain ⟨r, at_r, name, found, reported⟩ := exists_reference lists tours mem source inside
    have target := target_of_mem_references at_r
    rw [name] at target
    refine ⟨(w.compile.artifact.label? m'.name).map .label, ?_, ?_, fun s => ?_, fun s => ?_, ?_⟩
    · obtain ⟨l, labelled, first, eq⟩ | ⟨none, nowhere⟩ := label?_cases w m'.name
      · rw [labelled]
        exact .label first eq
      · rw [none]
        exact .noLabel nowhere
    · intro l eq
      obtain ⟨_, labelled, eq⟩ := Option.map_eq_some_iff.1 eq
      obtain rfl := Denotation.label.inj eq
      exact List.mem_of_find?_eq_some labelled
    · exact congrArg some (Hover.reference_eq _ _ _)
    · exact Definition.ofReference_eq found target
    · rw [Option.map_eq_none_iff, ← Option.map_eq_none_iff, ← target]
      exact reported
  | use m' =>
    obtain ⟨rfl, rfl⟩ := Prod.mk.inj (Option.some.inj names)
    obtain ⟨u, at_u, eq, whole, found, reported⟩ := exists_use lists tours mem source inside
    have resolved := Resolution.forall₂_resolves w.settings.inputs w.expand.placed
    rw [← bindings_compile, ← uses_compile] at resolved
    obtain ⟨p, -, resolves⟩ := Related.exists_left resolved at_u
    refine ⟨u.target.map .ofTarget, ?_, ?_, fun s => ?_, fun s => ?_, ?_⟩
    · rw [eq] at resolves
      exact .use resolves
    · intro l eq
      obtain ⟨⟨⟩, -, eq⟩ := Option.map_eq_some_iff.1 eq <;> cases eq
    · exact congrArg some (Hover.use_eq whole)
    · exact Definition.ofUse_eq found
    · rw [Option.map_eq_none_iff]
      exact reported
  | heading | label | binding | inclusion => cases names

end World

theorem Cursor.mem_of_find? {mod : Module} {o : Int} (selected : find? mod o = some item) :
    item ∈ mod.items := by
  obtain ⟨e, located, rfl⟩ := Option.map_eq_some_iff.1 selected
  have touched : e ∈ mod.items.zipIdx.filter fun e => e.1.hitSpan.touches o := by
    rw [locate?] at located
    cases list : mod.items.zipIdx.filter fun e => e.1.hitSpan.touches o with
    | nil =>
      rw [list] at located
      cases located
    | cons first rest =>
      rw [list] at located
      obtain ⟨front, behind, eq, -⟩ := exists_foldl_better first rest
      obtain rfl := Option.some.inj located
      rw [eq]
      simp
  exact List.fst_mem_of_mem_zipIdx (List.mem_filter.1 touched).1

namespace Snapshot

open Quill.Flow (Yields yields_done)

/-- What is described and located as one meaning that is reported when there is none agrees. -/
theorem agree_of_reported (names : item.unknown? = some (m, f))
    (iff : (∃ d ∈ reported, d.code = f.code ∧ d.range = s.rangeOf entry m.span) ↔ meaning = none) :
    s.Agree entry m f meaning reported ⟨Hover.textOf entry m f meaning, s.rangeOf entry m.span⟩
      (Definition.locationsOf s meaning) where
  unknown := by
    refine List.tfae_of_forall (meaning = none) _ ?_
    simp only [List.forall_mem_cons, List.not_mem_nil, false_imp_iff, implies_true,
      and_true, true_and]
    refine ⟨iff, ?_, ?_⟩
    · cases meaning with
      | none => simp [Hover.textOf]
      | some k => simp [Hover.textOf, k.description_ne_unknown names]
    · cases meaning with
      | none => simp [Definition.locationsOf]
      | some k => cases k <;> simp [Definition.locationsOf, Denotation.place?]
  known := by
    rintro k rfl
    exact ⟨rfl, rfl⟩
  range := rfl

variable (scope : s.scope.entryUri? = some entry) (filed : s.Filed)
  (found : s.document? entry = some doc)

include found filed in
theorem source?_world_entry : (s.world entry).source? entry = some (.ofText entry doc.text) := by
  rw [source?_world filed, found, Option.map_some, sourceOf, filed.uri_eq found, Source.ofText]

include filed in
theorem rangeOf_world (uri : Uri) (span : Span) :
    (s.world entry).rangeOf uri span = s.rangeOf uri span := by
  rw [World.rangeOf, source?_world filed, Option.map_map]
  rfl

include scope filed found in
theorem yields_hover
    (selected : Cursor.find? (Module.read entry doc.text) (s.offsetAt entry p) = some item)
    (names : item.unknown? = some (m, f)) :
    Yields (.computed .quill) ((Question.hover p).answer s entry)
      (.ok (.hover (Hover.info? s entry (some (s.world entry).compile.artifact) item))) := by
  have isEntry := entryDocument?_of_scope scope found
  have needs : Hover.needsArtifact item := by cases item <;> first | rfl | cases names
  have compile := yields_compile scope filed (by rw [found]; rfl)
  refine Flow.yields_atPosition p isEntry (Flow.Yields.bind ?_ (yields_done _ _))
  refine (Flow.yields_entry isEntry _).bind ?_
  rw [filed.uri_eq found]
  refine (Flow.yields_parse found).call.bind ?_
  rw [filed.uri_eq found]
  simp only [Option.bind_some, selected, needs, if_true]
  have artifact :
      Yields (.computed .quill) s.artifact (.ok (some (s.world entry).compile.artifact)) :=
    compile.call.bind (yields_done _ _)
  exact (artifact.call.bind (yields_done _ _)).call.bind (yields_done _ _)

include scope filed found in
theorem yields_definition
    (selected : Cursor.find? (Module.read entry doc.text) (s.offsetAt entry p) = some item)
    (names : item.unknown? = some (m, f)) :
    Yields (.computed .quill) ((Question.definition p).answer s entry)
      (.ok (.locations (Definition.locations s entry (some (s.world entry).compile.artifact)
        item))) := by
  have isEntry := entryDocument?_of_scope scope found
  have needs : Definition.needsArtifact item := by cases item <;> first | rfl | cases names
  have compile := yields_compile scope filed (by rw [found]; rfl)
  refine Flow.yields_atPosition p isEntry (Flow.Yields.bind ?_ (yields_done _ _))
  refine (Flow.yields_entry isEntry _).bind ?_
  rw [filed.uri_eq found]
  refine (Flow.yields_parse found).call.bind ?_
  rw [filed.uri_eq found]
  simp only [Option.bind_some, selected, needs, if_true]
  exact compile.call.bind (yields_done _ _)

include scope filed found in
/-- Under every cursor that selects a reference or a use of the entry, the answers to a hover and a
definition and the diagnostics of the compile are of one meaning: they all say that there is none,
or the definition leads to the name of exactly what the hover describes. -/
theorem answers_agree
    (selected : Cursor.find? (Module.read entry doc.text) (s.offsetAt entry p) = some item)
    (names : item.unknown? = some (m, f)) : ∃ c visits reported meaning info locations,
      Yields (.computed .quill) s.compile (.ok (.ok c)) ∧
      (s.world entry).Tours visits c.artifact.files ∧
      Dict.get? c.diagnostics entry = some reported ∧
      Yields (.computed .quill) ((Question.hover p).answer s entry) (.ok (.hover (some info))) ∧
      Yields (.computed .quill) ((Question.definition p).answer s entry)
        (.ok (.locations locations)) ∧
      (s.world entry).Resolves (visits.filterMap Visit.plain?) entry item meaning ∧
      (∀ l, meaning = some (.label l) → l ∈ c.artifact.labels) ∧
      s.Agree entry m f meaning reported info locations := by
  have source : (s.world entry).source? entry = _ := source?_world_entry filed found
  have there : ((s.world entry).source? (s.world entry).entry).isSome := by
    rw [show (s.world entry).entry = entry from rfl, source]
    rfl
  obtain ⟨visits, tours, placed, edges, reports⟩ := World.tours_expand there
  have mem : entry ∈ (s.world entry).expand.files :=
    (tours.mem_files entry).2 ⟨.refl, by rw [source]; rfl⟩
  obtain ⟨reported, diagnostics, perm⟩ := World.exists_diagnostics tours placed reports mem
  obtain ⟨meaning, resolves, labels, contents, locations, iff⟩ := World.exists_meaning tours
    (World.lists_compile placed edges) mem source (Cursor.mem_of_find? selected) names
  have hover := yields_hover scope filed found selected names
  have definition := yields_definition scope filed found selected names
  rw [Hover.info?, contents s] at hover
  rw [locations s] at definition
  rw [Option.map_some, Item.hitSpan_of_unknown? names] at hover
  simp only [← perm.mem_iff, rangeOf_world filed] at iff
  exact ⟨_, visits, reported, meaning, _, _, yields_compile scope filed (by rw [found]; rfl),
    tours, diagnostics, hover, definition, placed ▸ resolves, labels, agree_of_reported names iff⟩

/-- A use in the value of a binding of its own name, which means the binding of an included
document. -/
theorem answers_agree_shadowed :
    let doc : SnapshotDocument :=
      ⟨"/ws/main.quill", "#include \"b.quill\"\n#let v = #v 2\n@x #v", 1, "", .memory⟩
    let part : SnapshotDocument := ⟨"/ws/b.quill", "= B <x>\n#let v = 1", 0, "", .disk⟩
    let s : Snapshot := ⟨.document doc.uri, [(doc.uri, doc), (part.uri, part)], [], .default, ""⟩
    let p : Position := ⟨1, 10⟩
    let m : Mark := ⟨"v", ⟨28, 30⟩, ⟨29, 30⟩⟩
    s.scope.entryUri? = some doc.uri ∧ s.Filed ∧ s.document? doc.uri = some doc ∧
    Cursor.find? (Module.read doc.uri doc.text) (s.offsetAt doc.uri p) = some (.use m) ∧
    (Item.use m).unknown? = some (m, .unknownVariable m.name) ∧
    ∃ c visits reported meaning info locations,
      Yields (.computed .quill) s.compile (.ok (.ok c)) ∧
      (s.world doc.uri).Tours visits c.artifact.files ∧
      Dict.get? c.diagnostics doc.uri = some reported ∧
      Yields (.computed .quill) ((Question.hover p).answer s doc.uri) (.ok (.hover (some info))) ∧
      Yields (.computed .quill) ((Question.definition p).answer s doc.uri)
        (.ok (.locations locations)) ∧
      (s.world doc.uri).Resolves (visits.filterMap Visit.plain?) doc.uri (.use m) meaning ∧
      (∀ l, meaning = some (.label l) → l ∈ c.artifact.labels) ∧
      s.Agree doc.uri m (.unknownVariable m.name) meaning reported info locations := by
  intro doc part s p m
  have filed : s.Filed := ⟨by simp [s], by decide +kernel⟩
  have found : s.document? doc.uri = some doc := by decide +kernel
  have selected : Cursor.find? (Module.read doc.uri doc.text) (s.offsetAt doc.uri p) =
      some (.use m) := by
    decide +kernel
  exact ⟨rfl, filed, found, selected, rfl, answers_agree rfl filed found selected rfl⟩

end Snapshot

end Quill
