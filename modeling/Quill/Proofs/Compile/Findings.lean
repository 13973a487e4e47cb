import Mathlib.Data.List.Induction
import Quill.Proofs.Compile.Scope
import Quill.Proofs.Data.Dict
import Quill.Proofs.Data.Lists

/-!
# What explains the diagnostics of a file

Inclusions and syntax are reported when a file is expanded, names when they are resolved, which is
done for all files at once. For each file this comes to one list in the order of ranges and codes,
and what is in it is explained by what stands in the file and by what the artifact says of it.

## Main definitions

* `Resolution.labelsOf`, `Resolution.repeats` — the labels of a closure, and those that are not the
  first of their name.
* `World.explained` — what is to be reported on a file.
* `World.Explains` — what a compile reports on its files.

## Main statements

* `Diagnostic.pairwise_sort` — diagnostics are sorted by ranges and codes.
* `Resolution.duplicates_eq` — reported are the labels that are not the first of their name.
* `World.compile_explains` — what every compile of an entry with a source reports on its files is
  explained.
-/

namespace Quill

/-! ## The order of diagnostics -/

theorem Position.le_antisymm {p q : Position} (h : p.le q) (h' : q.le p) : p = q := by
  simp only [Position.le, Position.difference] at h h'
  cases p
  cases q
  simp only [Position.mk.injEq]
  grind

namespace Diagnostic

theorem le_trans (a b c : Diagnostic) (h : a.le b) (h' : b.le c) : a.le c :=
  ite_le_trans Position.le_trans Position.le_antisymm
    (ite_le_trans Position.le_trans Position.le_antisymm Text.compare_trans_le) h h'

theorem le_total (a b : Diagnostic) : a.le b || b.le a :=
  ite_le_total (Position.le_total _ _) (ite_le_total (Position.le_total _ _) (Text.le_total _ _))

theorem pairwise_sort (ds : List Diagnostic) : (sort ds).Pairwise fun a b => a.le b :=
  pairwise_sortBy le le_trans le_total ds

end Diagnostic

/-! ## Labels and references -/

namespace Resolution

/-- The labels among the visits, in order, each with its file. -/
def labelsOf (visits : List Visit) : List (Uri × Mark) :=
  visits.filterMap fun v => v.item.label?.map fun m => (v.uri, m)

/-- A name is not found exactly if no label that is visited has it. -/
theorem find?_labelsOf_eq_none_iff {visits : List Visit} {name : Text} :
    (labelsOf visits).find? (·.2.name == name) = none ↔ ∀ v ∈ visits, ∀ m, v.item = .label m →
    m.name ≠ name := by
  rw [List.find?_eq_none]
  constructor
  · intro nowhere v visited m label
    simpa using nowhere (v.uri, m) (List.mem_filterMap.2 ⟨v, visited, by simp [label, Item.label?]⟩)
  · intro nowhere l mem
    obtain ⟨v, visited, eq⟩ := List.mem_filterMap.1 mem
    obtain ⟨m, label, rfl⟩ := Option.map_eq_some_iff.1 eq
    simpa using nowhere v visited m (Item.label?_eq_some.1 label)

def repeats (labels : List (Uri × Mark)) : List Report :=
  labels.zipIdx.filterMap fun (l, k) =>
    ((labels.take k).find? (·.2.name == l.2.name)).map fun first =>
    { uri := l.1, finding := .duplicateLabel l.2.name, span := l.2.span,
      related := [(first.1, first.2.span)] }

theorem map_placedLabels (current : Option (Uri × Heading)) (placed : List PlacedItem) :
    (placedLabels current placed).map (fun l => (l.uri, l.mark)) =
      placed.filterMap fun p => p.item.label?.map fun m => (p.uri, m) := by
  induction placed generalizing current with
  | nil => rfl
  | cons p rest ih => cases kind : p.item <;> simp [placedLabels, kind, Item.label?, ih]

variable {known : List LabelDefinition} {labels : List PlacedLabel} {l : PlacedLabel}

/-- The first label of a name is found among those that are kept as well as among all. -/
theorem find?_firstLabels (known : List LabelDefinition) (labels : List PlacedLabel) (name : Text) :
    (known ++ firstLabels known labels).find? (·.name == name) =
      (known ++ labels.map PlacedLabel.definition).find? (·.name == name) := by
  induction labels generalizing known with
  | nil => rfl
  | cons l rest ih =>
    rw [firstLabels, List.map_cons]
    split
    next old =>
      obtain ⟨d, mem, same⟩ := List.any_eq_true.1 old
      rw [ih, List.find?_append, List.find?_append]
      by_cases isIt : l.definition.name = name
      · -- the name has been found before
        have there : (known.find? (·.name == name)).isSome :=
          List.find?_isSome.2 ⟨d, mem, (beq_iff_eq.1 same).symm ▸ beq_iff_eq.2 isIt⟩
        obtain ⟨first, found⟩ := Option.isSome_iff_exists.1 there
        simp [found]
      · simp [isIt]
    next => simpa using ih (known ++ [l.definition])

theorem duplicates_concat : duplicates known (labels ++ [l]) = duplicates known labels ++
    (((known ++ firstLabels known labels).find? (·.name == l.mark.name)).map fun first =>
      ({ uri := l.uri, finding := .duplicateLabel l.mark.name, span := l.mark.span
         related := [(first.uri, first.span)] } : Report)).toList := by
  induction labels generalizing known with
  | nil => cases found : known.find? (·.name == l.mark.name) <;>
    simp [duplicates, firstLabels, found]
  | cons k rest ih =>
    cases found : known.find? (·.name == k.mark.name) with
    | none =>
      have new : known.any (·.name == k.mark.name) = false := by
        simpa [List.any_eq_false, List.find?_eq_none] using found
      simp [duplicates, firstLabels, found, new, ih]
    | some first =>
      have old : known.any (·.name == k.mark.name) = true :=
        List.any_eq_true.2
          ⟨first, List.mem_of_find?_eq_some found, by simpa using List.find?_some found⟩
      simp [duplicates, firstLabels, found, old, ih]

theorem repeats_concat (labels : List (Uri × Mark)) (l : Uri × Mark) :
    repeats (labels ++ [l]) = repeats labels ++
    ((labels.find? (·.2.name == l.2.name)).map fun first =>
      ({ uri := l.1, finding := .duplicateLabel l.2.name, span := l.2.span
         related := [(first.1, first.2.span)] } : Report)).toList := by
  rw [repeats, List.zipIdx_append, List.filterMap_append, repeats]
  congr 1
  · refine List.filterMap_congr fun (l', k) mem => ?_
    have inside : k ≤ labels.length :=
      Nat.le_of_lt (List.getElem?_eq_some_iff.1 (List.mem_zipIdx_iff_getElem?.1 mem)).1
    simp only [List.take_append_of_le_length inside]
  · cases found : labels.find? (·.2.name == l.2.name) <;> simp [found]

theorem duplicates_eq (labels : List PlacedLabel) :
    duplicates [] labels = repeats (labels.map fun l => (l.uri, l.mark)) := by
  induction labels using List.reverseRecOn with
  | nil => rfl
  | append_singleton labels l ih =>
    have first := find?_firstLabels [] labels l.mark.name
    rw [List.nil_append, List.nil_append] at first
    rw [duplicates_concat, List.map_append, List.map_singleton, repeats_concat, ih, List.nil_append,
      first, List.find?_map, List.find?_map]
    simp [PlacedLabel.definition, Function.comp_def]

end Resolution

/-! ## What is to be reported -/

namespace World

open Resolution

variable (w : World)

def rangeOf (uri : Uri) (s : Span) : Range :=
  (LineTable.ofText (((w.source? uri).map Source.text).getD [])).rangeOf s

/-- The diagnostic of a report, by the lines of the files in which it and its related places
stand. -/
def diagnosticOf (r : Report) : Diagnostic :=
  .ofFinding r.finding (w.rangeOf r.uri r.span)
    (r.related.map fun p => ⟨p.1, w.rangeOf p.1 p.2, "first defined here"⟩)

/-- What is to be reported on a file: one report for each of its syntax errors, each inclusion that
closes a cycle or has no source, each label that is not the first of its name, each reference and
each use that has no target, and each binding that is not used. -/
def explained (a : Artifact) (visits : List Visit) (uri : Uri) : List Report :=
  w.syntaxProblems uri ++
  (visits.filter (·.uri = uri)).filterMap w.problem? ++
  (repeats (labelsOf visits)).filter (·.uri = uri) ++
  (a.references.filter fun r => r.uri = uri && r.target.isNone).map (fun r =>
    { uri, finding := .unknownLabel r.name, span := r.span }) ++
  (a.uses.filter fun u => u.uri = uri && u.target.isNone).map (fun u =>
    { uri, finding := .unknownVariable u.name, span := u.span }) ++
  (a.bindings.filter fun d => d.uri = uri && !d.used).map (fun d =>
    { uri, finding := .unusedBinding d.name, span := d.nameSpan })

def problemOf? (e : IncludeEdge) : Option (Uri × Text) :=
  match e.status with
  | .ok => none
  | .cycle => some (e.source, "include-cycle")
  | .missing => some (e.source, "file-not-found")

structure Explains (c : Compiled) (visits : List Visit) : Prop where
  /-- The target of a reference is the name of the first label that has its name, and there is none
  exactly if no label has it. -/
  references : c.artifact.references = visits.filterMap fun v => v.item.reference?.map fun m =>
    ⟨m.name, v.uri, m.span,
      ((labelsOf visits).find? (·.2.name == m.name)).map fun l => (l.1, l.2.nameSpan)⟩
  unknown : ∀ r ∈ c.artifact.references, r.target = none ↔ ∀ v ∈ visits, ∀ m, v.item = .label m →
  m.name ≠ r.name
  /-- The inclusions that are reported are the edges that close a cycle or have no source. -/
  inclusions : (visits.filterMap w.problem?).map (fun r => (r.uri, r.finding.code)) =
    c.artifact.includes.filterMap problemOf?
  /-- There are diagnostics of each file, which are sorted and explained. -/
  keys : Dict.keys c.diagnostics = c.artifact.files
  sorted : ∀ e ∈ c.diagnostics, e.2.Pairwise fun a b => a.le b
  explained : ∀ e ∈ c.diagnostics, e.2.Perm ((w.explained c.artifact visits e.1).map w.diagnosticOf)

variable {w} {visits : List Visit} {files : List Uri} {uri : Uri}

/-! ## Reports by file -/

/-- What is picked from one item of a list without duplicates only is all that is picked from the
list. -/
theorem flatMap_eq_of_nodup {α β : Type} {l : List α} {f : α → List β}
    {a : α} (nodup : l.Nodup) (mem : a ∈ l)
    (others : ∀ b ∈ l, b ≠ a → f b = []) : l.flatMap f = f a := by
  obtain ⟨before, behind, rfl⟩ := List.append_of_mem mem
  obtain ⟨-, second, apart⟩ := List.nodup_append.1 nodup
  have front : before.flatMap f = [] := List.flatMap_eq_nil_iff.2 fun b inside =>
    others b (List.mem_append_left _ inside) (apart b inside a List.mem_cons_self)
  have back : behind.flatMap f = [] := List.flatMap_eq_nil_iff.2 fun b inside =>
    others b (List.mem_append_right _ (List.mem_cons_of_mem _ inside)) fun eq =>
      (List.nodup_cons.1 second).1 (eq ▸ inside)
  simp [front, back]

theorem uri_of_mem_syntaxProblems {r : Report} (mem : r ∈ w.syntaxProblems uri) : r.uri = uri := by
  unfold syntaxProblems at mem
  split at mem
  · obtain ⟨e, -, rfl⟩ := List.mem_map.1 mem
    rfl
  · cases mem

theorem uri_of_problem? {v : Visit} {r : Report} (eq : w.problem? v = some r) : r.uri = v.uri := by
  obtain ⟨i, -, eq⟩ := Option.bind_eq_some_iff.1 eq
  split at eq
  · cases eq
  · rw [← Option.some.inj eq]
  · rw [← Option.some.inj eq]

/-- What is reported on a visit is what its edge says. -/
theorem map_problem? (v : Visit) :
    (w.problem? v).map (fun r => (r.uri, r.finding.code)) = (w.edge? v).bind problemOf? := by
  unfold problem? edge?
  cases v.item.inclusion? with
  | none => rfl
  | some i => cases status : w.statusOf v.chain i.target <;> simp [status, problemOf?, Finding.code]

/-- What an expansion reports on a file. -/
theorem filter_problems (nodup : files.Nodup) (mem : uri ∈ files) :
    (files.flatMap w.syntaxProblems ++ visits.filterMap w.problem?).filter (·.uri = uri) =
      w.syntaxProblems uri ++ (visits.filter (·.uri = uri)).filterMap w.problem? := by
  rw [List.filter_append]
  congr 1
  · rw [List.filter_flatMap]
    refine (flatMap_eq_of_nodup nodup mem fun other _ ne => ?_).trans ?_
    · exact List.filter_eq_nil_iff.2 fun r mem => by simpa [uri_of_mem_syntaxProblems mem] using ne
    · exact List.filter_eq_self.2 fun r mem => by simp [uri_of_mem_syntaxProblems mem]
  · rw [List.filter_filterMap, List.filterMap_filter]
    refine List.filterMap_congr fun v _ => ?_
    cases eq : w.problem? v with
    | none => simp
    | some r => simp [Option.filter, uri_of_problem? eq]

/-- What is reported on those items of a list for which `p` holds, with the file of each. -/
theorem filter_map_report {β : Type} {uriOf : β → Uri} (report : Uri → β → Report)
    (own : ∀ u b, (report u b).uri = u) (p : β → Bool) (l : List β) :
    ((l.filter p).map fun b => report (uriOf b) b).filter (·.uri = uri) =
      (l.filter fun b => uriOf b = uri && p b).map (report uri) := by
  rw [List.filter_map, List.filter_filter]
  simp only [Function.comp_def, own]
  exact List.map_congr_left fun b mem => by simp_all

theorem filter_unknownLabels (rs : List ResolvedReference) :
    (unknownLabels rs).filter (·.uri = uri) =
    (rs.filter fun r => r.uri = uri && r.target.isNone).map fun r =>
      { uri, finding := .unknownLabel r.name, span := r.span } :=
  filter_map_report (fun uri (r : ResolvedReference) =>
    { uri, finding := .unknownLabel r.name, span := r.span }) (fun _ _ => rfl) _ _

theorem filter_unknownVariables (us : List ResolvedUse) :
    (unknownVariables us).filter (·.uri = uri) =
    (us.filter fun u => u.uri = uri && u.target.isNone).map fun u =>
      { uri, finding := .unknownVariable u.name, span := u.span } :=
  filter_map_report (fun uri (u : ResolvedUse) =>
    { uri, finding := .unknownVariable u.name, span := u.span }) (fun _ _ => rfl) _ _

theorem filter_unusedBindings (ds : List BindingDefinition) :
    (unusedBindings ds).filter (·.uri = uri) =
    (ds.filter fun d => d.uri = uri && !d.used).map fun d =>
      { uri, finding := .unusedBinding d.name, span := d.nameSpan } :=
  filter_map_report (fun uri (d : BindingDefinition) =>
    { uri, finding := .unusedBinding d.name, span := d.nameSpan }) (fun _ _ => rfl) _ _

/-! ## Ranges -/

theorem rangeIn_lineTables (mem : uri ∈ files) (s : Span) :
    rangeIn (w.lineTables files) uri s = w.rangeOf uri s := by
  rw [rangeIn, lineTables,
    Dict.get?_ofKeys (fun uri => LineTable.ofText (((w.source? uri).map Source.text).getD [])),
    if_pos mem, Option.getD_some, rangeOf]

theorem diagnose_eq {r : Report} (mem : r.uri ∈ files) (related : ∀ p ∈ r.related, p.1 ∈ files) :
    diagnose (w.lineTables files) r = w.diagnosticOf r := by
  rw [diagnose, diagnosticOf, rangeIn_lineTables mem]
  congr 1
  exact List.map_congr_left fun p at_p => by rw [rangeIn_lineTables (related p at_p)]

/-! ## Compiles -/

section compiles

variable (tours : w.Tours visits w.expand.files)
  (placed : w.expand.placed = visits.filterMap Visit.plain?)
include placed

theorem labelsOf_eq : labelsOf visits = (placedLabels none w.expand.placed).map fun l =>
  (l.uri, l.mark) := by
  rw [map_placedLabels, placed,
    filterMap_plain? (fun uri item => item.label?.map fun m => (uri, m)) (fun _ _ => rfl), labelsOf]

/-- The label of a reference is the first one of its name among the visits. -/
theorem find?_labels (name : Text) :
    (w.compile.artifact.labels.find? (·.name == name)).map (fun l => (l.uri, l.nameSpan)) =
      ((labelsOf visits).find? (·.2.name == name)).map fun l => (l.1, l.2.nameSpan) := by
  have first := find?_firstLabels [] (placedLabels none w.expand.placed) name
  rw [List.nil_append, List.nil_append] at first
  rw [labelsOf_eq placed,
    show w.compile.artifact.labels = firstLabels [] (placedLabels none w.expand.placed) from rfl,
    first, List.find?_map, List.find?_map]
  simp [PlacedLabel.definition, Function.comp_def]

theorem references_eq : w.compile.artifact.references = visits.filterMap fun v =>
  v.item.reference?.map fun m =>
    ⟨m.name, v.uri, m.span,
      ((labelsOf visits).find? (·.2.name == m.name)).map fun l => (l.1, l.2.nameSpan)⟩ := by
  rw [← filterMap_plain? (fun uri item => item.reference?.map fun m => (⟨m.name, uri, m.span,
    ((labelsOf visits).find? (·.2.name == m.name)).map fun l => (l.1, l.2.nameSpan)⟩ :
      ResolvedReference))
    (fun _ _ => rfl), ← placed]
  refine List.filterMap_congr fun p _ => ?_
  cases p.item <;> simp [Item.reference?, ← find?_labels placed]
  rfl

include tours

theorem filter_reports_perm (reports : w.expand.reports.Perm
      (w.expand.files.flatMap w.syntaxProblems ++ visits.filterMap w.problem?)) (mem :
      uri ∈ w.expand.files) :
    (w.reports.filter (·.uri = uri)).Perm (w.explained w.compile.artifact visits uri) := by
  have expanded : (w.expand.reports.filter (·.uri = uri)).Perm
      (w.syntaxProblems uri ++ (visits.filter (·.uri = uri)).filterMap w.problem?) :=
    filter_problems tours.nodup mem ▸ reports.filter _
  rw [World.reports, duplicates_eq, ← labelsOf_eq placed]
  simp only [List.filter_append, filter_unknownLabels, filter_unknownVariables,
    filter_unusedBindings]
  exact (((expanded.append_right _).append_right _).append_right _).append_right _

omit placed in
theorem related_mem_files {r : Report} (mem : r ∈ w.explained w.compile.artifact visits uri) :
    ∀ p ∈ r.related, p.1 ∈ w.expand.files := by
  simp only [explained, List.mem_append] at mem
  obtain ((((mem | mem) | mem) | mem) | mem) | mem := mem
  · unfold syntaxProblems at mem
    split at mem
    · obtain ⟨e, -, rfl⟩ := List.mem_map.1 mem
      nofun
    · cases mem
  · obtain ⟨v, -, eq⟩ := List.mem_filterMap.1 mem
    obtain ⟨i, -, eq⟩ := Option.bind_eq_some_iff.1 eq
    split at eq
    · cases eq
    · obtain rfl := Option.some.inj eq
      nofun
    · obtain rfl := Option.some.inj eq
      nofun
  · -- the first label of a name stands in a file, since it is visited
    obtain ⟨⟨l, k⟩, -, eq⟩ := List.mem_filterMap.1 (List.mem_filter.1 mem).1
    obtain ⟨first, found, rfl⟩ := Option.map_eq_some_iff.1 eq
    obtain ⟨v, visited, eq⟩ :=
      List.mem_filterMap.1 (List.mem_of_mem_take (List.mem_of_find?_eq_some found))
    obtain ⟨m, -, rfl⟩ := Option.map_eq_some_iff.1 eq
    simpa using tours.inside v visited
  all_goals
    obtain ⟨_, -, rfl⟩ := List.mem_map.1 mem
    nofun

theorem sort_diagnose_perm (reports : w.expand.reports.Perm
      (w.expand.files.flatMap w.syntaxProblems ++ visits.filterMap w.problem?)) (mem :
      uri ∈ w.expand.files) :
    (Diagnostic.sort ((w.reports.filter (·.uri == uri)).map
      (diagnose (w.lineTables w.expand.files)))).Perm
      ((w.explained w.compile.artifact visits uri).map w.diagnosticOf) := by
  have perm := filter_reports_perm tours placed reports mem
  have here : w.reports.filter (·.uri == uri) = w.reports.filter (·.uri = uri) :=
    List.filter_congr fun r _ => by rw [beq_eq_decide]
  have same : (w.reports.filter (·.uri = uri)).map (diagnose (w.lineTables w.expand.files)) =
      (w.reports.filter (·.uri = uri)).map w.diagnosticOf := by
    refine List.map_congr_left fun r report =>
      diagnose_eq ?_ (related_mem_files tours (perm.mem_iff.1 report))
    rwa [of_decide_eq_true (List.mem_filter.1 report).2]
  rw [here, same]
  exact (sortBy_perm _ _).trans (perm.map _)

end compiles

/-- What a compile reports on each of its files is sorted and explained by the artifact: by the
syntax errors of the file, its inclusions that are not followed, its labels that are not the first
of their name, its references and uses without a target and its bindings without a use. -/
theorem compile_explains (found : (w.source? w.entry).isSome) : ∃ c visits, w.compile? = .ok c ∧
    w.Tours visits c.artifact.files ∧ w.Lists c.artifact visits ∧ w.Explains c visits := by
  obtain ⟨visits, tours, placed, edges, reports⟩ := tours_expand found
  refine ⟨w.compile, visits, compile?_eq_ok found, tours, lists_compile placed edges, ?_⟩
  have files {e : Uri × List Diagnostic} (mem : e ∈ w.compile.diagnostics) : ∃ uri ∈ w.expand.files,
      e = (uri, Diagnostic.sort
        ((w.reports.filter (·.uri == uri)).map (diagnose (w.lineTables w.expand.files)))) := by
    obtain ⟨uri, file, rfl⟩ := List.mem_map.1 mem
    exact ⟨uri, file, rfl⟩
  constructor
  case references => exact references_eq placed
  case unknown =>
    intro r mem
    rw [references_eq placed] at mem
    obtain ⟨v, -, eq⟩ := List.mem_filterMap.1 mem
    obtain ⟨m, -, rfl⟩ := Option.map_eq_some_iff.1 eq
    rw [Option.map_eq_none_iff, find?_labelsOf_eq_none_iff]
  case inclusions =>
    rw [show w.compile.artifact.includes = _ from edges, List.map_filterMap,
      List.filterMap_filterMap]
    exact List.filterMap_congr fun v _ => map_problem? v
  case keys => simp [diagnostics_compile, diagnostics, Dict.keys, Function.comp_def]
  case sorted =>
    intro e mem
    obtain ⟨uri, -, rfl⟩ := files mem
    exact Diagnostic.pairwise_sort _
  case explained =>
    intro e mem
    obtain ⟨uri, file, rfl⟩ := files mem
    exact sort_diagnose_perm tours placed reports file

def faulty : World :=
  ofSources "/m" [.ofText "/m" "<a>\n#include \"x\"\n#include \"z\"\n@a @b #u\n*x\n#let v = 1",
    .ofText "/x" "<a> <b>\n#include \"m\"\n@c"] .default

theorem compile_explains_faulty :
    (faulty.source? faulty.entry).isSome ∧ ∃ c visits, faulty.compile? = .ok c ∧
    faulty.Tours visits c.artifact.files ∧ faulty.Lists c.artifact visits ∧
    faulty.Explains c visits ∧
      c.diagnostics.map (fun e =>
        (e.1, e.2.map fun d => (d.code, d.range.start, d.related.map (·.uri)))) =
        ([("/m", [("file-not-found", ⟨2, 10⟩, []), ("unknown-variable", ⟨3, 6⟩, []),
          ("unclosed-delimiter", ⟨4, 0⟩, []),
            ("unused-binding", ⟨5, 5⟩, [])]),
          ("/x", [("duplicate-label", ⟨0, 0⟩, ["/m"]), ("include-cycle", ⟨1, 0⟩, []),
            ("unknown-label", ⟨2, 0⟩, [])])] :
          List (Uri × List (Text × Position × List Uri))) := by
  have found : (faulty.source? faulty.entry).isSome := by decide +kernel
  obtain ⟨c, visits, compiled, tours, lists, explains⟩ := compile_explains found
  refine ⟨found, c, visits, compiled, tours, lists, explains, ?_⟩
  obtain rfl : faulty.compile = c := Except.ok.inj ((compile?_eq_ok found).symm.trans compiled)
  decide +kernel

end World

end Quill
