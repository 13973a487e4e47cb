import Quill.Proofs.Compile.Coverage

/-!
# Cycles of inclusions

An inclusion of a file that is being expanded closes a cycle. Such inclusions are the only ones that
are not followed although their target has a source, and what is followed never comes back: a file
that is done leads to files that are done, and among those that are being expanded every one leads
to the innermost. So there is a cycle of inclusions exactly when one is reported.

## Main definitions

* `Traverses` — the inclusions that were followed.
* `World.Links` — the inclusions between the files that are reached.
* `World.Descends` — what holds while a chain of files is being expanded.
* `World.FindsCycles` — what a compile makes of cycles.

## Main statements

* `World.Expands.descends` — it holds throughout an expansion.
* `World.compile_finds_cycles` — every compile of an entry with a source reports a cycle if and only
  if there is one, and without the inclusions that close cycles all files are still reached, and no
  cycle is left.
-/

namespace Quill

open Relation

/-- One of the edges leads from `a` to `b` and was followed. -/
def Traverses (edges : List IncludeEdge) (a b : Uri) : Prop :=
  ∃ e ∈ edges, e.status = .ok ∧ e.source = a ∧ e.target = b

namespace Traverses

variable {edges more : List IncludeEdge} {e : IncludeEdge} {a b : Uri}

theorem mono (h : Traverses edges a b) (sub : edges <+: more) : Traverses more a b := by
  obtain ⟨e, mem, facts⟩ := h
  exact ⟨e, sub.subset mem, facts⟩

theorem concat_iff : Traverses (edges ++ [e]) a b ↔
    Traverses edges a b ∨ e.status = .ok ∧ e.source = a ∧ e.target = b := by
  simp [Traverses, or_and_right, exists_or]

/-- What was followed stays followed. -/
theorem path_mono (path : ReflTransGen (Traverses edges) a b) (sub : edges <+: more) :
    ReflTransGen (Traverses more) a b :=
  ReflTransGen.mono (fun _ _ step => step.mono sub) _ _ path

end Traverses

/-- With one more step from `x` to `y` a path is one without that step, or it leads to `x` and on
from `y`. -/
theorem transGen_or_eq_cases {α : Type} {r : α → α → Prop} {x y a b : α}
    (h : TransGen (fun a b => r a b ∨ a = x ∧ b = y) a b) :
    TransGen r a b ∨ ReflTransGen r a x ∧ ReflTransGen r y b := by
  induction h with
  | single step =>
    obtain step | ⟨rfl, rfl⟩ := step
    · exact .inl (.single step)
    · exact .inr ⟨.refl, .refl⟩
  | tail _ step ih =>
    obtain step | ⟨rfl, rfl⟩ := step
    · exact ih.imp (·.tail step) fun h => ⟨h.1, h.2.tail step⟩
    · exact .inr ⟨ih.elim (·.to_reflTransGen) (·.1), .refl⟩

/-! ## Going down and coming back -/

namespace World

/-- While the files of `chain` are being expanded, `uri` the innermost, nothing that was followed
leads into the chain from outside of it, and all of the chain leads to `uri`. So what was followed
has no cycle. -/
structure Descends (w : World) (chain : List Uri) (uri : Uri) (s : Expansion) : Prop where
  files : ∀ {a b}, Traverses s.edges a b → a ∈ s.files ∧ b ∈ s.files
  inside : ∀ u ∈ chain, u ∈ s.files
  closed : ∀ {a b}, Traverses s.edges a b → b ∈ chain → a ∈ chain
  innermost : ∀ u ∈ chain, ReflTransGen (Traverses s.edges) u uri
  acyclic : ∀ u, ¬ TransGen (Traverses s.edges) u u
  rooted : ∀ u ∈ s.files, ReflTransGen (Traverses s.edges) w.entry u
  /-- An inclusion that closes a cycle leads back to where what was followed came from. -/
  closing : ∀ e ∈ s.edges, e.status = .cycle → ReflTransGen (Traverses s.edges) e.target e.source

namespace Descends

variable {w : World} {chain : List Uri} {uri : Uri} {s s' : Expansion} {i : Inclusion} {m : Module}

theorem start (w : World) (m : Module) :
    w.Descends [w.entry] w.entry (Expansion.empty.addFile w.entry m) := by
  constructor <;> simp [Traverses, Expansion.empty, Expansion.addFile, ReflTransGen.refl]
  exact fun u path => by
    obtain ⟨v, step, -⟩ := TransGen.head'_iff.1 path
    simp [Traverses] at step

theorem congr (h : w.Descends chain uri s) (files : s'.files = s.files)
    (edges : s'.edges = s.edges) :
    w.Descends chain uri s' := by
  obtain ⟨f, i, c, n, a, r, l⟩ := h
  constructor <;> simp only [files, edges] <;> assumption

/-- An inclusion that is not followed leaves what was followed as it is. -/
theorem pass (h : w.Descends chain uri s) {status : IncludeStatus} (other : status ≠ .ok)
    (back : status = .cycle → i.target ∈ chain) :
    w.Descends chain uri (s.addEdge uri i status) := by
  have same : Traverses (s.addEdge uri i status).edges = Traverses s.edges := by
    funext a b
    simp [Expansion.addEdge, Traverses.concat_iff, other]
  refine ⟨same ▸ h.files, h.inside, same ▸ h.closed, same ▸ h.innermost, same ▸ h.acyclic,
    same ▸ h.rooted, ?_⟩
  intro e there status
  rw [same]
  rcases List.mem_append.1 there with old | new
  · exact h.closing e old status
  · obtain rfl := List.mem_singleton.1 new
    exact h.innermost _ (back status)

/-- An inclusion may be followed unless what was followed leads back from its target. -/
theorem acyclic_addEdge (h : w.Descends chain uri s)
    (away : ¬ ReflTransGen (Traverses s.edges) i.target uri) (u : Uri) :
    ¬ TransGen (Traverses (s.addEdge uri i .ok).edges) u u := by
  intro path
  have steps : Traverses (s.addEdge uri i .ok).edges ≤
      fun a b => Traverses s.edges a b ∨ a = uri ∧ b = i.target :=
    fun a b step => by simpa [Expansion.addEdge, Traverses.concat_iff, eq_comm] using step
  obtain old | ⟨before, behind⟩ := transGen_or_eq_cases (TransGen.mono steps _ _ path)
  · exact h.acyclic u old
  · exact away (behind.trans before)

/-- What is off the chain leads to nothing on it. -/
theorem not_mem_of_path (h : w.Descends chain uri s)
    {a b : Uri} (path : ReflTransGen (Traverses s.edges) a b) (off : a ∉ chain) : b ∉ chain := by
  induction path with
  | refl => exact off
  | tail _ step ih => exact fun mem => ih (h.closed step mem)

/-- An inclusion of a file that is done is followed. -/
theorem known (h : w.Descends chain uri s) (mem : uri ∈ chain) (off : i.target ∉ chain)
    (old : i.target ∈ s.files) : w.Descends chain uri (s.addEdge uri i .ok) := by
  have grows : s.edges <+: (s.addEdge uri i .ok).edges := List.prefix_append _ _
  have steps {a b : Uri} : Traverses (s.addEdge uri i .ok).edges a b ↔
      Traverses s.edges a b ∨ uri = a ∧ i.target = b := by
        simp [Expansion.addEdge, Traverses.concat_iff]
  constructor
  case files =>
    intro a b step
    obtain step | ⟨rfl, rfl⟩ := steps.1 step
    · exact h.files step
    · exact ⟨h.inside _ mem, old⟩
  case inside => exact h.inside
  case closed =>
    intro a b step on
    obtain step | ⟨rfl, rfl⟩ := steps.1 step
    · exact h.closed step on
    · exact mem
  case innermost => exact fun u on => Traverses.path_mono (h.innermost u on) grows
  case acyclic => exact h.acyclic_addEdge fun path => h.not_mem_of_path path off mem
  case rooted => exact fun u file => Traverses.path_mono (h.rooted u file) grows
  case closing =>
    intro e there status
    rcases List.mem_append.1 there with old | new
    · exact Traverses.path_mono (h.closing e old status) grows
    · obtain rfl := List.mem_singleton.1 new
      cases status

/-- A file is entered: nothing leads on from it yet. -/
theorem enter (h : w.Descends chain uri s) (mem : uri ∈ chain) (new : i.target ∉ s.files)
    (m : Module) :
    w.Descends (chain ++ [i.target]) i.target ((s.addEdge uri i .ok).addFile i.target m) := by
  have grows : s.edges <+: ((s.addEdge uri i .ok).addFile i.target m).edges :=
    List.prefix_append _ _
  have steps {a b : Uri} : Traverses ((s.addEdge uri i .ok).addFile i.target m).edges a b ↔
      Traverses s.edges a b ∨ uri = a ∧ i.target = b := by
    simp [Expansion.addFile, Expansion.addEdge, Traverses.concat_iff]
  have last : Traverses ((s.addEdge uri i .ok).addFile i.target m).edges uri i.target :=
    steps.2 (.inr ⟨rfl, rfl⟩)
  have file {u : Uri} : u ∈ ((s.addEdge uri i .ok).addFile i.target m).files ↔ u ∈ s.files ∨
      u = i.target := by
    simp [Expansion.addFile, Expansion.addEdge]
  constructor
  case files =>
    intro a b step
    rw [file, file]
    obtain step | ⟨rfl, rfl⟩ := steps.1 step
    · exact ⟨.inl (h.files step).1, .inl (h.files step).2⟩
    · exact ⟨.inl (h.inside _ mem), .inr rfl⟩
  case inside =>
    intro u on
    rw [file]
    exact (List.mem_append.1 on).imp (h.inside u) List.mem_singleton.1
  case closed =>
    intro a b step on
    refine List.mem_append_left _ ?_
    obtain step | ⟨rfl, rfl⟩ := steps.1 step
    · rcases List.mem_append.1 on with on | on
      · exact h.closed step on
      · obtain rfl := List.mem_singleton.1 on
        exact absurd (h.files step).2 new
    · exact mem
  case innermost =>
    intro u on
    rcases List.mem_append.1 on with on | on
    · exact (Traverses.path_mono (h.innermost u on) grows).tail last
    · obtain rfl := List.mem_singleton.1 on
      exact .refl
  case acyclic =>
    refine h.acyclic_addEdge fun path => ?_
    obtain eq | ⟨b, step, -⟩ := ReflTransGen.cases_head path
    · exact new (eq ▸ h.inside _ mem)
    · exact new (h.files step).1
  case rooted =>
    intro u there
    obtain old | rfl := file.1 there
    · exact Traverses.path_mono (h.rooted u old) grows
    · exact (Traverses.path_mono (h.rooted uri (h.inside _ mem)) grows).tail last
  case closing =>
    intro e there status
    rcases List.mem_append.1 there with old | new
    · exact Traverses.path_mono (h.closing e old status) grows
    · obtain rfl := List.mem_singleton.1 new
      cases status

/-- A file is done: what it includes is off the chain, or it would have closed a cycle. -/
theorem leave {t : Uri} (h : w.Descends (chain ++ [t]) t s') (before : w.Descends chain uri s)
    (grows : s.Extends s') : w.Descends chain uri s' := by
  constructor
  case files => exact h.files
  case inside => exact fun u on => h.inside u (List.mem_append_left _ on)
  case closed =>
    intro a b step on
    rcases List.mem_append.1 (h.closed step (List.mem_append_left _ on)) with on' | last
    · exact on'
    · obtain rfl := List.mem_singleton.1 last
      exact absurd (TransGen.head' step (h.innermost b (List.mem_append_left _ on))) (h.acyclic a)
  case innermost => exact fun u on => Traverses.path_mono (before.innermost u on) grows.edges
  case acyclic => exact h.acyclic
  case rooted => exact h.rooted
  case closing => exact h.closing

end Descends

variable {w : World} {chain : List Uri} {uri : Uri} {items : List Item} {s s' : Expansion}

/-- What was followed comes back nowhere in an expansion. -/
theorem Expands.descends (h : w.Expands chain uri items s s') (mem : uri ∈ chain)
    (before : w.Descends chain uri s) : w.Descends chain uri s' := by
  induction h with
  | done => exact before
  | item _ _ ih => exact ih mem (before.congr rfl rfl)
  | cycle on _ ih => exact ih mem ((before.pass (by simp) fun _ => on).congr rfl rfl)
  | missing _ _ _ ih => exact ih mem ((before.pass (by simp) (by simp)).congr rfl rfl)
  | known off _ old _ ih => exact ih mem (before.known mem off old)
  | @enter chain uri i src rest s s₁ s' _ _ new deeper _ ihd ihm =>
    have grows : s.Extends s₁ :=
      ((s.extends_addEdge uri i .ok).trans (Expansion.extends_addFile _ _ _)).trans deeper.grows
    exact ihm mem ((ihd (by simp) (before.enter mem new src.module)).leave before grows)

theorem descends_expand (found : (w.source? w.entry).isSome) :
    w.Descends [w.entry] w.entry w.expand := by
  obtain ⟨src, found⟩ := Option.isSome_iff_exists.1 found
  exact (expands_expand found).descends List.mem_cons_self (.start w src.module)

/-! ## The inclusions between files -/

structure Links (w : World) (a b : Uri) : Prop where
  reached : w.Reaches a
  includes : w.Includes a b
  found : (w.source? b).isSome

theorem exists_filter_eq (found : (w.source? w.entry).isSome) {visits : List Visit}
    (flattens : w.Flattens [w.entry] (w.visitsOf [w.entry] w.entry) visits w.expand.files)
    (mem : uri ∈ w.expand.files) : ∃ chain, visits.filter (·.uri = uri) = w.visitsOf chain uri := by
  have inside : ∀ v ∈ w.visitsOf [w.entry] w.entry, v.uri ∈ [w.entry] :=
    fun v mem => by simp [uri_of_mem_visitsOf mem]
  by_cases first : uri = w.entry
  · subst first
    refine ⟨[w.entry], (flattens.filter_eq inside List.mem_cons_self).trans ?_⟩
    exact List.filter_eq_self.2 fun v mem => by simp [uri_of_mem_visitsOf mem]
  · obtain ⟨_, v, _, -, -, -, filter, -⟩ :=
      flattens.exists_first inside (by simpa using first) mem ((mem_files_iff found).1 mem).2
    exact ⟨_, filter⟩

theorem exists_edge_iff (found : (w.source? w.entry).isSome) {a b : Uri} :
    (∃ e ∈ w.expand.edges, e.source = a ∧ e.target = b) ↔ a ∈ w.expand.files ∧ w.Includes a b := by
  obtain ⟨visits, flattens, -, edges⟩ := flattens_expand found
  have inside := flattens.uri_mem fun v mem => by simp [uri_of_mem_visitsOf mem]
  rw [edges]
  constructor
  · rintro ⟨e, mem, rfl, rfl⟩
    obtain ⟨v, visited, eq⟩ := List.mem_filterMap.1 mem
    obtain ⟨i, item, rfl⟩ := Option.map_eq_some_iff.1 eq
    obtain ⟨chain, own⟩ := exists_filter_eq found flattens (inside v visited)
    refine ⟨inside v visited,
      (includes_iff chain).2 ⟨v, own ▸ List.mem_filter.2 ⟨visited, by simp⟩, ?_⟩⟩
    simp [Visit.target?, item]
  · rintro ⟨file, includes⟩
    obtain ⟨chain, own⟩ := exists_filter_eq found flattens file
    obtain ⟨v, mem, target⟩ := (includes_iff chain).1 includes
    obtain ⟨i, item, rfl⟩ := Option.map_eq_some_iff.1 target
    have at_file := uri_of_mem_visitsOf mem
    rw [← own] at mem
    exact ⟨_, List.mem_filterMap.2 ⟨v, (List.mem_filter.1 mem).1, by rw [edge?, item]; rfl⟩,
      at_file, rfl⟩

theorem source?_eq_none_of_missing (found : (w.source? w.entry).isSome)
    {e : IncludeEdge} (mem : e ∈ w.expand.edges)
    (status : e.status = .missing) : w.source? e.target = none := by
  obtain ⟨visits, -, -, edges⟩ := flattens_expand found
  obtain ⟨v, -, eq⟩ := List.mem_filterMap.1 (edges ▸ mem)
  obtain ⟨i, -, rfl⟩ := Option.map_eq_some_iff.1 eq
  simp only [statusOf] at status
  split at status
  · cases status
  · split at status
    next none => simpa using none
    next => cases status

theorem links_iff (found : (w.source? w.entry).isSome) {a b : Uri} : w.Links a b ↔
    ∃ e ∈ w.expand.edges, e.status ≠ .missing ∧ e.source = a ∧ e.target = b := by
  have descends := descends_expand found
  constructor
  · rintro ⟨reached, includes, there⟩
    have file := (mem_files_iff found).2
        ⟨reached, Option.isSome_iff_exists.2 (includes.imp fun _ h => h.1)⟩
    obtain ⟨e, mem, rfl, rfl⟩ := (exists_edge_iff found).2 ⟨file, includes⟩
    refine ⟨e, mem, fun status => ?_, rfl, rfl⟩
    simp [source?_eq_none_of_missing found mem status] at there
  · rintro ⟨e, mem, present, rfl, rfl⟩
    obtain ⟨file, includes⟩ := (exists_edge_iff found).1 ⟨e, mem, rfl, rfl⟩
    refine ⟨((mem_files_iff found).1 file).1, includes, ?_⟩
    have target : e.target ∈ w.expand.files := by
      cases status : e.status with
      | ok => exact (descends.files ⟨e, mem, status, rfl, rfl⟩).2
      | missing => exact absurd status present
      | cycle =>
        obtain same | ⟨b, step, -⟩ := ReflTransGen.cases_head (descends.closing e mem status)
        · exact same ▸ file
        · exact (descends.files step).1
    exact ((mem_files_iff found).1 target).2

theorem exists_cycle_iff (found : (w.source? w.entry).isSome) :
    (∃ u, TransGen w.Links u u) ↔ ∃ e ∈ w.expand.edges, e.status = .cycle := by
  have descends := descends_expand found
  have followed {a b : Uri} (step : Traverses w.expand.edges a b) : w.Links a b := by
    obtain ⟨e, mem, status, ends⟩ := step
    exact (links_iff found).2 ⟨e, mem, by simp [status], ends⟩
  constructor
  · rintro ⟨u, path⟩
    refine Classical.byContradiction fun none =>
      descends.acyclic u (TransGen.mono (fun a b link => ?_) _ _ path)
    obtain ⟨e, mem, present, ends⟩ := (links_iff found).1 link
    refine ⟨e, mem, ?_, ends⟩
    cases status : e.status with
    | ok => rfl
    | missing => exact absurd status present
    | cycle => exact absurd ⟨e, mem, status⟩ none
  · rintro ⟨e, mem, status⟩
    have link := (links_iff found).2 ⟨e, mem, by simp [status], rfl, rfl⟩
    have back := ReflTransGen.mono (fun _ _ => followed) _ _ (descends.closing e mem status)
    exact ⟨e.source, TransGen.head' link back⟩

/-! ## Reports -/

theorem exists_of_code_eq {f : Finding} (code : f.code = "include-cycle") :
    ∃ files, f = .includeCycle files := by
  cases f with
  | includeCycle files => exact ⟨files, rfl⟩
  | syntaxError p =>
    cases p <;> simp only [Finding.code, SyntaxProblem.code] at code <;>
      exact absurd code (by decide)
  | fileNotFound | duplicateLabel | unknownLabel | unknownVariable | unusedBinding
  | internalError =>
    simp only [Finding.code] at code
    exact absurd code (by decide)

/-- A cycle is reported for each inclusion that closes one, and for no other. -/
theorem Expands.cycle_reported_iff (h : w.Expands chain uri items s s')
    (before : (∃ r ∈ s.reports, ∃ files, r.finding = .includeCycle files) ↔
      ∃ e ∈ s.edges, e.status = .cycle) :
    (∃ r ∈ s'.reports, ∃ files, r.finding = .includeCycle files) ↔ ∃ e ∈ s'.edges,
    e.status = .cycle := by
  induction h with
  | done => exact before
  | item _ _ ih => exact ih before
  | cycle _ _ ih | missing _ _ _ ih | known _ _ _ _ ih =>
    exact ih (by simp [Expansion.addEdge, Expansion.addReport, or_and_right, exists_or, before])
  | enter _ _ _ _ _ ihd ihm =>
    exact ihm (ihd (by simp [Expansion.addFile, Expansion.addEdge, or_and_right,
      exists_or, before]))

/-- Resolving names reports no cycle. -/
theorem exists_cycle_report_iff (w : World) :
    (∃ r ∈ w.reports, ∃ files, r.finding = .includeCycle files) ↔
    ∃ r ∈ w.expand.reports, ∃ files, r.finding = .includeCycle files := by
  have duplicates (known : List LabelDefinition) (ls : List Resolution.PlacedLabel) :
      ∀ r ∈ Resolution.duplicates known ls, ∀ files, r.finding ≠ .includeCycle files := by
    induction ls generalizing known with
    | nil => simp [Resolution.duplicates]
    | cons l rest ih =>
      unfold Resolution.duplicates
      split
      · exact List.forall_mem_cons.2 ⟨by simp, ih _⟩
      · exact ih _
  constructor
  · rintro ⟨r, mem, files, finding⟩
    simp only [reports, List.mem_append] at mem
    obtain (((mem | mem) | mem) | mem) | mem := mem
    · exact ⟨r, mem, files, finding⟩
    · exact absurd finding (duplicates _ _ r mem files)
    all_goals
      obtain ⟨x, -, rfl⟩ := List.mem_map.1 mem
      cases finding
  · rintro ⟨r, mem, facts⟩
    exact ⟨r, by simp [reports, mem], facts⟩

theorem exists_diagnostic_iff (found : (w.source? w.entry).isSome) (code : Text) :
    (∃ e ∈ w.compile.diagnostics, ∃ d ∈ e.2, d.code = code) ↔ ∃ r ∈ w.reports,
    r.finding.code = code := by
  rw [diagnostics_compile]
  constructor
  · rintro ⟨e, mem, d, listed, rfl⟩
    obtain ⟨uri, -, rfl⟩ := List.mem_map.1 mem
    obtain ⟨r, reported, rfl⟩ := List.mem_map.1 ((sortBy_perm _ _).mem_iff.1 listed)
    exact ⟨r, (List.mem_filter.1 reported).1, rfl⟩
  · rintro ⟨r, mem, rfl⟩
    refine ⟨_, List.mem_map.2 ⟨r.uri, uri_mem_of_mem_reports found mem, rfl⟩,
      diagnose (w.lineTables w.compile.artifact.files) r, ?_, rfl⟩
    exact (sortBy_perm _ _).mem_iff.2 (List.mem_map.2 ⟨r, List.mem_filter.2 ⟨mem, by simp⟩, rfl⟩)

/-! ## Cycles are found -/

structure FindsCycles (w : World) (c : Compiled) : Prop where
  /-- A cycle is reported if and only if the inclusions between the files that are reached have
  one. -/
  reported : (∃ e ∈ c.diagnostics, ∃ d ∈ e.2, d.code = "include-cycle") ↔ ∃ u, TransGen w.Links u u
  /-- Those inclusions are the edges but for the missing ones. -/
  edges : ∀ a b, w.Links a b ↔
    ∃ e ∈ c.artifact.includes, e.status ≠ .missing ∧ e.source = a ∧ e.target = b
  acyclic : ∀ u, ¬ TransGen (Traverses c.artifact.includes) u u
  /-- All files of the closure are reached by what was followed. -/
  rooted : ∀ u, w.Reaches u → (w.source? u).isSome →
  ReflTransGen (Traverses c.artifact.includes) w.entry u
  /-- An edge that is marked as a cycle leads back to where what was followed came from. -/
  closing : ∀ e ∈ c.artifact.includes, e.status = .cycle →
    ReflTransGen (Traverses c.artifact.includes) e.target e.source

/-- Every compile of an entry with a source finds the cycles of inclusions. -/
theorem compile_finds_cycles (found : (w.source? w.entry).isSome) :
    ∃ c, w.compile? = .ok c ∧ w.FindsCycles c := by
  obtain ⟨src, source⟩ := Option.isSome_iff_exists.1 found
  have descends := descends_expand found
  refine ⟨w.compile, by simp [compile?, source], ?_⟩
  constructor
  case reported =>
    have closes := (expands_expand source).cycle_reported_iff
        (by simp [Expansion.addFile, Expansion.empty])
    rw [exists_diagnostic_iff found, exists_cycle_iff found, ← closes, ← exists_cycle_report_iff]
    constructor
    · rintro ⟨r, mem, code⟩
      exact ⟨r, mem, exists_of_code_eq code⟩
    · rintro ⟨r, mem, files, finding⟩
      exact ⟨r, mem, by rw [finding]; rfl⟩
  case edges => exact fun a b => links_iff found
  case acyclic => exact descends.acyclic
  case rooted => exact fun u reached there =>
    descends.rooted u ((mem_files_iff found).2 ⟨reached, there⟩)
  case closing => exact descends.closing

/-- Two files that include each other and a third one twice. -/
def returning : World :=
  ofSources "/m" [.ofText "/m" "#include \"a\"\n#include \"b\"",
    .ofText "/a" "#include \"b\"\n#include \"m\"", .ofText "/b" "= B"] .default

theorem compile_finds_cycles_returning : (returning.source? returning.entry).isSome ∧ ∃ c,
    returning.compile? = .ok c ∧ returning.FindsCycles c ∧
      c.artifact.includes.map (fun e => (e.source, e.target, e.status)) =
        ([("/m", "/a", .ok), ("/a", "/b", .ok), ("/a", "/m", .cycle), ("/m", "/b", .ok)] :
          List (Uri × Uri × IncludeStatus)) := by
  have found : (returning.source? returning.entry).isSome := by decide +kernel
  obtain ⟨c, compiled, cycles⟩ := compile_finds_cycles found
  refine ⟨found, c, compiled, cycles, ?_⟩
  obtain rfl : returning.compile = c := by
    rw [compile?, if_neg (by simpa using Option.isSome_iff_ne_none.1 found)] at compiled
    exact Except.ok.inj compiled
  decide +kernel

end World

end Quill
