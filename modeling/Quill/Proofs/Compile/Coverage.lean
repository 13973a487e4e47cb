import Quill.Proofs.Compile.Flattening
import Quill.Proofs.Compile.Shadowing

/-!
# A compile covers the closure of its entry once

Whatever the inclusions are like, a compile comes to an end. Its files are what inclusions lead to
from the entry and has a source, each once, in depth-first preorder; it has an edge for every
inclusion and a placed item for every other item of them, and diagnostics for no other document.

## Main definitions

* `World.Covers` — what a compile makes of the closure of its entry.

## Main statements

* `World.uri_mem_of_mem_reports` — nothing is reported on a document that is no file.
* `World.compile_covers` — every compile of an entry with a source covers its closure.
-/

namespace Quill

/-! ## Whatever is resolved stands where an item is placed -/

namespace Resolution

theorem uris_placedLabels_sublist (current : Option (Uri × Heading)) (placed : List PlacedItem) :
    ((placedLabels current placed).map (·.uri)).Sublist (placed.map (·.uri)) := by
  induction placed generalizing current with
  | nil => exact .slnil
  | cons p rest ih =>
    unfold placedLabels
    split
    · exact (ih _).cons _
    · exact (ih _).cons_cons _
    · exact (ih _).cons _

theorem uris_duplicates_sublist (known : List LabelDefinition) (ls : List PlacedLabel) :
    ((duplicates known ls).map (·.uri)).Sublist (ls.map (·.uri)) := by
  induction ls generalizing known with
  | nil => exact .slnil
  | cons l rest ih =>
    unfold duplicates
    split
    · exact (ih _).cons_cons _
    · exact (ih _).cons _

/-- What is picked from the placed items, each with its document, comes from these documents in
order. -/
theorem uris_filterMap_sublist {β : Type} {pick : PlacedItem → Option β} {uriOf : β → Uri}
    (here : ∀ p x, pick p = some x → uriOf x = p.uri) (placed : List PlacedItem) :
    ((placed.filterMap pick).map uriOf).Sublist (placed.map (·.uri)) := by
  induction placed with
  | nil => exact .slnil
  | cons p rest ih =>
    cases picked : pick p with
    | none => simpa [picked] using ih.cons p.uri
    | some x => simpa [picked, here p x picked] using ih.cons_cons p.uri

theorem uris_references_sublist (labels : List LabelDefinition) (placed : List PlacedItem) :
    ((references labels placed).map (·.uri)).Sublist (placed.map (·.uri)) := by
  refine uris_filterMap_sublist (fun p x picked => ?_) placed
  split at picked
  · rw [← Option.some.inj picked]
  · simp at picked

theorem uris_placedBindings_sublist (placed : List PlacedItem) :
    ((placedBindings placed).map (·.uri)).Sublist (placed.map (·.uri)) := by
  refine uris_filterMap_sublist (fun p x picked => ?_) placed
  split at picked
  · rw [← Option.some.inj picked]
  · simp at picked

theorem uris_bindings (bs : List PlacedBinding) (us : List PlacedUse) :
    (bindings bs us).map (·.uri) = bs.map (·.uri) := by
  calc (bindings bs us).map (·.uri)
    _ = (bs.zipIdx.map Prod.fst).map (·.uri) := by rw [bindings, List.map_map, List.map_map]; rfl
    _ = bs.map (·.uri) := by rw [List.zipIdx_map_fst]

theorem uris_placedUses_sublist (defined : List PlacedBinding) (placed : List PlacedItem) :
    ((placedUses defined placed).map (·.uri)).Sublist (placed.map (·.uri)) := by
  induction placed generalizing defined with
  | nil => exact .slnil
  | cons p rest ih =>
    unfold placedUses
    split
    · exact (ih _).cons _
    · exact (ih _).cons_cons _
    · exact (ih _).cons _

theorem uris_uses (inputs : Dict Text Text) (bs : List BindingDefinition) (us : List PlacedUse) :
    (uses inputs bs us).map (·.uri) = us.map (·.uri) := by
  rw [uses, List.map_map]
  rfl

end Resolution

namespace World

open Resolution

variable {w : World} {chain : List Uri} {uri : Uri} {items : List Item} {s s' : Expansion}
  {r : Report}

/-- Inclusions and errors are reported where they stand. -/
theorem Expands.forall_reports (h : w.Expands chain uri items s s') (inside : uri ∈ s.files)
    (known : ∀ r ∈ s.reports, r.uri ∈ s.files) : ∀ r ∈ s'.reports, r.uri ∈ s'.files := by
  induction h with
  | done => exact known
  | item _ _ ih => exact ih inside known
  | cycle _ _ ih | missing _ _ _ ih =>
    refine ih inside fun r mem => ?_
    rcases List.mem_append.1 mem with mem | mem
    · exact known r mem
    · obtain rfl := List.mem_singleton.1 mem
      exact inside
  | known _ _ _ _ ih => exact ih inside known
  | @enter chain uri i src rest s s₁ s' off found new deeper _ ihd ihm =>
    refine ihm (deeper.grows.mem_files (List.mem_append_left _ inside))
      (ihd (by simp [Expansion.addFile]) ?_)
    intro r mem
    rcases List.mem_append.1 mem with mem | mem
    · exact List.mem_append_left _ (known r mem)
    · obtain ⟨e, -, rfl⟩ := List.mem_map.1 mem
      simp [Expansion.addFile]

theorem uri_mem_of_mem_placed (found : (w.source? w.entry).isSome)
    {p : PlacedItem} (mem : p ∈ w.expand.placed) :
    p.uri ∈ w.expand.files := by
  obtain ⟨visits, flattens, placed, -⟩ := flattens_expand found
  obtain ⟨v, visited, eq⟩ := List.mem_filterMap.1 (placed ▸ mem)
  have inside := flattens.uri_mem fun v mem => by simp [uri_of_mem_visitsOf mem]
  unfold Visit.plain? at eq
  split at eq
  · obtain rfl := Option.some.inj eq
    exact inside v visited
  · simp at eq

/-- Nothing is reported on a document that is no file. -/
theorem uri_mem_of_mem_reports (found : (w.source? w.entry).isSome) (mem : r ∈ w.reports) :
    r.uri ∈ w.expand.files := by
  have placed {uris : List Uri} (sub : uris.Sublist (w.expand.placed.map (·.uri)))
      (mem : r.uri ∈ uris) :
      r.uri ∈ w.expand.files := by
    obtain ⟨p, mem, eq⟩ := List.mem_map.1 (sub.subset mem)
    exact eq ▸ uri_mem_of_mem_placed found mem
  simp only [reports, List.mem_append] at mem
  obtain (((mem | mem) | mem) | mem) | mem := mem
  · obtain ⟨src, found⟩ := Option.isSome_iff_exists.1 found
    refine (expands_expand found).forall_reports (by simp [Expansion.addFile]) (fun r mem => ?_) r
      mem
    obtain ⟨e, -, rfl⟩ := List.mem_map.1 mem
    simp [Expansion.addFile]
  · exact placed ((uris_duplicates_sublist _ _).trans (uris_placedLabels_sublist _ _))
      (List.mem_map.2 ⟨r, mem, rfl⟩)
  · obtain ⟨x, known, rfl⟩ := List.mem_map.1 mem
    exact placed (uris_references_sublist _ _)
      (List.mem_map.2 ⟨x, (List.mem_filter.1 known).1, rfl⟩)
  · obtain ⟨x, known, rfl⟩ := List.mem_map.1 mem
    rw [uses_compile] at known
    exact placed (uris_uses _ _ _ ▸ uris_placedUses_sublist _ _)
      (List.mem_map.2 ⟨x, (List.mem_filter.1 known).1, rfl⟩)
  · obtain ⟨x, known, rfl⟩ := List.mem_map.1 mem
    rw [bindings_compile] at known
    exact placed (uris_bindings _ _ ▸ uris_placedBindings_sublist _)
      (List.mem_map.2 ⟨x, (List.mem_filter.1 known).1, rfl⟩)

/-! ## The closure is covered -/

/-- What a compile makes of the closure of its entry, when `visits` are the items in the order in
which they are visited. -/
structure Covers (w : World) (c : Compiled) (visits : List Visit) : Prop where
  /-- The expansion comes to an end by itself: it does not depend on how deep it may go. -/
  ends : ∀ depth, w.sources.length ≤ depth → w.expandFile depth [w.entry] w.entry .empty = w.expand
  /-- The files are all that is reached and has a source, once, in depth-first preorder. -/
  mem_files : ∀ uri, uri ∈ c.artifact.files ↔ w.Reaches uri ∧ (w.source? uri).isSome
  nodup : c.artifact.files.Nodup
  preorder : w.Preorder [] [w.entry] c.artifact.files
  /-- There are diagnostics for these files, and nothing is reported on any other document. -/
  keys : Dict.keys c.diagnostics = c.artifact.files
  reports : ∀ r ∈ w.reports, r.uri ∈ c.artifact.files
  /-- The items are visited as in the flattened document. Those that are no inclusions are placed,
  the others are the edges, each with its status. -/
  flattens : w.Flattens [w.entry] (w.visitsOf [w.entry] w.entry) visits c.artifact.files
  placed : w.expand.placed = visits.filterMap Visit.plain?
  edges : c.artifact.includes = visits.filterMap w.edge?
  /-- No item of any other document is visited, and the items of a file are visited once and in
  order: those of the entry first, those of any other file from the first inclusion of it on. -/
  inside : ∀ v ∈ visits, v.uri ∈ c.artifact.files
  entry : visits.filter (·.uri = w.entry) = w.visitsOf [w.entry] w.entry ∧
    ∀ first ∈ (w.visitsOf [w.entry] w.entry).head?, visits.head? = some first
  others : ∀ uri ∈ c.artifact.files, uri ≠ w.entry → ∃ before v behind,
  visits = before ++ v :: behind ∧
    v.target? = some uri ∧ (∀ v' ∈ before, v'.uri ≠ uri ∧ v'.target? ≠ some uri) ∧
    visits.filter (·.uri = uri) = w.visitsOf (v.chain ++ [uri]) uri ∧
    ∀ first ∈ (w.visitsOf (v.chain ++ [uri]) uri).head?, behind.head? = some first

/-- Every compile of an entry with a source comes to an end and covers the closure of the entry. -/
theorem compile_covers (found : (w.source? w.entry).isSome) :
    ∃ c visits, w.compile? = .ok c ∧ w.Covers c visits := by
  obtain ⟨visits, flattens, placed, edges⟩ := flattens_expand found
  have inside : ∀ v ∈ w.visitsOf [w.entry] w.entry, v.uri ∈ [w.entry] :=
    fun v mem => by simp [uri_of_mem_visitsOf mem]
  refine ⟨w.compile, visits, by simp [compile?, Option.isSome_iff_ne_none.1 found], ?_⟩
  constructor
  case ends =>
    obtain ⟨src, found⟩ := Option.isSome_iff_exists.1 found
    exact fun depth bound => expandFile_eq_expand found bound
  case mem_files => exact fun uri => mem_files_iff found
  case nodup => exact flattens.nodup (List.pairwise_singleton _ _)
  case preorder =>
    obtain ⟨order, eq, preorder⟩ := flattens.preorder
    rw [targets_visitsOf] at preorder
    change w.Preorder [] [w.entry] w.expand.files
    rw [eq]
    exact .visit found (by simp) (by simpa using preorder)
  case keys => simp [diagnostics_compile, diagnostics, Dict.keys, Function.comp_def]
  case reports => exact fun r mem => uri_mem_of_mem_reports found mem
  case flattens => exact flattens
  case placed => exact placed
  case edges => exact edges
  case inside => exact flattens.uri_mem inside
  case entry =>
    refine ⟨?_, fun first start => flattens.head?_eq.trans start⟩
    rw [flattens.filter_eq inside List.mem_cons_self]
    exact List.filter_eq_self.2 fun v mem => by simp [uri_of_mem_visitsOf mem]
  case others =>
    exact fun uri mem other =>
      flattens.exists_first inside (by simpa using other) mem ((mem_files_iff found).1 mem).2

/-- Four files that include each other, one of them twice and one itself, and one that is not
there. -/
def tangled : World :=
  ofSources "/m" [.ofText "/m" "#include \"a\"\n= M\n#include \"b\"\n#include \"m\"",
    .ofText "/a" "#include \"c\"\n= A", .ofText "/b" "= B\n#include \"c\"\n#include \"x\"",
    .ofText "/c" "= C\n#include \"a\""] .default

theorem compile_covers_tangled : (tangled.source? tangled.entry).isSome ∧ ∃ c visits,
    tangled.compile? = .ok c ∧ tangled.Covers c visits ∧ c.artifact.files =
      (["/m", "/a", "/c", "/b"] : List Uri) ∧
      c.artifact.includes.map (fun e => (e.source, e.target, e.status)) =
        ([("/m", "/a", .ok), ("/a", "/c", .ok), ("/c", "/a", .cycle), ("/m", "/b", .ok),
          ("/b", "/c", .ok),
          ("/b", "/x", .missing), ("/m", "/m", .cycle)] : List (Uri × Uri × IncludeStatus)) := by
  have found : (tangled.source? tangled.entry).isSome := by decide +kernel
  obtain ⟨c, visits, compiled, covers⟩ := compile_covers found
  refine ⟨found, c, visits, compiled, covers, ?_⟩
  obtain rfl : tangled.compile = c := by
    rw [compile?, if_neg (by simpa using Option.isSome_iff_ne_none.1 found)] at compiled
    exact Except.ok.inj compiled
  decide +kernel

end World

end Quill
