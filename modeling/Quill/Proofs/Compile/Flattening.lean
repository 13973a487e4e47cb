import Quill.Compile.Resolution
import Quill.Proofs.Compile.Expansion

/-!
# Documents with their inclusions put in

A document is flattened by putting the items of a file behind the first inclusion of it, again and
again, while all other inclusions stay as they are. An expansion visits the items of all files in
that order: what is placed are the items but for the inclusions, and the inclusions are the edges.
The files come in depth-first preorder.

Two worlds with one entry and the same settings compile alike when they agree on what inclusions
lead to: on the sources there, and on which of them are missing. What else they hold does not
matter, and neither does the order in which they were given their sources.

## Main definitions

* `Visit` — an item in its place, with the files that are being expanded there.
* `World.Flattens` — how items are visited.
* `World.Preorder` — documents in the order in which a depth-first search finds them.

## Main statements

* `World.visits_expand` — an expansion visits the items in the order of the flattened document, and
  reports the problems of the files and of the inclusions.
* `World.mem_files_iff` — the files are all that is reached and has a source.
* `World.Flattens.filter_eq`, `World.Flattens.exists_first` — every file is visited once, item by
  item, and from the first inclusion of it on.
* `World.expand_congr`, `World.compile_congr` — a compile reads its closure only.
-/

namespace Quill

/-- An item in its place, with the files that are being expanded there, outermost first. -/
structure Visit extends PlacedItem where
  chain : List Uri
  deriving DecidableEq, Repr

namespace Visit

def target? (v : Visit) : Option Uri := v.item.inclusion?.map Inclusion.target

def plain? (v : Visit) : Option PlacedItem :=
  if v.item.inclusion?.isNone then some v.toPlacedItem else none

end Visit

namespace World

variable (w : World)

/-- What becomes of an inclusion while `chain` is being expanded. -/
def statusOf (chain : List Uri) (target : Uri) : IncludeStatus :=
  if target ∈ chain then .cycle else if (w.source? target).isNone then .missing else .ok

def edge? (v : Visit) : Option IncludeEdge :=
  v.item.inclusion?.map fun i => ⟨v.uri, i.target, i.specifier, i.span, w.statusOf v.chain i.target⟩

/-- The items of a file, to be visited while `chain` is being expanded. -/
def visitsOf (chain : List Uri) (uri : Uri) : List Visit :=
  match w.source? uri with
  | some src => src.module.items.map fun item => ⟨⟨uri, item⟩, chain⟩
  | none => []

/-- What is reported on a visit: an inclusion that closes a cycle, or one of a document without a
source. -/
def problem? (v : Visit) : Option Report :=
  v.item.inclusion?.bind fun i =>
    match w.statusOf v.chain i.target with
    | .ok => none
    | .cycle => some {
      uri := v.uri, finding := .includeCycle (cycleFrom v.uri v.chain i.target), span := i.span }
    | .missing => some { uri := v.uri, finding := .fileNotFound i.specifier, span := i.pathSpan }

def syntaxProblems (uri : Uri) : List Report :=
  match w.source? uri with
  | some src => src.module.errors.map fun e =>
      { uri, finding := .syntaxError e.problem, span := e.span }
  | none => []

/-- The documents that a document includes, in order. -/
def targetsOf (uri : Uri) : List Uri :=
  match w.source? uri with
  | some src => src.module.inclusions.map Inclusion.target
  | none => []

/-- The items to be visited, with the items of each file put behind the first inclusion of it. The
files that have been put in before are `seen`, and all of them are `files` in the end. -/
inductive Flattens :
    (seen : List Uri) → (stack : List Visit) → (visits : List Visit) → (files : List Uri) → Prop
  | done {seen} : Flattens seen [] [] seen
  | pass {seen v stack visits files} (stays : ∀ t ∈ v.target?, t ∈ seen ∨ w.source? t = none)
    (more : Flattens seen stack visits files) : Flattens seen (v :: stack) (v :: visits) files
  | enter {seen v stack visits files t} (includes : v.target? = some t)
    (there : (w.source? t).isSome)
    (new : t ∉ seen) (more : Flattens (seen ++ [t]) (w.visitsOf (v.chain ++ [t]) t ++ stack)
      visits files) :
    Flattens seen (v :: stack) (v :: visits) files

/-- The documents with a source that a depth-first search finds from those on the stack, but for
those it has seen: a document, then all that its inclusions lead to in order, then the others. -/
inductive Preorder : (seen : List Uri) → (stack : List Uri) → (order : List Uri) → Prop
  | done {seen} : Preorder seen [] []
  | pass {seen u stack order} (stays : u ∈ seen ∨ w.source? u = none)
    (more : Preorder seen stack order) :
    Preorder seen (u :: stack) order
  | visit {seen u stack order} (there : (w.source? u).isSome) (new : u ∉ seen)
    (more : Preorder (seen ++ [u]) (w.targetsOf u ++ stack) order) :
    Preorder seen (u :: stack) (u :: order)

variable {w} {chain seen files : List Uri} {uri u t : Uri} {src : Source} {items : List Item}
  {s s' : Expansion} {stack visits more : List Visit} {v : Visit}

theorem visitsOf_eq (found : w.source? uri = some src) (chain : List Uri) :
    w.visitsOf chain uri = src.module.items.map fun item => ⟨⟨uri, item⟩, chain⟩ := by
      rw [visitsOf, found]

theorem syntaxProblems_eq (found : w.source? uri = some src) : w.syntaxProblems uri =
    src.module.errors.map fun e => { uri, finding := .syntaxError e.problem, span := e.span } := by
  rw [syntaxProblems, found]

theorem uri_of_mem_visitsOf (mem : v ∈ w.visitsOf chain uri) : v.uri = uri := by
  unfold visitsOf at mem
  split at mem
  · obtain ⟨item, -, rfl⟩ := List.mem_map.1 mem
    rfl
  · simp at mem

theorem targets_visitsOf (chain : List Uri) (uri : Uri) :
    (w.visitsOf chain uri).filterMap Visit.target? = w.targetsOf uri := by
  unfold visitsOf targetsOf
  cases w.source? uri with
  | none => rfl
  | some src => simp only [List.filterMap_map, Module.inclusions, List.map_filterMap]; rfl

theorem includes_iff (chain : List Uri) :
    w.Includes uri t ↔ ∃ v ∈ w.visitsOf chain uri, v.target? = some t := by
  rw [← List.mem_filterMap, targets_visitsOf]
  unfold Includes targetsOf
  cases found : w.source? uri <;> simp [eq_comm]

/-- When a file is put in, all that is to be visited stands in files that have been put in. -/
theorem forall_uri_mem_enter (inside : ∀ v ∈ stack, v.uri ∈ seen) (chain : List Uri) (t : Uri) :
    ∀ v ∈ w.visitsOf chain t ++ stack, v.uri ∈ seen ++ [t] := by
  intro v mem
  rcases List.mem_append.1 mem with mem | mem
  · simp [uri_of_mem_visitsOf mem]
  · exact List.mem_append_left _ (inside v mem)

/-! ## Expansions visit the flattened document -/

/-- What an expansion adds for the items of a file are the visits of the flattened document. What it
reports, in an order that does not matter here, are the problems of the files that it enters and of
the inclusions among the visits. -/
theorem Expands.flattens (h : w.Expands chain uri items s s') (inside : ∀ u ∈ chain, u ∈ s.files) :
    ∃ visits entered, s'.files = s.files ++ entered ∧ s'.placed = s.placed ++
      visits.filterMap Visit.plain? ∧
      s'.edges = s.edges ++ visits.filterMap w.edge? ∧
      s'.reports.Perm (s.reports ++
        (entered.flatMap w.syntaxProblems ++ visits.filterMap w.problem?)) ∧
      ∀ {stack more files}, w.Flattens s'.files stack more files →
        w.Flattens s.files ((items.map fun item => ⟨⟨uri, item⟩, chain⟩) ++ stack) (visits ++ more)
          files := by
  induction h with
  | done => exact ⟨[], [], by simp, by simp, by simp, by simp, fun more => more⟩
  | @item chain uri item rest s s' plain _ ih =>
    obtain ⟨visits, entered, grows, placed, edges, reports, flattens⟩ := ih inside
    refine ⟨⟨⟨uri, item⟩, chain⟩ :: visits, entered, grows, ?_, ?_, ?_,
      fun more => .pass ?_ (flattens more)⟩
    · simp [placed, Expansion.addItem, Visit.plain?, plain]
    · simp [edges, Expansion.addItem, edge?, plain]
    · simpa [Expansion.addItem, problem?, plain] using reports
    · simp [Visit.target?, plain]
  | @cycle chain uri i rest s s' mem _ ih =>
    obtain ⟨visits, entered, grows, placed, edges, reports, flattens⟩ := ih inside
    refine ⟨⟨⟨uri, .inclusion i⟩, chain⟩ :: visits, entered, grows, ?_, ?_, ?_,
      fun more => .pass ?_ (flattens more)⟩
    · simpa [Expansion.addReport, Expansion.addEdge, Visit.plain?, Item.inclusion?] using placed
    · simpa [Expansion.addReport, Expansion.addEdge, edge?, statusOf, Item.inclusion?, mem]
        using edges
    · refine reports.trans ?_
      simp only [Expansion.addReport, Expansion.addEdge, problem?, statusOf, Item.inclusion?, mem,
        if_true, Option.bind_some, List.filterMap_cons, List.append_assoc, List.singleton_append]
      exact List.Perm.append_left _ List.perm_middle.symm
    · rintro _ ⟨⟩
      exact .inl (inside _ mem)
  | @missing chain uri i rest s s' off absent _ ih =>
    obtain ⟨visits, entered, grows, placed, edges, reports, flattens⟩ := ih inside
    refine ⟨⟨⟨uri, .inclusion i⟩, chain⟩ :: visits, entered, grows, ?_, ?_, ?_,
      fun more => .pass ?_ (flattens more)⟩
    · simpa [Expansion.addReport, Expansion.addEdge, Visit.plain?, Item.inclusion?] using placed
    · simpa [Expansion.addReport, Expansion.addEdge, edge?, statusOf, Item.inclusion?, off, absent]
        using edges
    · refine reports.trans ?_
      simp only [Expansion.addReport, Expansion.addEdge, problem?, statusOf, Item.inclusion?, off,
        absent, if_true,
        if_false, Option.isNone_none, Option.bind_some, List.filterMap_cons, List.append_assoc,
        List.singleton_append]
      exact List.Perm.append_left _ List.perm_middle.symm
    · rintro _ ⟨⟩
      exact .inr absent
  | @known chain uri i src rest s s' off found old _ ih =>
    obtain ⟨visits, entered, grows, placed, edges, reports, flattens⟩ := ih inside
    refine ⟨⟨⟨uri, .inclusion i⟩, chain⟩ :: visits, entered, grows, ?_, ?_, ?_,
      fun more => .pass ?_ (flattens more)⟩
    · simpa [Expansion.addEdge, Visit.plain?, Item.inclusion?] using placed
    · simpa [Expansion.addEdge, edge?, statusOf, Item.inclusion?, off, found] using edges
    · simpa [Expansion.addEdge, problem?, statusOf, Item.inclusion?, off, found] using reports
    · rintro _ ⟨⟩
      exact .inl old
  | @enter chain uri i src rest s s₁ s' off found new deeper _ ihd ihm =>
    have grows : (s.addEdge uri i .ok).Extends s₁ :=
      (Expansion.extends_addFile _ _ _).trans deeper.grows
    obtain ⟨visits₁, entered₁, grows₁, placed₁, edges₁, reports₁, flattens₁⟩ := ihd fun u mem => by
      rcases List.mem_append.1 mem with mem | mem
      · exact List.mem_append_left _ (inside u mem)
      · exact List.mem_append_right _ mem
    obtain ⟨visits₂, entered₂, grows₂, placed₂, edges₂, reports₂, flattens₂⟩ :=
      ihm fun u mem => grows.mem_files (inside u mem)
    refine ⟨⟨⟨uri, .inclusion i⟩, chain⟩ :: (visits₁ ++ visits₂),
      i.target :: (entered₁ ++ entered₂), ?_, ?_, ?_, ?_, fun {stack more files} flat => ?_⟩
    · simp [grows₂, grows₁, Expansion.addFile, Expansion.addEdge]
    · simp [placed₂, placed₁, Expansion.addFile, Expansion.addEdge, Visit.plain?, Item.inclusion?]
    · simp [edges₂, edges₁, Expansion.addFile, Expansion.addEdge, edge?, statusOf, Item.inclusion?,
        off, found]
    · -- every report is counted in both, whatever the order
      refine List.perm_iff_count.2 fun r => ?_
      have count₁ := reports₁.count_eq r
      have count₂ := reports₂.count_eq r
      simp only [Expansion.addFile, Expansion.addEdge, List.count_append] at count₁ count₂
      simp [problem?, statusOf, Item.inclusion?, off, found, syntaxProblems_eq found]
      omega
    · -- the items of the file come before those that are left of this one, and before the stack
      have entered :
          w.Flattens (s.files ++ [i.target]) (w.visitsOf (chain ++ [i.target]) i.target ++
          ((rest.map fun item => ⟨⟨uri, item⟩, chain⟩) ++ stack)) (visits₁ ++ visits₂ ++ more)
            files := by
        rw [visitsOf_eq found, List.append_assoc]
        exact flattens₁ (flattens₂ flat)
      exact .enter rfl (by simp [found]) new entered

/-- An expansion visits the items in the order of the flattened document, and it reports the
problems of the files and of the inclusions. -/
theorem visits_expand (found : (w.source? w.entry).isSome) :
    ∃ visits, w.Flattens [w.entry] (w.visitsOf [w.entry] w.entry) visits w.expand.files ∧
      w.expand.placed = visits.filterMap Visit.plain? ∧ w.expand.edges = visits.filterMap w.edge? ∧
      w.expand.reports.Perm
        (w.expand.files.flatMap w.syntaxProblems ++ visits.filterMap w.problem?) := by
  obtain ⟨src, found⟩ := Option.isSome_iff_exists.1 found
  obtain ⟨visits, entered, grows, placed, edges, reports, flattens⟩ :=
    (expands_expand found).flattens (by simp [Expansion.addFile])
  refine ⟨visits, ?_, placed, edges, ?_⟩
  · simpa [visitsOf_eq found, Expansion.addFile, Expansion.empty] using flattens .done
  · simpa [grows, Expansion.addFile, Expansion.empty, syntaxProblems_eq found] using reports

/-- An expansion visits the items in the order of the flattened document. -/
theorem flattens_expand (found : (w.source? w.entry).isSome) :
    ∃ visits, w.Flattens [w.entry] (w.visitsOf [w.entry] w.entry) visits w.expand.files ∧
      w.expand.placed = visits.filterMap Visit.plain? ∧ w.expand.edges =
        visits.filterMap w.edge? := by
  obtain ⟨visits, flattens, placed, edges, -⟩ := visits_expand found
  exact ⟨visits, flattens, placed, edges⟩

/-! ## Which files are visited -/

namespace Flattens

variable (h : w.Flattens seen stack visits files)
include h

theorem seen_subset : seen ⊆ files := by
  induction h with
  | done => exact List.Subset.refl _
  | pass _ _ ih => exact ih
  | enter _ _ _ _ ih => exact fun u mem => ih (List.mem_append_left _ mem)

theorem nodup (distinct : seen.Nodup) : files.Nodup := by
  induction h with
  | done => exact distinct
  | pass _ _ ih => exact ih distinct
  | enter _ _ new _ ih =>
    refine ih (List.nodup_append.2 ⟨distinct, List.pairwise_singleton _ _, fun a ha b hb => ?_⟩)
    obtain rfl := List.mem_singleton.1 hb
    exact fun eq => new (eq ▸ ha)

theorem reached (old : ∀ u ∈ seen, w.Reaches u ∧ (w.source? u).isSome)
    (ahead : ∀ v ∈ stack, ∀ t ∈ v.target?, w.Reaches t) :
    ∀ u ∈ files, w.Reaches u ∧ (w.source? u).isSome := by
  induction h with
  | done => exact old
  | pass _ _ ih => exact ih old fun v mem => ahead v (List.mem_cons_of_mem _ mem)
  | @enter seen v stack visits files t includes there new _ ih =>
    have target := ahead v List.mem_cons_self t includes
    refine ih (fun u mem => ?_) fun v' mem t' includes' => ?_
    · rcases List.mem_append.1 mem with mem | mem
      · exact old u mem
      · obtain rfl := List.mem_singleton.1 mem
        exact ⟨target, there⟩
    · rcases List.mem_append.1 mem with mem | mem
      · exact target.tail ((includes_iff (v.chain ++ [t])).2 ⟨v', mem, includes'⟩)
      · exact ahead v' (List.mem_cons_of_mem _ mem) t' includes'

/-- Whatever an inclusion of a file leads to is a file, if it has a source. -/
theorem closed (old : ∀ u ∈ seen, ∀ t, w.Includes u t → (w.source? t).isSome →
    t ∈ seen ∨ ∃ v ∈ stack, v.target? = some t) :
    ∀ u ∈ files, ∀ t, w.Includes u t → (w.source? t).isSome → t ∈ files := by
  induction h with
  | done => exact fun u mem t step there => (old u mem t step there).resolve_right (by simp)
  | @pass seen v stack visits files stays _ ih =>
    refine ih fun u mem t step there => ?_
    obtain mem | ⟨v', mem, includes⟩ := old u mem t step there
    · exact .inl mem
    rcases List.mem_cons.1 mem with rfl | mem
    · exact .inl ((stays t includes).resolve_right (Option.isSome_iff_ne_none.1 there))
    · exact .inr ⟨v', mem, includes⟩
  | @enter seen v stack visits files t includes there new _ ih =>
    refine ih fun u mem t' step there' => ?_
    rcases List.mem_append.1 mem with mem | mem
    · obtain mem | ⟨v', mem, includes'⟩ := old u mem t' step there'
      · exact .inl (List.mem_append_left _ mem)
      rcases List.mem_cons.1 mem with rfl | mem
      · obtain rfl := Option.some.inj (includes.symm.trans includes')
        exact .inl (by simp)
      · exact .inr ⟨v', List.mem_append_right _ mem, includes'⟩
    · obtain rfl := List.mem_singleton.1 mem
      obtain ⟨v', mem, includes'⟩ := (includes_iff (v.chain ++ [u])).1 step
      exact .inr ⟨v', List.mem_append_left _ mem, includes'⟩

/-- The files come in depth-first preorder. -/
theorem preorder :
    ∃ order, files = seen ++ order ∧ w.Preorder seen (stack.filterMap Visit.target?) order := by
  induction h with
  | done => exact ⟨[], by simp, .done⟩
  | @pass seen v stack visits files stays _ ih =>
    obtain ⟨order, eq, preorder⟩ := ih
    refine ⟨order, eq, ?_⟩
    cases target : v.target? with
    | none => simpa [target] using preorder
    | some t => simpa [target] using Preorder.pass (stays t target) preorder
  | @enter seen v stack visits files t includes there new _ ih =>
    obtain ⟨order, eq, preorder⟩ := ih
    refine ⟨t :: order, by simp [eq], ?_⟩
    rw [List.filterMap_append, targets_visitsOf] at preorder
    simpa [includes] using Preorder.visit there new preorder

/-! ## Each file is visited once -/

theorem uri_mem (inside : ∀ v ∈ stack, v.uri ∈ seen) : ∀ v ∈ visits, v.uri ∈ files := by
  induction h with
  | done => simp
  | pass _ more ih =>
    obtain ⟨first, inside⟩ := List.forall_mem_cons.1 inside
    exact List.forall_mem_cons.2 ⟨more.seen_subset first, ih inside⟩
  | enter _ _ _ more ih =>
    obtain ⟨first, inside⟩ := List.forall_mem_cons.1 inside
    exact List.forall_mem_cons.2 ⟨more.seen_subset (List.mem_append_left _ first),
      ih (forall_uri_mem_enter inside _ _)⟩

/-- The items of a file that has been put in are visited in order. -/
theorem filter_eq (inside : ∀ v ∈ stack, v.uri ∈ seen) (old : u ∈ seen) :
    visits.filter (·.uri = u) = stack.filter (·.uri = u) := by
  induction h with
  | done => rfl
  | pass _ _ ih =>
    rw [List.filter_cons, List.filter_cons, ih (List.forall_mem_cons.1 inside).2 old]
  | @enter seen v stack visits files t _ _ new _ ih =>
    obtain ⟨first, inside⟩ := List.forall_mem_cons.1 inside
    -- the file that is put in is another one, since it was not put in before
    have others : (w.visitsOf (v.chain ++ [t]) t).filter (·.uri = u) = [] := by
      refine List.filter_eq_nil_iff.2 fun v' mem => ?_
      rw [uri_of_mem_visitsOf mem, decide_eq_true_eq]
      rintro rfl
      exact new old
    rw [List.filter_cons, List.filter_cons,
      ih (forall_uri_mem_enter inside _ _) (List.mem_append_left _ old),
      List.filter_append, others, List.nil_append]

theorem head?_eq : visits.head? = stack.head? := by
  cases h <;> rfl

theorem exists_first (inside : ∀ v ∈ stack, v.uri ∈ seen) (new : u ∉ seen) (mem : u ∈ files)
    (there : (w.source? u).isSome) :
    ∃ before v behind, visits = before ++ v :: behind ∧ v.target? = some u ∧
      (∀ v' ∈ before, v'.uri ≠ u ∧ v'.target? ≠ some u) ∧
      visits.filter (·.uri = u) = w.visitsOf (v.chain ++ [u]) u ∧
      ∀ first ∈ (w.visitsOf (v.chain ++ [u]) u).head?, behind.head? = some first := by
  induction h with
  | done => exact absurd mem new
  | @pass seen v stack visits files stays more ih =>
    obtain ⟨first, inside⟩ := List.forall_mem_cons.1 inside
    obtain ⟨before, v₁, behind, rfl, includes, none, filter, start⟩ := ih inside new mem
    have other : v.uri ≠ u := fun eq => new (eq ▸ first)
    refine ⟨v :: before, v₁, behind, rfl, includes,
      List.forall_mem_cons.2 ⟨⟨other, fun again => ?_⟩, none⟩, ?_, start⟩
    · exact (stays u again).elim new (Option.isSome_iff_ne_none.1 there)
    · rw [List.filter_cons, if_neg (by simpa using other), filter]
  | @enter seen v stack visits files t includes _ _ more ih =>
    obtain ⟨first, inside⟩ := List.forall_mem_cons.1 inside
    have other : v.uri ≠ u := fun eq => new (eq ▸ first)
    have inside' := forall_uri_mem_enter (w := w) inside (v.chain ++ [t]) t
    by_cases isIt : t = u
    · -- the items that are put in here are all that is ever visited of the file
      subst isIt
      refine ⟨[], v, visits, rfl, includes, by simp, ?_, fun x hx => ?_⟩
      · rw [List.filter_cons, if_neg (by simpa using other), more.filter_eq inside' (by simp),
          List.filter_append]
        have own : (w.visitsOf (v.chain ++ [t]) t).filter (·.uri = t) =
            w.visitsOf (v.chain ++ [t]) t :=
          List.filter_eq_self.2 fun v' mem => by simp [uri_of_mem_visitsOf mem]
        have rest : stack.filter (·.uri = t) = [] :=
          List.filter_eq_nil_iff.2 fun v' mem eq => new (of_decide_eq_true eq ▸ inside v' mem)
        rw [own, rest, List.append_nil]
      · rw [more.head?_eq, List.head?_append, hx, Option.some_or]
    · obtain ⟨before, v₁, behind, rfl, includes₁, none, filter, start⟩ :=
        ih inside' (by simp [new, Ne.symm isIt]) mem
      refine ⟨v :: before, v₁, behind, rfl, includes₁, List.forall_mem_cons.2 ⟨⟨other, ?_⟩, none⟩,
        ?_, start⟩
      · rw [includes]
        exact fun eq => isIt (Option.some.inj eq)
      · rw [List.filter_cons, if_neg (by simpa using other), filter]

end Flattens

theorem mem_files_iff (found : (w.source? w.entry).isSome) :
    uri ∈ w.expand.files ↔ w.Reaches uri ∧ (w.source? uri).isSome := by
  obtain ⟨visits, flattens, -⟩ := flattens_expand found
  constructor
  · refine fun mem => flattens.reached (fun u mem => ?_) (fun v mem t target => ?_) uri mem
    · obtain rfl := List.mem_singleton.1 mem
      exact ⟨.refl, found⟩
    · exact .single ((includes_iff [w.entry]).2 ⟨v, mem, target⟩)
  · rintro ⟨reached, there⟩
    -- by induction on the path: inclusions of files lead to files only
    have closed := flattens.closed fun u mem t step _ => by
      obtain rfl := List.mem_singleton.1 mem
      exact .inr ((includes_iff [w.entry]).1 step)
    induction reached with
    | refl => exact flattens.seen_subset List.mem_cons_self
    | tail _ step ih =>
      have parent : (w.source? _).isSome := Option.isSome_iff_exists.2 (step.imp fun _ h => h.1)
      exact closed _ (ih parent) _ step there

end World

/-! ## A compile reads its closure only -/

namespace World

variable {w w' : World}

/-- Worlds that agree on what inclusions lead to are expanded alike. -/
theorem expand_congr (entry : w'.entry = w.entry)
    (agree : ∀ uri, w.Reaches uri → w'.source? uri = w.source? uri)
    (found : (w.source? w.entry).isSome) : w'.expand = w.expand := by
  obtain ⟨src, found⟩ := Option.isSome_iff_exists.1 found
  have found' : w'.source? w'.entry = some src := by rw [entry, agree _ .refl, found]
  have own := expands_expand found'
  rw [entry] at own
  have carried :
      w'.Expands [w.entry] w.entry src.module.items (Expansion.empty.addFile w.entry src.module)
        w.expand :=
    (expands_expand found).congr agree .tail fun i mem =>
      .single ⟨src, found, i, mem_inclusions_iff.2 mem, rfl⟩
  exact own.unique carried

/-- Worlds with one entry and the same settings compile alike when they agree on what inclusions
lead to. -/
theorem compile_congr (entry : w'.entry = w.entry) (settings : w'.settings = w.settings)
    (agree : ∀ uri, w.Reaches uri → w'.source? uri = w.source? uri) : w'.compile? = w.compile? := by
  have start : w'.source? w'.entry = w.source? w.entry := by rw [entry, agree _ .refl]
  cases found : w.source? w.entry with
  | none => rw [compile?, compile?, if_pos (by simp [start, found]), if_pos (by simp [found]),
    entry]
  | some src =>
    have isSome : (w.source? w.entry).isSome := by simp [found]
    have expanded := expand_congr entry agree isSome
    -- The texts that ranges are counted in are those of the files, and these are all reached.
    have tables : w'.lineTables w.expand.files = w.lineTables w.expand.files :=
      List.map_congr_left fun uri mem => by rw [agree uri ((mem_files_iff isSome).1 mem).1]
    have compiled : w'.compile = w.compile := by
      simp only [compile, diagnostics, expanded, settings, entry, tables]
    rw [compile?, compile?, start, entry, compiled]

def sparse : World :=
  ofSources "/m" [.ofText "/m" "#include \"a\"\n#include \"n\"\n#x", .ofText "/a" "= A\n#let x = 1"]
    .default

def beside : World :=
  ofSources "/m" [.ofText "/z" "#include \"m\"\n= Z", .ofText "/a" "= A\n#let x = 1",
    .ofText "/m" "#include \"a\"\n#include \"n\"\n#x"] .default

theorem compile_congr_beside : beside.entry = sparse.entry ∧ beside.settings = sparse.settings ∧
    (∀ uri, sparse.Reaches uri → beside.source? uri = sparse.source? uri) ∧
    Dict.keys beside.sources ≠ Dict.keys sparse.sources ∧ beside.compile? = sparse.compile? := by
  have agree : ∀ uri, sparse.Reaches uri → beside.source? uri = sparse.source? uri := by
    intro uri reached
    have listed : uri ∈ (["/m", "/a", "/n"] : List Uri) :=
      reached.mem_of_closed (by decide +kernel) (by decide +kernel)
    simp only [List.mem_cons, List.not_mem_nil, or_false] at listed
    rcases listed with rfl | rfl | rfl <;> decide +kernel
  have entry : beside.entry = sparse.entry := by simp only [beside, sparse, ofSources]
  have settings : beside.settings = sparse.settings := by simp only [beside, sparse, ofSources]
  exact ⟨entry, settings, agree, by decide +kernel, compile_congr entry settings agree⟩

end World

end Quill
