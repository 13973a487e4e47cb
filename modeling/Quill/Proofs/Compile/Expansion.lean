import Mathlib.Logic.Relation
import Quill.Compile.Expansion

/-!
# What an expansion goes through

However inclusions lead on, an expansion grows by a file, an item, an edge or a report at a time. So
what all of these keep is true of every expansion. The depth to which inclusions are followed is
bounded by the number of sources, but no expansion meets the bound: a file is entered only when it
is not among the files yet, so with every file that is entered there is one source less to go. What
an expansion comes to is given here by rules without a bound.

## Main definitions

* `World.expandItem` — one item of a file that is being expanded.
* `Source.ofText` — a document as it is read from its text.
* `World.Includes`, `World.Reaches` — what inclusions lead to, from one document and from the entry.
* `World.Expands` — what the items of a file come to, by rules without a bound.

## Main statements

* `World.expandFile_keeps` — what holds of every expansion.
* `World.isSome_source?_of_mem_files` — only documents with a source are expanded.
* `World.expands_expandFile` — a file is expanded by the rules, if the depth is no less than the
  number of sources that are not expanded yet.
* `World.Expands.unique` — the rules come to one thing only.
* `World.Expands.congr` — they look at no source but those that inclusions lead to.
-/

namespace Quill

namespace World

def expandItem (w : World) (depth : Nat) (chain : List Uri) (uri : Uri) (s : Expansion) :
    Item → Expansion
  | .inclusion i => w.expandInclusion (w.expandFile depth) chain uri i s
  | item => s.addItem uri item

section growth

variable {w : World} {uri : Uri} {src : Source}

theorem expandFile_succ (found : w.source? uri = some src) (depth : Nat)
    (chain : List Uri) (s : Expansion) : w.expandFile (depth + 1) chain uri s =
      src.module.items.foldl (w.expandItem depth chain uri) (s.addFile uri src.module) := by
  rw [expandFile, found]
  rfl

section keeps

variable {P : Expansion → Prop}
  (addEdge : ∀ {s uri i status}, P s → P (s.addEdge uri i status))
  (addReport : ∀ {s r}, P s → P (s.addReport r))
  (addItem : ∀ {s uri item}, P s → P (s.addItem uri item))
  (addFile : ∀ {s uri src}, w.source? uri = some src → P s → P (s.addFile uri src.module))
include addEdge addReport addItem addFile

/-- What holds of an expansion and is kept whenever it grows holds after a file has been
expanded. -/
theorem expandFile_keeps (depth : Nat) (chain : List Uri) (uri : Uri) {s : Expansion} (h : P s) :
    P (w.expandFile depth chain uri s) := by
  induction depth generalizing chain uri s with
  | zero => exact h
  | succ depth deeper =>
    cases found : w.source? uri with
    | none => simpa only [expandFile, found] using h
    | some src =>
      rw [expandFile_succ found]
      refine List.foldlRecOn _ _ (addFile found h) fun s h item _ => ?_
      cases item with
      | inclusion i =>
        rw [expandItem, expandInclusion]
        split
        · exact addReport (addEdge h)
        split
        · exact addReport (addEdge h)
        split
        · exact addEdge h
        · exact deeper _ _ (addEdge h)
      | heading | label | reference | binding | use => exact addItem h

end keeps

theorem isSome_source?_of_mem_files (mem : uri ∈ w.expand.files) : (w.source? uri).isSome := by
  have all : ∀ u ∈ w.expand.files, (w.source? u).isSome := by
    refine expandFile_keeps (P := fun s => ∀ u ∈ s.files, (w.source? u).isSome) id id id ?_ _ _ _
      (by simp [Expansion.empty])
    intro s uri src found h u mem
    rcases List.mem_append.1 mem with old | new
    · exact h u old
    · obtain rfl := List.mem_singleton.1 new
      simp [found]
  exact all uri mem

end growth

end World

def Source.ofText (uri text : Text) : Source := ⟨uri, text, Module.read uri text⟩

/-! ## What inclusions lead to -/

namespace World

/-- A document with a source includes another one, which need not have a source. -/
def Includes (w : World) (a b : Uri) :
    Prop := ∃ src, w.source? a = some src ∧ ∃ i ∈ src.module.inclusions, i.target = b

/-- Inclusions lead from the entry to the document. -/
def Reaches (w : World) : Uri → Prop := Relation.ReflTransGen w.Includes w.entry

variable {w w' : World} {uri : Uri}

/-- What holds of the entry and is handed on by inclusions holds of all that is reached. -/
theorem Reaches.mem_of_closed {uris : List Uri} (reached : w.Reaches uri) (entry : w.entry ∈ uris)
    (closed : ∀ a ∈ uris, ∀ src ∈ w.source? a, ∀ i ∈ src.module.inclusions, i.target ∈ uris) :
    uri ∈ uris := by
  induction reached with
  | refl => exact entry
  | tail _ step ih =>
    obtain ⟨src, found, i, mem, rfl⟩ := step
    exact closed _ ih src found i mem

end World

/-! ## Expansions grow -/

/-- The second expansion goes on where the first one ends. -/
structure Expansion.Extends (s s' : Expansion) : Prop where
  files : s.files <+: s'.files
  edges : s.edges <+: s'.edges

namespace Expansion

variable {s s' s'' : Expansion} {uri : Uri}

theorem Extends.refl (s : Expansion) : s.Extends s := ⟨List.prefix_rfl, List.prefix_rfl⟩

theorem Extends.trans (h : s.Extends s') (h' : s'.Extends s'') : s.Extends s'' :=
  ⟨h.files.trans h'.files, h.edges.trans h'.edges⟩

theorem extends_addEdge (s : Expansion) (uri : Uri) (i : Inclusion) (status : IncludeStatus) :
    s.Extends (s.addEdge uri i status) := ⟨List.prefix_rfl, List.prefix_append _ _⟩

theorem extends_addFile (s : Expansion) (uri : Uri) (m : Module) : s.Extends (s.addFile uri m) :=
  ⟨List.prefix_append _ _, List.prefix_rfl⟩

theorem Extends.mem_files (h : s.Extends s') (mem : uri ∈ s.files) : uri ∈ s'.files :=
  h.files.subset mem

end Expansion

/-! ## Rules -/

namespace World

/-- What the items of the file `uri` come to, one after another, while `chain` is being expanded. -/
inductive Expands (w : World) : List Uri → Uri → List Item → Expansion → Expansion → Prop
  | done {chain uri s} : Expands w chain uri [] s s
  | item {chain uri item rest s s'} (plain : item.inclusion? = none)
    (more : Expands w chain uri rest (s.addItem uri item) s') :
    Expands w chain uri (item :: rest) s s'
  | cycle {chain uri i rest s s'} (mem : i.target ∈ chain)
    (more : Expands w chain uri rest ((s.addEdge uri i .cycle).addReport
      { uri, finding := .includeCycle (cycleFrom uri chain i.target), span := i.span }) s') :
    Expands w chain uri (.inclusion i :: rest) s s'
  | missing {chain uri i rest s s'} (off : i.target ∉ chain) (absent : w.source? i.target = none)
    (more : Expands w chain uri rest ((s.addEdge uri i .missing).addReport
      { uri, finding := .fileNotFound i.specifier, span := i.pathSpan }) s') :
    Expands w chain uri (.inclusion i :: rest) s s'
  | known {chain uri i src rest s s'} (off : i.target ∉ chain)
    (found : w.source? i.target = some src)
    (old : i.target ∈ s.files) (more : Expands w chain uri rest (s.addEdge uri i .ok) s') :
    Expands w chain uri (.inclusion i :: rest) s s'
  | enter {chain uri i src rest s s₁ s'} (off : i.target ∉ chain)
    (found : w.source? i.target = some src) (new : i.target ∉ s.files)
    (deeper : Expands w (chain ++ [i.target]) i.target src.module.items
      ((s.addEdge uri i .ok).addFile i.target src.module) s₁)
    (more : Expands w chain uri rest s₁ s') :
    Expands w chain uri (.inclusion i :: rest) s s'

namespace Expands

variable {w w' : World} {chain : List Uri} {uri : Uri} {item : Item} {items rest : List Item}
  {i : Inclusion} {s s' s'' : Expansion}

theorem grows (h : w.Expands chain uri items s s') : s.Extends s' := by
  induction h with
  | done => exact .refl _
  | item _ _ ih => exact ⟨ih.files, ih.edges⟩
  | @cycle _ uri i _ s _ _ _ ih | @missing _ uri i _ s _ _ _ _ ih =>
    exact (s.extends_addEdge uri i _).trans ⟨ih.files, ih.edges⟩
  | @known _ uri i _ _ s _ _ _ _ _ ih => exact (s.extends_addEdge uri i _).trans ih
  | @enter _ uri i src _ s _ _ _ _ _ _ _ ihd ihm =>
    exact (((s.extends_addEdge uri i _).trans
      (Expansion.extends_addFile _ i.target src.module)).trans ihd).trans ihm

/-- The rules come to one thing only. -/
theorem unique (h : w.Expands chain uri items s s') (h' : w.Expands chain uri items s s'') :
    s' = s'' := by
  induction h generalizing s'' with
  | done => cases h'; rfl
  | item plain _ ih =>
    cases h' with
    | item _ more => exact ih more
    | cycle | missing | known | enter => simp [Item.inclusion?] at plain
  | cycle mem _ ih =>
    cases h' with
    | item plain => simp [Item.inclusion?] at plain
    | cycle _ more => exact ih more
    | missing off | known off | enter off => exact absurd mem off
  | missing off absent _ ih =>
    cases h' with
    | item plain => simp [Item.inclusion?] at plain
    | cycle mem => exact absurd mem off
    | missing _ _ more => exact ih more
    | known _ found | enter _ found => simp [absent] at found
  | known off found old _ ih =>
    cases h' with
    | item plain => simp [Item.inclusion?] at plain
    | cycle mem => exact absurd mem off
    | missing _ absent => simp [absent] at found
    | known _ _ _ more => exact ih more
    | enter _ _ new => exact absurd old new
  | enter off found new _ _ ihd ihm =>
    cases h' with
    | item plain => simp [Item.inclusion?] at plain
    | cycle mem => exact absurd mem off
    | missing _ absent => simp [absent] at found
    | known _ _ old => exact absurd old new
    | enter _ found' _ deeper more =>
      obtain rfl := Option.some.inj (found.symm.trans found')
      obtain rfl := ihd deeper
      exact ihm more

/-- What inclusions lead to has the same source in both worlds, if it has one. -/
theorem congr {reached : Uri → Prop} (agree : ∀ u, reached u → w'.source? u = w.source? u)
    (closed : ∀ {a b}, reached a → w.Includes a b → reached b) (h : w.Expands chain uri items s s')
    (targets : ∀ i, .inclusion i ∈ items → reached i.target) : w'.Expands chain uri items s s' := by
  induction h with
  | done => exact .done
  | item plain _ ih => exact .item plain (ih fun i mem => targets i (List.mem_cons_of_mem _ mem))
  | cycle mem _ ih => exact .cycle mem (ih fun i mem => targets i (List.mem_cons_of_mem _ mem))
  | missing off absent _ ih =>
    exact .missing off ((agree _ (targets _ List.mem_cons_self)).trans absent)
      (ih fun i mem => targets i (List.mem_cons_of_mem _ mem))
  | known off found old _ ih =>
    exact .known off ((agree _ (targets _ List.mem_cons_self)).trans found) old
      (ih fun i mem => targets i (List.mem_cons_of_mem _ mem))
  | enter off found new _ _ ihd ihm =>
    have target := targets _ List.mem_cons_self
    exact .enter off ((agree _ target).trans found) new
      (ihd fun i mem => closed target ⟨_, found, i, mem_inclusions_iff.2 mem, rfl⟩)
      (ihm fun i mem => targets i (List.mem_cons_of_mem _ mem))

end Expands

/-! ## The bound is not met -/

variable {w : World} {chain : List Uri} {uri : Uri} {src : Source} {s s' : Expansion}

def unexpanded (w : World) (s : Expansion) : List (Uri × Source) :=
  w.sources.filter fun e => !s.files.contains e.1

theorem length_unexpanded_le (h : s.Extends s') :
    (w.unexpanded s').length ≤ (w.unexpanded s).length := by
  rw [unexpanded, unexpanded, ← List.countP_eq_length_filter, ← List.countP_eq_length_filter]
  refine List.countP_mono_left fun e _ new => ?_
  simp only [Bool.not_eq_true', List.contains_eq_mem, decide_eq_false_iff_not] at new ⊢
  exact fun old => new (h.mem_files old)

/-- When a file is entered, there is one source less to go. -/
theorem length_unexpanded_addFile (found : w.source? uri = some src) (new : uri ∉ s.files) :
    (w.unexpanded (s.addFile uri src.module)).length < (w.unexpanded s).length := by
  have rest : w.unexpanded (s.addFile uri src.module) = (w.unexpanded s).filter fun e =>
    e.1 ≠ uri := by
    rw [unexpanded, unexpanded, List.filter_filter]
    refine List.filter_congr fun e _ => ?_
    rw [Bool.eq_iff_iff]
    simp [Expansion.addFile, and_comm]
  obtain ⟨before, behind, eq, -⟩ := Dict.get?_eq_some_split found
  rw [rest, List.length_filter_lt_length_iff_exists]
  exact ⟨(uri, src), by simp [unexpanded, eq, new], by simp⟩

/-- The items of a file are expanded by the rules, if the files that they enter are. -/
theorem expands_foldl {depth : Nat}
    (deeper : ∀ chain {uri src} s, w.source? uri = some src → uri ∉ s.files →
      (w.unexpanded s).length ≤ depth →
      w.Expands chain uri src.module.items (s.addFile uri src.module)
        (w.expandFile depth chain uri s))
    (items : List Item) (bound : (w.unexpanded s).length ≤ depth) :
    w.Expands chain uri items s (items.foldl (w.expandItem depth chain uri) s) := by
  induction items generalizing s with
  | nil => exact .done
  | cons item rest ih =>
    rw [List.foldl_cons]
    cases item with
    | heading | label | reference | binding | use => exact .item rfl (ih bound)
    | inclusion i =>
      rw [expandItem, expandInclusion]
      split
      next mem => exact .cycle (by simpa using mem) (ih bound)
      next off =>
        have off : i.target ∉ chain := by simpa using off
        split
        next absent => exact .missing off (by simpa using absent) (ih bound)
        next there =>
          obtain ⟨src, found⟩ : ∃ src, w.source? i.target = some src := by
            simpa [Option.ne_none_iff_exists'] using there
          split
          next old => exact .known off found (by simpa using old) (ih bound)
          next new =>
            have new : i.target ∉ s.files := by simpa using new
            have entered := deeper (chain ++ [i.target]) (s.addEdge uri i .ok) found new bound
            -- the file that was entered leaves no more to go than there was before
            have grows := (Expansion.extends_addFile _ _ _).trans entered.grows
            exact .enter off found new entered
              (ih (Nat.le_trans (length_unexpanded_le grows) bound))

/-- A file is expanded by the rules, if the depth is no less than the number of sources to go. -/
theorem expands_expandFile {depth : Nat} (found : w.source? uri = some src) (new : uri ∉ s.files)
    (bound : (w.unexpanded s).length ≤ depth) :
    w.Expands chain uri src.module.items (s.addFile uri src.module)
      (w.expandFile depth chain uri s) := by
  induction depth generalizing chain uri src s with
  | zero =>
    have := length_unexpanded_addFile found new
    omega
  | succ depth ih =>
    rw [expandFile_succ found]
    refine expands_foldl (fun chain _ _ s => ih) _ ?_
    have := length_unexpanded_addFile found new
    omega

/-- A world is expanded by the rules, whatever the depth, if only it is no less than the number of
sources. -/
theorem expands_of_le {depth : Nat} (found : w.source? w.entry = some src)
    (bound : w.sources.length ≤ depth) :
    w.Expands [w.entry] w.entry src.module.items (Expansion.empty.addFile w.entry src.module)
      (w.expandFile depth [w.entry] w.entry .empty) :=
  expands_expandFile found (by simp [Expansion.empty])
    (Nat.le_trans (List.length_filter_le _ _) bound)

theorem expands_expand (found : w.source? w.entry = some src) :
    w.Expands [w.entry] w.entry src.module.items
    (Expansion.empty.addFile w.entry src.module) w.expand :=
  expands_of_le found (Nat.le_refl _)

/-- A greater depth changes nothing. -/
theorem expandFile_eq_expand {depth : Nat} (found : w.source? w.entry = some src)
    (bound : w.sources.length ≤ depth) : w.expandFile depth [w.entry] w.entry .empty = w.expand :=
  (expands_of_le found bound).unique (expands_expand found)

end World

end Quill
