import Mathlib.Data.List.TakeWhile
import Quill.Proofs.Analysis.Nesting
import Quill.Proofs.Markup.Leading

/-!
# The symbols of a document, as a tree and as a list

The outline keeps open sections and puts each into the one around it when it ends; the list of
symbols keeps the headings above the place that it has reached. Both say the same: an item is under
the closest heading in front of it, a heading under the closest one of smaller level.

## Main definitions

* `DocumentSymbol.walk` — the symbols of a tree in order, each with the one that it is directly
  under.
* `Module.contexts` — items, each with those in front of it.
* `Module.parent?` — the heading that an item is under.
* `Item.Listed` — the items that have symbols of their own.
* `Outline.Shows` — a symbol is that of an item.

## Main statements

* `Outline.Outlined.forall₂_walk` — what the tree of items lists, and under what.
* `Outline.flat_eq` — what the list says of each item.
* `Outline.answer_symbols` — both answers about one document.
-/

namespace Quill

/-! ## Trees in order -/

namespace DocumentSymbol

mutual
def walkOf (above : Option DocumentSymbol) :
    DocumentSymbol → List (Option DocumentSymbol × DocumentSymbol)
  | .mk name detail kind range selectionRange children =>
    (above, .mk name detail kind range selectionRange children) ::
      walk (some (.mk name detail kind range selectionRange children)) children

/-- The symbols of a tree under `above`, in order, each with the one that it is directly under. -/
def walk (above : Option DocumentSymbol) :
    List DocumentSymbol → List (Option DocumentSymbol × DocumentSymbol)
  | [] => []
  | s :: rest => walkOf above s ++ walk above rest
end

variable {above : Option DocumentSymbol} {s : DocumentSymbol} {symbols : List DocumentSymbol}

@[simp] theorem walk_nil : walk above [] = [] := by rw [walk]

theorem walk_cons : walk above (s :: symbols) = (above, s) ::
    (walk (some s) s.children ++ walk above symbols) := by
  cases s
  rw [walk, walkOf]
  rfl

/-- A symbol without others below it stands for itself. -/
theorem walk_cons_leaf (leaf : s.children = []) :
    walk above (s :: symbols) = (above, s) :: walk above symbols := by
  rw [walk_cons, leaf, walk_nil, List.nil_append]

end DocumentSymbol

/-! ## Items and what is in front of them -/

def Item.caption? : Item → Option (SymbolKind × Text)
  | heading h => some (.heading, h.title)
  | label m => some (.label, m.name)
  | binding b => some (.binding, b.name)
  | reference _ | use _ | inclusion _ => none

def Item.Listed (t : Text) (items : List Item) : Item → Prop
  | heading _ | binding _ => True
  | label m => ¬ (label m).OnHeadingLine t items
  | reference _ | use _ | inclusion _ => False

instance (t : Text) (items : List Item) : DecidablePred (Item.Listed t items)
  | .heading _ | .binding _ => inferInstanceAs (Decidable True)
  | .label m => inferInstanceAs (Decidable (¬ (Item.label m).OnHeadingLine t items))
  | .reference _ | .use _ | .inclusion _ => inferInstanceAs (Decidable False)

def Item.fitsUnder (i : Item) (h : Heading) : Bool := i.heading?.all (h.level < ·.level)

@[simp] theorem Item.fitsUnder_heading (g h : Heading) :
    (heading g).fitsUnder h = decide (h.level < g.level) := rfl

theorem Item.fitsUnder_of_plain {i : Item} (plain : i.heading? = none) (h : Heading) :
    i.fitsUnder h = true := by
  rw [fitsUnder, plain, Option.all_none]

namespace Module

def contexts (front : List Item) : List Item → List (List Item × Item)
  | [] => []
  | i :: behind => (front, i) :: contexts (front ++ [i]) behind

/-- The heading that an item is under: the closest one in front of it, and for a heading the closest
one of smaller level. -/
def parent? (front : List Item) (i : Item) : Option Heading :=
  (headings front).reverse.find? i.fitsUnder

variable {front items inner : List Item} {i j : Item} {h : Heading} {e : List Item × Item}

theorem contexts_append (front items outer : List Item) :
    contexts front (items ++ outer) = contexts front items ++ contexts (front ++ items) outer := by
  induction items generalizing front with
  | nil => simp [contexts]
  | cons i behind ih => simp [contexts, ih]

theorem exists_of_mem_contexts (mem : e ∈ contexts front items) :
    ∃ ahead behind, items = ahead ++ e.2 :: behind ∧ e.1 = front ++ ahead := by
  induction items generalizing front with
  | nil => simp [contexts] at mem
  | cons i rest ih =>
    rcases List.mem_cons.1 mem with rfl | later
    · exact ⟨[], rest, rfl, (List.append_nil _).symm⟩
    · obtain ⟨ahead, behind, rfl, eq⟩ := ih later
      exact ⟨i :: ahead, behind, rfl, by rw [eq, List.append_assoc]; rfl⟩

theorem headings_append (front items : List Item) :
    headings (front ++ items) = headings front ++ headings items := List.filterMap_append

theorem headings_cons (plain : i.heading? = none) (items : List Item) :
    headings (i :: items) = headings items := by
  rw [headings, List.filterMap_cons_none plain, headings]

theorem headings_concat_plain (plain : i.heading? = none) (front : List Item) :
    headings (front ++ [i]) = headings front := by
  rw [headings_append, headings_cons plain]
  exact List.append_nil _

theorem parent?_of_plain (plain : i.heading? = none) (front : List Item) :
    parent? front i = (headings front).getLast? := by
  rw [parent?, ← List.head?_reverse]
  cases (headings front).reverse with
  | nil => rfl
  | cons h rest => exact List.find?_cons_of_pos (Item.fitsUnder_of_plain plain h)

/-- The latest heading comes first, if the item may be under it. -/
theorem parent?_concat_heading (fits : i.fitsUnder h = true) (front : List Item) :
    parent? (front ++ [.heading h]) i = some h := by
  rw [parent?, headings_append, List.reverse_append]
  exact List.find?_cons_of_pos fits

/-- Headings that the item cannot be under make no difference. -/
theorem parent?_append (apart : ∀ h, .heading h ∈ inner → i.fitsUnder h = false)
    (front : List Item) :
    parent? (front ++ inner) i = parent? front i := by
  rw [parent?, headings_append, List.reverse_append, List.find?_append, List.find?_eq_none.2,
    Option.none_or, parent?]
  intro h mem
  simpa using apart h (mem_headings_iff.1 (List.mem_reverse.1 mem))

theorem parent?_concat_plain (plain : j.heading? = none) (front : List Item) :
    parent? (front ++ [j]) i = parent? front i := by
  rw [parent?, headings_concat_plain plain, parent?]

end Module

namespace Outline

open List (Forall₂)
open Quill.Module (contexts headings parent?)

structure Shows (lines : LineTable) (i : Item) (s : DocumentSymbol) : Prop where
  caption : i.caption? = some (s.kind, s.name)
  start : s.range.start = lines.positionAt i.span.start

/-- The symbols of an item and of what it is under are those of the tree. -/
structure Placed (lines : LineTable) (e : List Item × Item)
    (node : Option DocumentSymbol × DocumentSymbol) :
    Prop where
  own : Shows lines e.2 node.2
  parent : Option.Rel (fun h => Shows lines (.heading h)) (parent? e.1 e.2) node.1

/-! ## The tree -/

def shown (e : List Item × Item) : Bool :=
  match e.2 with
  | .heading _ | .binding _ => true
  | .label m => !(headings e.1).getLast?.any fun h => m.span.within h.span
  | .reference _ | .use _ | .inclusion _ => false

variable {t : Text} {lines : LineTable} {stop : Int} {current p : Option Heading}
  {front items : List Item}
  {i : Item} {symbols : List DocumentSymbol} {around : Option DocumentSymbol} {s : DocumentSymbol}
  {uri : Uri}

theorem leaf?_eq_none_iff (plain : i.heading? = none) :
    leaf? lines (headings front).getLast? i = none ↔ shown (front, i) = false := by
  cases i with
  | heading h => simp [Item.heading?] at plain
  | label m => simp [leaf?, shown]
  | reference m | binding b | use m | inclusion i => simp [leaf?, shown]

theorem shows_of_leaf? (leaf : leaf? lines current i = some s) : Shows lines i s := by
  cases i with
  | label m =>
    simp only [leaf?] at leaf
    split at leaf
    · simp at leaf
    · obtain rfl := Option.some.inj leaf
      exact ⟨rfl, rfl⟩
  | binding b =>
    obtain rfl := Option.some.inj leaf
    exact ⟨rfl, rfl⟩
  | heading h | reference m | use m | inclusion i => simp [leaf?] at leaf

/-- The tree of items lists them in order, each under the heading that it is under. The items that
are directly in the section of `p` are in front of its first heading, and the headings that are no
deeper than that one are directly in it, too. -/
theorem Outlined.forall₂_walk (outlined : Outlined t lines current stop items symbols)
    (latest : ∀ i ∈ items.head?, i.heading? = none →
      current = (headings front).getLast? ∧ p = (headings front).getLast?)
    (under : ∀ g, .heading g ∈ items → (∀ h ∈ (headings items).head?, g.level ≤ h.level) →
      parent? front (.heading g) = p)
    (shows : Option.Rel (fun h => Shows lines (.heading h)) p around) :
    Forall₂ (Placed lines) ((contexts front items).filter shown)
      (DocumentSymbol.walk around symbols) := by
  induction outlined generalizing front p around with
  | nil => simp [contexts]
  | @item current stop i behind symbols plain outlined ih =>
    obtain ⟨rfl, rfl⟩ := latest i rfl plain
    have same := Module.headings_concat_plain plain front
    have rest : Forall₂ (Placed lines) ((contexts (front ++ [i]) behind).filter shown)
        (DocumentSymbol.walk around symbols) :=
      ih (fun _ _ _ => ⟨congrArg _ same.symm, congrArg _ same.symm⟩) (fun g mem first => by
        rw [Module.parent?_concat_plain plain]
        exact under g (List.mem_cons_of_mem _ mem) (by rwa [Module.headings_cons plain])) shows
    cases leaf : leaf? lines (headings front).getLast? i with
    | none =>
      rw [contexts, List.filter_cons_of_neg (by simp [(leaf?_eq_none_iff plain).1 leaf])]
      exact rest
    | some s =>
      have own : shown (front, i) = true := by
        by_contra hidden
        simp [(leaf?_eq_none_iff plain).2 (Bool.eq_false_iff.2 hidden)] at leaf
      obtain ⟨-, children, -⟩ := leaf?_shape leaf
      rw [contexts, List.filter_cons_of_pos own, Option.toList_some, List.singleton_append,
        DocumentSymbol.walk_cons_leaf children]
      exact .cons ⟨shows_of_leaf? leaf, by rwa [Module.parent?_of_plain plain]⟩ rest
  | @heading current stop h inner children current' outer symbols deeper ends inside
    outlined ih ih' =>
    have own : Shows lines (.heading h) (sectionSymbol t lines ⟨h, children⟩ (stopAt stop outer)) :=
      ⟨rfl, rfl⟩
    have below : Forall₂ (Placed lines) ((contexts (front ++ [.heading h]) inner).filter shown)
        (DocumentSymbol.walk (some (sectionSymbol t lines ⟨h, children⟩ (stopAt stop outer)))
          children) :=
      ih (fun _ _ _ => by simp [headings, Item.heading?])
        (fun g mem _ => Module.parent?_concat_heading (by simpa using deeper g mem) front)
        (.some own)
    have under' (g : Heading) (mem : .heading g ∈ outer) (first : ∀ h ∈ (headings outer).head?,
        g.level ≤ h.level) :
        parent? (front ++ .heading h :: inner) (.heading g) = p := by
      have le : g.level ≤ h.level := by
        cases outer with
        | nil => simp at mem
        | cons i behind =>
          obtain ⟨g', rfl, le⟩ := ends i rfl
          exact Nat.le_trans (first g' rfl) le
      -- the headings of the section that has ended are no less deep
      rw [Module.parent?_append fun o inSection => ?_]
      · exact under g (by simp [mem]) (by simpa [headings, Item.heading?] using le)
      · rcases List.mem_cons.1 inSection with same | inInner
        · obtain rfl := Item.heading.inj same
          simpa using le
        · simpa using Nat.le_trans le (Nat.le_of_lt (deeper o inInner))
    have latest' (i : Item) (first : i ∈ outer.head?) (plain : i.heading? = none) :
        current' = (headings (front ++ .heading h :: inner)).getLast? ∧
          p = (headings (front ++ .heading h :: inner)).getLast? := by
      obtain ⟨g, rfl, -⟩ := ends i first
      simp [Item.heading?] at plain
    have rest := ih' latest' under' shows
    rw [contexts, List.filter_cons_of_pos rfl, Module.contexts_append, List.filter_append,
      DocumentSymbol.walk_cons]
    refine .cons ⟨own, ?_⟩ (List.rel_append below ?_)
    · rwa [under h (by simp) (by simp [headings, Item.heading?])]
    · simpa using rest

/-- The items that the outline of a document shows are those that are listed. -/
theorem shown_iff_listed {e : List Item × Item} (mem : e ∈ contexts [] (Module.read uri t).items) :
    shown e = true ↔ e.2.Listed t (Module.read uri t).items := by
  obtain ⟨ahead, behind, split, rfl⟩ := Module.exists_of_mem_contexts mem
  obtain ⟨front, i⟩ := e
  cases i with
  | heading h | binding b | reference m | use m | inclusion i => simp [shown, Item.Listed]
  | label m =>
    have := Module.within_latest_iff split
    simp [shown, Item.Listed, ← this]

/-- The outline of a document shows the items that are listed, in order, each under the heading that
it is under. -/
theorem forall₂_walk_ofModule (uri : Uri) (t : Text) :
    Forall₂ (Placed (LineTable.ofText t))
      ((contexts [] (Module.read uri t).items).filter (·.2.Listed t (Module.read uri t).items))
      (DocumentSymbol.walk none (ofModule t (Module.read uri t))) := by
  have tree :
      Forall₂ (Placed (LineTable.ofText t)) ((contexts [] (Module.read uri t).items).filter shown)
      (DocumentSymbol.walk none (ofModule t (Module.read uri t))) :=
    (outlined_ofModule t (Module.read uri t)).forall₂_walk (fun _ _ _ => ⟨rfl, rfl⟩)
    (fun _ _ _ => rfl) .none
  rwa [List.filter_congr fun e mem => ?_] at tree
  rw [Bool.eq_iff_iff, shown_iff_listed mem, decide_eq_true_iff]

/-! ## The list -/

/-- What the list of symbols says of an item behind those in front. -/
def symbolOf? (uri : Uri) (lines : LineTable) (e : List Item × Item) : Option WorkspaceSymbol :=
  e.2.caption?.map fun c =>
    ⟨c.2, c.1, ⟨uri, lines.rangeOf e.2.span⟩, (parent? e.1 e.2).map Heading.title⟩

/-- The headings above a place are as good as all that are in front of it. -/
theorem find?_above
    {stack : List Heading} (same : ∀ i : Item, stack.find? i.fitsUnder = parent? front i)
    (i j : Item) : (above stack j).find? i.fitsUnder = parent? (front ++ [j]) i := by
  by_cases plain : j.heading? = none
  · have unchanged : above stack j = stack := by cases j <;> simp_all [above, Item.heading?]
    rw [unchanged, same, Module.parent?_concat_plain plain]
  · obtain ⟨h, rfl⟩ := Item.exists_heading plain
    cases fits : i.fitsUnder h with
    | true => rw [Module.parent?_concat_heading fits, above, List.find?_cons_of_pos fits]
    | false =>
      -- the item is a heading that is not deeper, and can be under none of those that `h` is not
      -- under
      obtain ⟨g, rfl, le⟩ : ∃ g, i = .heading g ∧ g.level ≤ h.level := by
        cases i <;> simp_all [Item.fitsUnder, Item.heading?]
      have apart : ∀ o ∈ stack.takeWhile (h.level ≤ ·.level), ¬ (Item.heading g).fitsUnder o :=
        fun o mem => by
        have := List.all_eq_true.1 List.all_takeWhile o mem
        simpa using Nat.le_trans le (of_decide_eq_true this)
      rw [Module.parent?_append
        (fun o mem => by obtain rfl := Item.heading.inj (List.mem_singleton.1 mem); exact fits),
        ← same, above, List.find?_cons_of_neg (by simp [fits])]
      conv_rhs => rw [← List.takeWhile_append_dropWhile (p := (h.level ≤ ·.level)) (l := stack)]
      rw [List.find?_append, List.find?_eq_none.2 apart, Option.none_or]

theorem symbol?_eq {stack : List Heading}
    (same : ∀ i : Item, stack.find? i.fitsUnder = parent? front i) (i : Item) :
    symbol? uri lines stack i = symbolOf? uri lines (front, i) := by
  have first (plain : i.heading? = none) : stack.head? = parent? front i := by
    rw [← same]
    cases stack with
    | nil => rfl
    | cons h rest => exact (List.find?_cons_of_pos (Item.fitsUnder_of_plain plain h)).symm
  cases i with
  | heading h =>
    have enclosing : (stack.dropWhile (h.level ≤ ·.level)).head? = parent? front (.heading h) := by
      have ended (o : Heading) : (!(Item.heading h).fitsUnder o) = decide (h.level ≤ o.level) := by
        rw [Item.fitsUnder_heading, ← decide_not, decide_eq_decide, Nat.not_lt]
      rw [← same, List.find?_eq_head?_dropWhile_not]
      simp only [ended]
    simp [symbol?, symbolOf?, Item.caption?, enclosing]
  | label m | binding b => simp [symbol?, symbolOf?, Item.caption?, first rfl]
  | reference m | use m | inclusion i => rfl

theorem flatFrom_eq
    {stack : List Heading} (same : ∀ i : Item, stack.find? i.fitsUnder = parent? front i)
    (items : List Item) :
    flatFrom uri lines stack items = (contexts front items).filterMap (symbolOf? uri lines) := by
  induction items generalizing front stack with
  | nil => rfl
  | cons i behind ih =>
    rw [flatFrom, ih (find?_above same · i), symbol?_eq same, contexts, List.filterMap_cons]
    cases symbolOf? uri lines (front, i) <;> rfl

/-- The list of symbols says of each item under which heading it is. -/
theorem flat_eq (uri : Uri) (t : Text) (m : Module) :
    flat uri t m = (contexts [] m.items).filterMap (symbolOf? uri (LineTable.ofText t)) := by
  have same (i : Item) : List.find? i.fitsUnder [] = parent? [] i := rfl
  exact flatFrom_eq same m.items

/-! ## One item in the list -/

/-- Of two items at different places the ranges begin at different positions. -/
theorem rangeOf_ne {a b : Item} (mem : a ∈ (Module.read uri t).items)
    (mem' : b ∈ (Module.read uri t).items) (lt : a.span.start < b.span.start) :
    (LineTable.ofText t).rangeOf a.span ≠ (LineTable.ofText t).rangeOf b.span := fun eq => by
  have laid := laid_read uri t
  have start : (LineTable.ofText t).positionAt a.span.start =
      (LineTable.ofText t).positionAt b.span.start :=
    congrArg Range.start eq
  have first := (laid.inside mem).start
  have last := Int.le_trans (laid.inside mem').ordered (laid.inside mem').stop
  have := (LineTable.positionAt_le_iff first last).1
      (start ▸ LineTable.positionAt_le (Int.le_refl _) _)
  omega

theorem location_of_symbolOf? {lines : LineTable} {e : List Item × Item} {x : WorkspaceSymbol}
    (entry : symbolOf? uri lines e = some x) :
    x.location = ⟨uri, lines.rangeOf e.2.span⟩ ∧ e.2.inclusion? = none := by
  obtain ⟨front, i⟩ := e
  cases i with
  | heading h | label m | binding b => cases entry; exact ⟨rfl, rfl⟩
  | reference m | use m | inclusion i => simp [symbolOf?, Item.caption?] at entry

theorem filter_flat {e : List Item × Item} (mem : e ∈ contexts [] (Module.read uri t).items)
    (named : e.2.caption?.isSome) :
    (flat uri t (Module.read uri t)).filter
      (·.location = ⟨uri, (LineTable.ofText t).rangeOf e.2.span⟩) =
      (symbolOf? uri (LineTable.ofText t) e).toList := by
  obtain ⟨ahead, behind, split, eq⟩ := Module.exists_of_mem_contexts mem
  obtain ⟨front, i⟩ := e
  obtain rfl : front = ahead := eq
  have own : i.inclusion? = none := by cases i <;> simp_all [Item.caption?, Item.inclusion?]
  have member {j : Item} (mem : j ∈ front ++ i :: behind) : j ∈ (Module.read uri t).items :=
    split ▸ mem
  obtain ⟨-, later, earlier⟩ := List.pairwise_append.1 (split ▸ Module.pairwise_start_lt uri t)
  have others (f items : List Item) (apart : ∀ j ∈ items, j.inclusion? = none →
      (LineTable.ofText t).rangeOf j.span ≠ (LineTable.ofText t).rangeOf i.span) :
      ((contexts f items).filterMap (symbolOf? uri (LineTable.ofText t))).filter
        (·.location = ⟨uri, (LineTable.ofText t).rangeOf i.span⟩) = [] := by
    refine List.filter_eq_nil_iff.2 fun x found => ?_
    obtain ⟨e, mem, entry⟩ := List.mem_filterMap.1 found
    obtain ⟨ahead, behind, eq, -⟩ := Module.exists_of_mem_contexts mem
    obtain ⟨location, other⟩ := location_of_symbolOf? entry
    simpa [location] using apart e.2 (eq ▸ by simp) other
  have before := others [] front fun j mem other =>
    rangeOf_ne (member (by simp [mem])) (member (by simp)) (earlier j mem i (by simp) other)
  have after := others ([] ++ front ++ [i]) behind fun j mem _ =>
    (rangeOf_ne (member (by simp)) (member (by simp [mem]))
      ((List.pairwise_cons.1 later).1 j mem own)).symm
  rw [flat_eq, split, Module.contexts_append, List.filterMap_append, List.filter_append,
    before, contexts, List.nil_append, List.nil_append, List.filterMap_cons]
  cases entry : symbolOf? uri (LineTable.ofText t) (front, i) with
  | none => exact after
  | some x =>
    refine (List.filter_cons_of_pos ?_).trans (congrArg _ after)
    exact decide_eq_true (location_of_symbolOf? entry).1

/-! ## The answers -/

def ofSnapshot (w : Snapshot) : List WorkspaceSymbol :=
  w.ordered.flatMap fun doc => flat doc.uri doc.text (Module.read doc.uri doc.text)

theorem filter_matching (query : Text) (symbols : List WorkspaceSymbol)
    (p : WorkspaceSymbol → Bool) :
    (matching query symbols).filter p = matching query (symbols.filter p) := List.filter_comm _ _ _

theorem yields_workspaceSymbols (w : Snapshot) (uri : Uri) (query : Text) :
    Flow.Yields (.computed .quill) ((Question.workspaceSymbols query).answer w uri)
      (.ok (.workspaceSymbols (matching query (ofSnapshot w)))) := by
  have file (doc : SnapshotDocument) (_ : doc ∈ w.ordered) : Flow.Yields (.computed .quill)
      (Flow.memo (.fileSymbols doc) Fact.symbols?).call
      (.ok (flat doc.uri doc.text (Module.read doc.uri doc.text))) :=
    Flow.Yields.call <| Flow.yields_memo (.symbols _)
      (((Flow.yields_module doc).bind (Flow.yields_done _ _)).bind (Flow.yields_done _ _)) rfl
  rw [ofSnapshot, List.flatMap_def]
  exact (Flow.yields_forEach file).bind (Flow.yields_done _ _)

theorem nodup_ordered {w : Snapshot} (filed : w.Filed) :
    (w.ordered.map SnapshotDocument.uri).Nodup := by
  have keys : (Dict.values w.documents).map SnapshotDocument.uri = Dict.keys w.documents := by
    rw [Dict.values, List.map_map]
    exact List.map_congr_left filed.keyed
  exact ((Text.sortOn_perm _ _).map _).nodup_iff.2 (keys ▸ filed.nodup)

theorem filter_ofSnapshot {w : Snapshot} {doc : SnapshotDocument} {range : Range} (filed : w.Filed)
    (found : w.document? uri = some doc) :
    (ofSnapshot w).filter (·.location = ⟨uri, range⟩) =
      (flat uri doc.text (Module.read uri doc.text)).filter (·.location = ⟨uri, range⟩) := by
  have mem : doc ∈ w.ordered := (Text.sortOn_perm _ _).mem_iff.2
    (List.mem_map_of_mem (f := Prod.snd) ((Dict.get?_eq_some_iff filed.nodup).1 found))
  obtain ⟨front, behind, split⟩ := List.append_of_mem mem
  obtain rfl := filed.uri_eq found
  have none_ (docs : List SnapshotDocument) (apart : ∀ d ∈ docs, d.uri ≠ doc.uri) :
      (docs.flatMap fun d => flat d.uri d.text (Module.read d.uri d.text)).filter
        (·.location = ⟨doc.uri, range⟩) = [] := by
    refine List.filter_eq_nil_iff.2 fun x found => ?_
    obtain ⟨d, mem, own⟩ := List.mem_flatMap.1 found
    rw [flat_eq] at own
    obtain ⟨e, -, entry⟩ := List.mem_filterMap.1 own
    simp [(location_of_symbolOf? entry).1, apart d mem]
  have nodup := nodup_ordered filed
  rw [split, List.map_append, List.map_cons, List.nodup_append, List.nodup_cons] at nodup
  obtain ⟨-, ⟨after, -⟩, before⟩ := nodup
  rw [ofSnapshot, split, List.flatMap_append, List.flatMap_cons, List.filter_append,
    List.filter_append,
    none_ front fun d mem => before _ (List.mem_map_of_mem mem) _ List.mem_cons_self,
    none_ behind fun d mem eq => after (eq ▸ List.mem_map_of_mem mem), List.nil_append,
    List.append_nil]

theorem Placed.symbolOf?_eq {e : List Item × Item} {node : Option DocumentSymbol × DocumentSymbol}
    (placed : Placed lines e node) : symbolOf? uri lines e =
      some ⟨node.2.name, node.2.kind, ⟨uri, lines.rangeOf e.2.span⟩,
        node.1.map DocumentSymbol.name⟩ := by
  obtain ⟨⟨caption, -⟩, parent⟩ := placed
  have title : (parent? e.1 e.2).map Heading.title = node.1.map DocumentSymbol.name := by
    generalize parent? e.1 e.2 = above, node.1 = around at parent
    cases parent with
    | none => rfl
    | some shows => exact congrArg (Option.map Prod.snd) shows.caption
  rw [symbolOf?, caption, title]
  rfl

/-- The outline of a document has its headings, its bindings, and its labels that are not on the
line of a heading, in order, each once and under the heading that it is under; and of each the list
of the workspace's symbols has, if the name matches the query, one entry with the name of the symbol
above it. -/
theorem answer_symbols (s w : Snapshot) (uri uri' : Uri) (query : Text)
    (doc doc' : SnapshotDocument)
    (filed : s.Filed) (filed' : w.Filed) (entry : s.entryDocument? = some doc)
    (found : w.document? doc.uri = some doc') (same : doc'.text = doc.text) :
    let items := (Module.read doc.uri doc.text).items
    let lines := LineTable.ofText doc.text
    ∃ symbols reported,
      Flow.Yields (.computed .quill) (Question.documentSymbols.answer s uri)
        (.ok (.documentSymbols symbols)) ∧
      Flow.Yields (.computed .quill) ((Question.workspaceSymbols query).answer w uri')
        (.ok (.workspaceSymbols reported)) ∧
      Forall₂ (fun e node => Placed lines e node ∧
          let place : Location := ⟨doc.uri, lines.rangeOf e.2.span⟩
          reported.filter (·.location = place) =
            matching query [⟨node.2.name, node.2.kind, place, node.1.map DocumentSymbol.name⟩])
        ((contexts [] items).filter (·.2.Listed doc.text items))
        (DocumentSymbol.walk none symbols) := by
  intro items lines
  refine ⟨_, _, yields_documentSymbols filed entry uri, yields_workspaceSymbols w uri' query, ?_⟩
  refine ((List.forall₂_and_left _ _).2 ⟨fun e mem => (List.mem_filter.1 mem).1,
    forall₂_walk_ofModule doc.uri doc.text⟩).imp fun e node ⟨mem, placed⟩ => ⟨placed, ?_⟩
  intro place
  have named : e.2.caption?.isSome := by rw [placed.own.caption]; rfl
  rw [filter_matching, filter_ofSnapshot filed' found, same, filter_flat mem named,
    placed.symbolOf?_eq, Option.toList_some]

theorem answer_symbols_returning :
    let doc : SnapshotDocument :=
      ⟨"/ws/main.quill", "= A <a>\n=== B\n#let x = 1\n== C\n<c>", 1, "", .memory⟩
    let s : Snapshot := ⟨.file doc.uri, [(doc.uri, doc)], [], .default, ""⟩
    let w : Snapshot := ⟨.workspace, [(doc.uri, doc)], [], .default, ""⟩
    let items := (Module.read doc.uri doc.text).items
    let lines := LineTable.ofText doc.text
    s.Filed ∧ w.Filed ∧ s.entryDocument? = some doc ∧ w.document? doc.uri = some doc ∧
    ∃ symbols reported,
      Flow.Yields (.computed .quill) (Question.documentSymbols.answer s doc.uri)
        (.ok (.documentSymbols symbols)) ∧
      Flow.Yields (.computed .quill) ((Question.workspaceSymbols "").answer w [])
        (.ok (.workspaceSymbols reported)) ∧
      Forall₂ (fun e node => Placed lines e node ∧
          let place : Location := ⟨doc.uri, lines.rangeOf e.2.span⟩
          reported.filter (·.location = place) =
            matching "" [⟨node.2.name, node.2.kind, place, node.1.map DocumentSymbol.name⟩])
        ((contexts [] items).filter (·.2.Listed doc.text items))
        (DocumentSymbol.walk none symbols) := by
  intro doc s w items lines
  have filed : s.Filed := ⟨by decide, by decide⟩
  have filed' : w.Filed := ⟨by decide, by decide⟩
  have entry : s.entryDocument? = some doc := by decide
  have found : w.document? doc.uri = some doc := by decide
  exact ⟨filed, filed', entry, found,
    answer_symbols s w doc.uri [] "" doc doc filed filed' entry found rfl⟩

end Outline

end Quill
