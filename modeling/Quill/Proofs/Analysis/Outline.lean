import Quill.Analysis.Outline

/-!
# The outline as a tree

The outline of a document is built from open sections, and a section is put into the one around it
when it ends. What comes out is the tree that the levels of the headings describe: under a heading
is everything up to the next heading that is not deeper.

## Main definitions

* `Outline.leaf?` — the symbol of an item that nothing can be under.
* `Outline.Outlined` — the symbols of items, section by section.
* `Outline.State.Extends` — a state with open sections, and what is added to another one once these
  have ended.

## Main statements

* `Outline.exists_outlined` — all items have symbols.
* `Outline.Outlined.exists_extends` — going through items adds their symbols.
* `Outline.outlined_ofModule` — the outline of a document has the symbols of its items.
-/

namespace Quill.Outline

def leaf? (lines : LineTable) (current : Option Heading) : Item → Option DocumentSymbol
  | .label m =>
    if current.any fun h => m.span.within h.span then none
    else some (.mk m.name none .label (lines.rangeOf m.span) (lines.rangeOf m.nameSpan) [])
  | .binding b =>
    some (.mk b.name (some b.value) .binding (lines.rangeOf b.span) (lines.rangeOf b.nameSpan) [])
  | _ => none

/-- The items behind a section: none, or first a heading that is not deeper. -/
def Ends (level : Nat) (outer : List Item) : Prop :=
  ∀ i ∈ outer.head?, ∃ g, i = .heading g ∧ g.level ≤ level

/-- Where a section stops that is followed by the items `outer`; without any it goes on up to
`stop`. -/
def stopAt (stop : Int) (outer : List Item) : Int := (outer.head?.map (·.span.start)).getD stop

inductive Outlined (t : Text) (lines : LineTable) :
    Option Heading → Int → List Item → List DocumentSymbol → Prop
  | nil {current stop} : Outlined t lines current stop [] []
  | item {current stop i behind symbols} (plain : i.heading? = none)
      (outlined : Outlined t lines current stop behind symbols) :
      Outlined t lines current stop (i :: behind) ((leaf? lines current i).toList ++ symbols)
  | heading {current stop h inner children current' outer symbols}
      (deeper : ∀ g, .heading g ∈ inner → h.level < g.level) (ends : Ends h.level outer)
      (inside : Outlined t lines (some h) (stopAt stop outer) inner children)
      (outlined : Outlined t lines current' stop outer symbols) :
      Outlined t lines current stop (.heading h :: (inner ++ outer))
        (sectionSymbol t lines ⟨h, children⟩ (stopAt stop outer) :: symbols)

variable {t : Text} {lines : LineTable} {stop : Int} {current : Option Heading} {items : List Item}
  {h : Heading}
  {symbols : List DocumentSymbol} {st : State} {ends : Heading → Bool} {opened base : List Heading}

@[elab_as_elim]
theorem headings_induction {motive : List Item → Prop} (nil : motive [])
    (plain : ∀ i behind, i.heading? = none → motive behind → motive (i :: behind))
    (heading : ∀ h behind, motive behind → motive (.heading h :: behind)) (items : List Item) :
    motive items := by
  induction items with
  | nil => exact nil
  | cons i behind ih =>
    by_cases other : i.heading? = none
    · exact plain i behind other ih
    · obtain ⟨h, rfl⟩ := Item.exists_heading other
      exact heading h behind ih

theorem exists_section (h : Heading) (behind : List Item) : ∃ inner outer, behind = inner ++ outer ∧
    (∀ g, .heading g ∈ inner → h.level < g.level) ∧ Ends h.level outer := by
  let deeper (i : Item) : Bool := i.heading?.all (h.level < ·.level)
  refine ⟨behind.takeWhile deeper, behind.dropWhile deeper, List.takeWhile_append_dropWhile.symm,
    fun g mem => ?_, fun i first => ?_⟩
  · simpa [deeper, Item.heading?] using List.all_eq_true.1 List.all_takeWhile _ mem
  · have ends := List.head?_dropWhile_not deeper behind
    rw [Option.mem_def.1 first] at ends
    cases i <;> simp_all [deeper, Item.heading?]

/-- Whatever the levels of the headings are, the items have symbols. -/
theorem exists_outlined (t : Text) (lines : LineTable) (current : Option Heading) (stop : Int)
    (items : List Item) :
    ∃ symbols, Outlined t lines current stop items symbols := by
  induction length : items.length using Nat.strongRecOn generalizing current stop items with
  | ind n ih =>
  subst length
  cases items with
  | nil => exact ⟨[], .nil⟩
  | cons i behind =>
    by_cases plain : i.heading? = none
    · obtain ⟨symbols, outlined⟩ := ih _ (by simp) current stop behind rfl
      exact ⟨_, .item plain outlined⟩
    · obtain ⟨h, rfl⟩ := Item.exists_heading plain
      obtain ⟨inner, outer, rfl, deeper, ends⟩ := exists_section h behind
      have length : (Item.heading h :: (inner ++ outer)).length = inner.length +
          outer.length + 1 := by simp
      obtain ⟨children, inside⟩ := ih inner.length (by omega) (some h) (stopAt stop outer) inner rfl
      obtain ⟨symbols, outlined⟩ := ih outer.length (by omega) none stop outer rfl
      exact ⟨_, .heading deeper ends inside outlined⟩

/-! ## Open sections -/

namespace State

def addAll (st : State) (symbols : List DocumentSymbol) : State :=
  match st.sections with
  | s :: outer => { st with sections := { s with children := s.children ++ symbols } :: outer }
  | [] => { st with roots := st.roots ++ symbols }

def headings (st : State) : List Heading := st.sections.map Section.heading

theorem add_eq (st : State) (symbol : DocumentSymbol) : st.add symbol = st.addAll [symbol] := rfl

@[simp] theorem addAll_nil (st : State) : st.addAll [] = st := by
  obtain ⟨roots, sections, current⟩ := st
  cases sections <;> simp [addAll]

theorem addAll_append (st : State) (symbols symbols' : List DocumentSymbol) :
    st.addAll (symbols ++ symbols') = (st.addAll symbols).addAll symbols' := by
  obtain ⟨roots, sections, current⟩ := st
  cases sections <;> simp [addAll]

@[simp] theorem headings_addAll (st : State) (symbols : List DocumentSymbol) :
    (st.addAll symbols).headings = st.headings := by
  obtain ⟨roots, sections, current⟩ := st
  cases sections <;> simp [addAll, headings]

@[simp] theorem current_addAll (st : State) (symbols : List DocumentSymbol) :
    (st.addAll symbols).current = st.current := by
  obtain ⟨roots, sections, current⟩ := st
  cases sections <;> simp [addAll]

theorem addAll_current (st : State) (symbols : List DocumentSymbol) (latest : Option Heading) :
    { st with current := latest }.addAll symbols =
      { st.addAll symbols with current := latest } := by
  obtain ⟨roots, sections, current⟩ := st
  cases sections <;> simp [addAll]

/-- End the `n` innermost sections. -/
abbrev closeInner (t : Text) (lines : LineTable) (stop : Int) (n : Nat) (st : State) : State :=
  closeWhile t lines stop (fun _ => true) n st

theorem closeInner_of_nil (none_ : st.sections = []) (n : Nat) :
    closeInner t lines stop n st = st := by
  cases n <;> simp [closeInner, closeWhile, none_]

theorem closeInner_add (m n : Nat) (st : State) :
    closeInner t lines stop (m + n) st =
      closeInner t lines stop n (closeInner t lines stop m st) := by
  induction m generalizing st with
  | zero => rw [Nat.zero_add]; rfl
  | succ m ih =>
    obtain ⟨roots, sections, current⟩ := st
    cases sections with
    | nil => simp only [closeInner_of_nil]
    | cons s outer =>
      rw [Nat.add_right_comm]
      exact ih _

/-- What is ended as long as a test holds are the sections up to the first one for which it does
not. -/
theorem closeWhile_eq {n : Nat} (headings : st.headings = opened ++ base)
    (all : ∀ h ∈ opened, ends h = true)
    (stops : ∀ h ∈ base.head?, ends h = false) (le : opened.length ≤ n) :
    closeWhile t lines stop ends n st = closeInner t lines stop opened.length st := by
  induction opened generalizing n st with
  | nil =>
    obtain ⟨roots, sections, current⟩ := st
    cases n with
    | zero => rfl
    | succ n =>
      cases sections with
      | nil => rfl
      | cons s outer =>
        obtain rfl : s.heading :: outer.map Section.heading = base := headings
        simp [closeInner, closeWhile, stops s.heading rfl]
  | cons h opened ih =>
    obtain ⟨roots, sections, current⟩ := st
    cases sections with
    | nil => simp [State.headings] at headings
    | cons s outer =>
      obtain ⟨rfl, headings⟩ : s.heading = h ∧ outer.map Section.heading = opened ++ base := by
        simpa [State.headings] using headings
      cases n with
      | zero => simp at le
      | succ n =>
        rw [closeInner, List.length_cons, closeWhile, closeWhile]
        simp only [all s.heading (by simp), if_true]
        refine ih ?_ (fun h mem => all h (by simp [mem])) (by simpa using le)
        rwa [add_eq, headings_addAll]

def enter (h : Heading) (st : State) : State :=
  { st with sections := ⟨h, []⟩ :: st.sections, current := some h }

@[simp] theorem headings_enter (h : Heading) (st : State) :
    (st.enter h).headings = h :: st.headings := rfl

/-- A heading ends the sections that are not less deep, and begins its own. -/
theorem take_heading (headings : st.headings = opened ++ base)
    (deeper : ∀ o ∈ opened, h.level ≤ o.level) (above : ∀ o ∈ base, o.level < h.level) :
    st.take t lines (.heading h) = (closeInner t lines h.span.start opened.length st).enter h := by
  have length := congrArg List.length headings
  simp only [State.headings, List.length_map, List.length_append] at length
  have closed :
      closeWhile t lines h.span.start (fun outer => h.level ≤ outer.level) st.sections.length st =
      closeInner t lines h.span.start opened.length st :=
    closeWhile_eq headings (fun o mem => decide_eq_true (deeper o mem))
      (fun o first => decide_eq_false (Nat.not_le.2 (above o (List.mem_of_mem_head? first))))
      (by omega)
  rw [take, close, closed, enter]

/-- A heading that is deeper than all open sections ends none of them. -/
theorem take_heading_of_above (above : ∀ o ∈ st.headings, o.level < h.level) :
    st.take t lines (.heading h) = st.enter h :=
  take_heading (List.nil_append _).symm (by simp) above

/-- Any other item is put into the innermost section. -/
theorem take_of_plain {i : Item} (plain : i.heading? = none) (st : State) :
    st.take t lines i = st.addAll (leaf? lines st.current i).toList := by
  cases i with
  | heading h => simp [Item.heading?] at plain
  | label m =>
    simp only [take, leaf?]
    split <;> simp [add_eq]
  | reference m | binding b | use m | inclusion i => simp [take, leaf?, add_eq]

/-- A section that ends is put into the one around it. -/
theorem closeInner_enter (h : Heading) (children : List DocumentSymbol) (latest : Option Heading)
    (st : State) :
    closeInner t lines stop 1 { (st.enter h).addAll children with current := latest } =
      { st.addAll [sectionSymbol t lines ⟨h, children⟩ stop] with current := latest } := by
  obtain ⟨roots, sections, current⟩ := st
  cases sections <;> simp [closeInner, closeWhile, enter, addAll, add]

/-- The state `st'` is `st` with the sections `opened` inside, and with `symbols` once these have
ended at `stop`. -/
structure Extends (t : Text) (lines : LineTable) (stop : Int) (st : State) (opened : List Heading)
    (symbols : List DocumentSymbol) (st' : State) : Prop where
  headings : st'.headings = opened ++ st.headings
  ended : ∃ latest, closeInner t lines stop opened.length st' =
    { st.addAll symbols with current := latest }

variable {st' : State} {symbols' children : List DocumentSymbol}

theorem Extends.refl (st : State) : Extends t lines stop st [] [] st :=
  ⟨rfl, st.current, by rw [addAll_nil]; rfl⟩

theorem Extends.add
    (ext : Extends t lines stop { st.addAll symbols with current := current } opened symbols' st') :
    Extends t lines stop st opened (symbols ++ symbols') st' := by
  obtain ⟨headings, latest, ended⟩ := ext
  exact ⟨headings.trans (congrArg _ (headings_addAll st symbols)), latest, by
    rw [ended, addAll_current, ← addAll_append]⟩

theorem Extends.section_ (ext : Extends t lines stop (st.enter h) opened children st') :
    Extends t lines stop st (opened ++ [h]) [sectionSymbol t lines ⟨h, children⟩ stop] st' := by
  obtain ⟨headings, latest, ended⟩ := ext
  refine ⟨by simpa using headings, latest, ?_⟩
  rw [List.length_append, closeInner_add, ended]
  exact closeInner_enter h children latest st

theorem Extends.take_heading (ext : Extends t lines h.span.start st opened symbols st')
    (deeper : ∀ o ∈ opened, h.level ≤ o.level) (above : ∀ o ∈ st.headings, o.level < h.level)
    (current : Option Heading) :
    st'.take t lines (.heading h) = { st.addAll symbols with current := current }.take t lines
      (.heading h) := by
  obtain ⟨headings, latest, ended⟩ := ext
  have same : { st.addAll symbols with current := current }.headings = st.headings :=
    headings_addAll st symbols
  rw [State.take_heading headings deeper above, ended, take_heading_of_above (same ▸ above)]
  rfl

end State

/-- Items of deeper sections leave sections open, and add their symbols once these have ended. -/
theorem Outlined.exists_extends (outlined : Outlined t lines current stop items symbols)
    (now : st.current = current)
    (above : ∀ o ∈ st.headings, ∀ g, .heading g ∈ items → o.level < g.level) :
    ∃ opened, State.Extends t lines stop st opened symbols (items.foldl (State.take t lines) st) ∧
      ∀ o ∈ opened, .heading o ∈ items := by
  induction outlined generalizing st with
  | nil => exact ⟨[], .refl st, by simp⟩
  | @item current stop i behind symbols plain outlined ih =>
    rw [List.foldl_cons, State.take_of_plain plain, now]
    have now' : (st.addAll (leaf? lines current i).toList).current = current := by
      rwa [State.current_addAll]
    obtain ⟨opened, ext, sub⟩ := ih now' fun o mem g inside =>
      above o (State.headings_addAll st _ ▸ mem) g (List.mem_cons_of_mem _ inside)
    exact ⟨opened, ext.add, fun o mem => List.mem_cons_of_mem _ (sub o mem)⟩
  | @heading current stop h inner children current' outer symbols deeper ends inside
    outlined ih ih' =>
    have now' : (st.enter h).current = some h := rfl
    obtain ⟨opened, ext, sub⟩ := ih now' fun o mem g inInner =>
      (List.mem_cons.1 mem).elim (fun same => same ▸ deeper g inInner)
        fun outside => above o outside g (by simp [inInner])
    have ext := ext.section_
    have sub : ∀ o ∈ opened ++ [h], h.level ≤ o.level ∧ Item.heading o ∈ Item.heading h :: inner :=
      fun o mem => by
      rcases List.mem_append.1 mem with inInner | own
      · exact ⟨Nat.le_of_lt (deeper o (sub o inInner)), by simp [sub o inInner]⟩
      · simp [List.mem_singleton.1 own]
    rw [List.foldl_cons, State.take_heading_of_above fun o mem => above o mem h (by simp),
      List.foldl_append]
    cases outer with
    | nil =>
      cases outlined
      exact ⟨_, ext, fun o mem => by simpa using (sub o mem).2⟩
    | cons i outer =>
      obtain ⟨g, rfl, le⟩ := ends i rfl
      have outside : ∀ o ∈ st.headings, ∀ g', .heading g' ∈ Item.heading g :: outer →
          o.level < g'.level :=
        fun o mem g' mem' => above o mem g' (List.mem_cons_of_mem _ (List.mem_append_right _ mem'))
      -- the next heading ends what this section has left open, and finds its symbol in place
      have next := ext.take_heading (fun o mem => Nat.le_trans le (sub o mem).1)
        (fun o mem => outside o mem g List.mem_cons_self) current'
      rw [List.foldl_cons, next, ← List.foldl_cons]
      let added : State :=
        { st.addAll [sectionSymbol t lines ⟨h, children⟩ g.span.start] with current := current' }
      have same : added.headings = st.headings := State.headings_addAll st _
      have now'' : added.current = current' := rfl
      obtain ⟨opened', ext', sub'⟩ := ih' now'' fun o mem => outside o (same ▸ mem)
      exact ⟨opened', ext'.add,
        fun o mem => List.mem_cons_of_mem _ (List.mem_append_right _ (sub' o mem))⟩

/-- The outline of a document is the tree of its items. -/
theorem outlined_ofModule (t : Text) (m : Module) :
    Outlined t (LineTable.ofText t) none t.length m.items (ofModule t m) := by
  obtain ⟨symbols, outlined⟩ := exists_outlined t (LineTable.ofText t) none t.length m.items
  have now : ({} : State).current = none := rfl
  obtain ⟨opened, ⟨headings, latest, ended⟩, -⟩ :=
    outlined.exists_extends now (by simp [State.headings])
  have same : ofModule t m = symbols := by
    have length : (m.items.foldl (State.take t (LineTable.ofText t)) {}).sections.length =
        opened.length := by
      simpa [State.headings] using congrArg List.length headings
    rw [ofModule, State.close, length]
    exact (congrArg State.roots ended).trans (List.nil_append symbols)
  exact same ▸ outlined

end Quill.Outline
