import Mathlib.Data.List.Induction
import Quill.Proofs.Analysis.Nesting
import Quill.Proofs.Markup.Leading

/-!
# What can be folded

The ranges that can be folded are lines of sections and blocks of inclusions. Of two of them one is
in the other, or they have no line in common: a section goes on up to the last unit that can be seen
in front of the heading that ends it, and a block of inclusions is in front of that heading or
behind it.

## Main definitions

* `FoldingRange.Laminar` — two ranges are apart, or one is in the other.
* `Folding.Block` — lines that follow each other, as many as there are.
* `Folding.foldable` — the sections of items, heading by heading.
* `Folding.EndsAt` — where the section of a heading ends.
* `Folding.Folds` — what the ranges of a document are.

## Main statements

* `Folding.mem_runs_iff` — the runs of lines are their blocks.
* `Folding.sections_eq` — the sections of an outline are those of its items.
* `Folding.laminar_sections`, `Folding.laminar_block` — how sections and blocks meet.
* `Folding.answer_foldingRanges` — the ranges of the answer.
-/

namespace Quill

open Outline (Ends Outlined headings_induction leaf? sectionEnd sectionEnd_inside sectionStop
  sectionStop_append
  sectionSymbol solidBefore_sectionEnd stopAt)

def FoldingRange.Laminar (r r' : FoldingRange) : Prop :=
  r.endLine < r'.startLine ∨ r'.endLine < r.startLine ∨
    (r.startLine ≤ r'.startLine ∧ r'.endLine ≤ r.endLine) ∨
    (r'.startLine ≤ r.startLine ∧ r.endLine ≤ r'.endLine)

theorem FoldingRange.Laminar.symm {r r' : FoldingRange} (laminar : r.Laminar r') :
    r'.Laminar r := by
  rcases laminar with before | behind | around | within_
  · exact .inr (.inl before)
  · exact .inl behind
  · exact .inr (.inr (.inr around))
  · exact .inr (.inr (.inl within_))

def Module.inclusionLines (t : Text) (m : Module) : List Int :=
  m.inclusions.map fun i => t.lineAt i.span.start

namespace Folding

/-! ## Runs of lines -/

/-- From `a` to `b` all numbers are among those of `p`, and the ones next to them are not. -/
structure Block (p : Int → Prop) (a b : Int) : Prop where
  le : a ≤ b
  all : ∀ n, a ≤ n → n ≤ b → p n
  before : ¬ p (a - 1)
  behind : ¬ p (b + 1)

variable {p : Int → Prop} {a a' b b' x : Int} {lines : List Int} {found : List (Int × Int)}
  {r r' : Int × Int}

theorem Block.eq_of_meet (block : Block p a b) (block' : Block p a' b') (meet : a ≤ b')
    (meet' : a' ≤ b) :
    a = a' ∧ b = b' := by
  refine ⟨Int.le_antisymm ?_ ?_, Int.le_antisymm ?_ ?_⟩ <;> refine Int.not_lt.1 fun lt => ?_
  · exact block.before (block'.all _ (by omega) (by omega))
  · exact block'.before (block.all _ (by omega) (by omega))
  · exact block'.behind (block.all _ (by omega) (by omega))
  · exact block.behind (block'.all _ (by omega) (by omega))

theorem not_block_nil : ¬ Block (· ∈ ([] : List Int)) a b := fun block =>
  List.not_mem_nil (block.all a (Int.le_refl _) block.le)

/-- A number behind all others is a block of its own, or makes the block in front of it longer. -/
theorem block_concat_iff (later : ∀ n ∈ lines, n < x) : Block (· ∈ lines ++ [x]) a b ↔
    Block (· ∈ lines) a b ∧ b + 1 ≠ x ∨ b = x ∧
    (a = x ∧ x - 1 ∉ lines ∨ Block (· ∈ lines) a (x - 1)) := by
  simp only [List.mem_append, List.mem_singleton]
  constructor
  · rintro ⟨le, all, before, behind⟩
    by_cases last : b = x
    · subst last
      by_cases alone : a = b
      · exact .inr ⟨rfl, .inl ⟨alone, fun mem => before (.inl (alone ▸ mem))⟩⟩
      · refine .inr ⟨rfl,
          .inr ⟨by omega, fun n le le' => ?_, fun mem => before (.inl mem), fun mem => ?_⟩⟩
        · exact (all n le (by omega)).resolve_right (by omega)
        · have := later _ mem
          omega
    · have lt : b < x := (all b le (Int.le_refl _)).elim (later b) (absurd · last)
      exact .inl ⟨⟨le, fun n le le' => (all n le le').resolve_right (by omega),
        fun mem => before (.inl mem), fun mem => behind (.inl mem)⟩, fun eq => behind (.inr eq)⟩
  · rintro (⟨⟨le, all, before, behind⟩, ne⟩ | ⟨rfl, ⟨rfl, before⟩ | ⟨le, all, before, -⟩⟩)
    · have lt := later b (all b le (Int.le_refl _))
      exact ⟨le, fun n le le' => .inl (all n le le'), fun mem => mem.elim before (by omega),
        fun mem => mem.elim behind ne⟩
    · exact ⟨Int.le_refl _, fun n le le' => .inr (by omega), fun mem => mem.elim before (by omega),
        fun mem => mem.elim (fun mem => by have := later _ mem; omega) (by omega)⟩
    · refine ⟨by omega, fun n le le' => ?_, fun mem => mem.elim before (by omega),
        fun mem => mem.elim (fun mem => by have := later _ mem; omega) (by omega)⟩
      rcases Int.lt_or_eq_of_le le' with lt | rfl
      · exact .inl (all n le (by omega))
      · exact .inr rfl

structure RunsOf (lines : List Int) (found : List (Int × Int)) : Prop where
  blocks : ∀ r, r ∈ found ↔ Block (· ∈ lines) r.1 r.2
  apart : found.Pairwise fun r r' => r'.2 < r.1
  latest : ∀ n ∈ lines, ∃ r ∈ found.head?, n ≤ r.2

/-- A line behind all others makes the latest run longer, or begins a run of its own. -/
theorem RunsOf.addLine (of : RunsOf lines found) (later : ∀ n ∈ lines, n < x) :
    RunsOf (lines ++ [x]) (addLine found x) := by
  have upTo (n : Int) (mem : n ∈ lines ++ [x]) : n ≤ x :=
    (List.mem_append.1 mem).elim (fun mem => Int.le_of_lt (later n mem)) fun own => by simp_all
  cases found with
  | nil =>
    obtain rfl : lines = [] := List.eq_nil_iff_forall_not_mem.2 fun n mem => by
      simpa using of.latest n mem
    refine ⟨fun r => ?_, List.pairwise_singleton _ _, fun n mem => ⟨(x, x), rfl, upTo n mem⟩⟩
    rw [block_concat_iff later, Folding.addLine, List.mem_singleton]
    constructor
    · rintro rfl
      exact .inr ⟨rfl, .inl ⟨rfl, List.not_mem_nil⟩⟩
    · rintro (⟨block, -⟩ | ⟨eq, ⟨alone, -⟩ | block⟩)
      · exact (not_block_nil block).elim
      · exact Prod.ext alone eq
      · exact (not_block_nil block).elim
  | cons run rest =>
    obtain ⟨s, e⟩ := run
    have own : Block (· ∈ lines) s e := (of.blocks (s, e)).1 List.mem_cons_self
    have last (n : Int) (mem : n ∈ lines) : n ≤ e := by simpa using of.latest n mem
    have mem_e := own.all e own.le (Int.le_refl _)
    have lt := later e mem_e
    obtain ⟨apart, others⟩ := List.pairwise_cons.1 of.apart
    by_cases next : x = e + 1
    · subst next
      rw [Folding.addLine, if_pos rfl]
      refine ⟨fun r => ?_, List.pairwise_cons.2 ⟨apart, others⟩, fun n mem => ⟨_, rfl, upTo n mem⟩⟩
      rw [block_concat_iff later, List.mem_cons]
      constructor
      · rintro (rfl | mem)
        · exact .inr ⟨rfl, .inr (by simpa using own)⟩
        · have := apart r mem
          have := own.le
          exact .inl ⟨(of.blocks r).1 (List.mem_cons_of_mem _ mem), by simp only at *; omega⟩
      · rintro (⟨block, ne⟩ | ⟨eq, ⟨-, none_⟩ | block⟩)
        · rcases List.mem_cons.1 ((of.blocks r).2 block) with rfl | mem
          · exact absurd rfl ne
          · exact .inr mem
        · exact absurd mem_e (by simpa using none_)
        · rw [Int.add_sub_cancel] at block
          exact .inl (Prod.ext (block.eq_of_meet own block.le own.le).1 eq)
    · rw [Folding.addLine, if_neg next]
      refine ⟨fun r => ?_, List.pairwise_cons.2 ⟨fun r mem => ?_, of.apart⟩,
        fun n mem => ⟨_, rfl, upTo n mem⟩⟩
      · rw [block_concat_iff later, List.mem_cons]
        constructor
        · rintro (rfl | mem)
          · exact .inr ⟨rfl, .inl ⟨rfl, fun mem => by have := last _ mem; omega⟩⟩
          · have block := (of.blocks r).1 mem
            have := last r.2 (block.all _ block.le (Int.le_refl _))
            exact .inl ⟨block, by omega⟩
        · rintro (⟨block, -⟩ | ⟨eq, ⟨alone, -⟩ | block⟩)
          · exact .inr ((of.blocks r).2 block)
          · exact .inl (Prod.ext alone eq)
          · have := last _ (block.all _ block.le (Int.le_refl _))
            omega
      · have block := (of.blocks r).1 mem
        exact later _ (block.all _ block.le (Int.le_refl _))

theorem runsOf_foldl (sorted : lines.Pairwise (· < ·)) : RunsOf lines (lines.foldl addLine []) := by
  induction lines using List.reverseRecOn with
  | nil => exact ⟨fun r => iff_of_false List.not_mem_nil not_block_nil, .nil, by simp⟩
  | append_singleton lines x ih =>
    obtain ⟨sorted, -, later⟩ := List.pairwise_append.1 sorted
    rw [List.foldl_append]
    exact (ih sorted).addLine fun n mem => later n mem x (by simp)

theorem mem_runs_iff (sorted : lines.Pairwise (· < ·)) :
    r ∈ runs lines ↔ Block (· ∈ lines) r.1 r.2 := by
  rw [runs, List.mem_reverse, (runsOf_foldl sorted).blocks]

theorem pairwise_runs (sorted : lines.Pairwise (· < ·)) :
    (runs lines).Pairwise fun r r' => r.2 < r'.1 :=
  List.pairwise_reverse.2 (runsOf_foldl sorted).apart

/-! ## Sections -/

def sectionLines? (t : Text) (h : Heading) (stop : Int) : Option FoldingRange :=
  if t.lineAt h.span.start < t.lineAt (sectionEnd t h stop) then
    some ⟨t.lineAt h.span.start, t.lineAt (sectionEnd t h stop), .section⟩
  else none

def foldable (t : Text) (stop : Int) : List Item → List FoldingRange
  | [] => []
  | .heading h :: behind => (sectionLines? t h (sectionStop stop h.level behind)).toList ++
    foldable t stop behind
  | .label _ :: behind | .reference _ :: behind | .binding _ :: behind | .use _ ::
    behind | .inclusion _ :: behind =>
    foldable t stop behind

variable {t : Text} {uri : Uri} {stop e e' : Int} {level : Nat} {current : Option Heading}
  {h h' g : Heading}
  {i : Item} {items inner outer front behind : List Item} {symbols : List DocumentSymbol}
  {s : DocumentSymbol}

theorem foldable_cons (plain : i.heading? = none) (behind : List Item) :
    foldable t stop (i :: behind) = foldable t stop behind := by
  cases i with
  | heading h => simp [Item.heading?] at plain
  | label m | reference m | binding b | use m | inclusion i => rfl

theorem foldable_append (ends : Ends level outer)
    (deeper : ∀ g, .heading g ∈ inner → level < g.level) :
    foldable t stop (inner ++ outer) = foldable t (stopAt stop outer) inner ++
      foldable t stop outer := by
  induction inner using headings_induction with
  | nil => rfl
  | plain i behind plain ih =>
    have ih := ih fun g mem => deeper g (by simp [mem])
    rw [List.cons_append, foldable_cons plain, foldable_cons plain, ih]
  | heading h behind ih =>
    have ih := ih fun g mem => deeper g (by simp [mem])
    have ends := ends.mono (Nat.le_of_lt (deeper h (by simp)))
    rw [List.cons_append, foldable, foldable, ih, sectionStop_append ends, List.append_assoc]

theorem sections_cons_leaf (kind : s.kind ≠ .heading) (symbols : List DocumentSymbol) :
    sections (s :: symbols) = sections symbols := by
  obtain ⟨name, detail, kind', range, selectionRange, children⟩ := s
  have other : kind' ≠ .heading := kind
  rw [sections, sectionsOf, if_neg other, List.nil_append]

theorem sections_cons_section (h : Heading) (children symbols : List DocumentSymbol) (stop : Int) :
    sections (sectionSymbol t (LineTable.ofText t) ⟨h, children⟩ stop :: symbols) =
      (sectionLines? t h stop).toList ++ (sections children ++ sections symbols) := by
  rw [sections, sectionSymbol, sectionsOf, if_pos rfl, List.append_assoc, sectionLines?]
  congr 1
  change (if t.lineAt h.span.start < t.lineAt (sectionEnd t h stop) then _ else _) = _
  split <;> rfl

theorem sections_eq (outlined : Outlined t (LineTable.ofText t) current stop items symbols) :
    sections symbols = foldable t stop items := by
  induction outlined with
  | nil => rfl
  | @item current stop i behind symbols plain outlined ih =>
    rw [foldable_cons plain, ← ih]
    cases leaf : leaf? (LineTable.ofText t) current i with
    | none => rfl
    | some s => exact sections_cons_leaf (Outline.leaf?_shape leaf).1 symbols
  | @heading current stop h inner children current' outer symbols deeper ends inside
    outlined ih ih' =>
    rw [sections_cons_section, ih, ih', foldable, sectionStop_append ends,
      Outline.sectionStop_of_deeper deeper, foldable_append ends deeper]

theorem exists_of_mem_foldable {r : FoldingRange} (mem : r ∈ foldable t stop items) :
    ∃ front h behind, items = front ++ .heading h :: behind ∧
    r ∈ sectionLines? t h (sectionStop stop h.level behind) := by
  induction items using headings_induction with
  | nil => simp [foldable] at mem
  | plain i rest plain ih =>
    obtain ⟨front, h, behind, rfl, own⟩ := ih (foldable_cons plain rest ▸ mem)
    exact ⟨i :: front, h, behind, rfl, own⟩
  | heading h rest ih =>
    rcases List.mem_append.1 mem with own | later
    · exact ⟨[], h, rest, rfl, Option.mem_toList.1 own⟩
    · obtain ⟨front, h', behind, rfl, own⟩ := ih later
      exact ⟨_ :: front, h', behind, rfl, own⟩

/-! ## Where sections end -/

/-- The heading `g` is behind `h` and not deeper, so that the section of `h` is over before it. -/
def Closes (items : List Item) (h g : Heading) : Prop :=
  .heading g ∈ items ∧ h.span.start < g.span.start ∧ g.level ≤ h.level

/-- The section of a heading ends behind the last unit that can be seen in front of the headings
that close it. -/
structure EndsAt (t : Text) (items : List Item) (h : Heading) (e : Int) : Prop where
  mem : .heading h ∈ items
  solid : t.SolidBefore e
  before : ∀ g, Closes items h g → e ≤ g.span.start
  reaches : ∀ o, t.SolidBefore o → (∀ g, Closes items h g → o ≤ g.span.start) → o ≤ e

/-- A section stops in front of the first heading that is not deeper, if there is one. -/
theorem sectionStop_cases (stop : Int) (level : Nat) (behind : List Item) :
    (sectionStop stop level behind = stop ∧ ∀ g, .heading g ∈ behind → level < g.level) ∨
    ∃ ahead g rest, behind = ahead ++ .heading g :: rest ∧ g.level ≤ level ∧
      sectionStop stop level behind = g.span.start ∧ ∀ g',
      .heading g' ∈ ahead → level < g'.level := by
  rw [sectionStop]
  cases found : behind.find? fun i => i.heading?.any (·.level ≤ level) with
  | none => exact .inl ⟨rfl,
    fun g mem => by simpa [Item.heading?] using List.find?_eq_none.1 found _ mem⟩
  | some i =>
    obtain ⟨ends, ahead, rest, eq, others⟩ := List.find?_eq_some_iff_append.1 found
    obtain ⟨g, rfl⟩ : ∃ g, i = .heading g := by cases i <;> simp_all [Item.heading?]
    exact .inr ⟨ahead, g, rest, eq, by simpa [Item.heading?] using ends, rfl,
      fun g' mem => by simpa [Item.heading?] using others _ mem⟩

theorem Closes.mem_behind (closes : Closes (Module.read uri t).items h g)
    (split : (Module.read uri t).items = front ++ .heading h :: behind) : .heading g ∈ behind := by
  obtain ⟨mem, later, -⟩ := closes
  rw [split, List.mem_append, List.mem_cons] at mem
  rcases mem with ahead | same | inside
  · have across := (List.pairwise_append.1 (split ▸ Module.pairwise_start_lt uri t)).2.2
    exact absurd later (Int.lt_asymm (across _ ahead (.heading h) (by simp) rfl))
  · cases same
    exact absurd later (Int.lt_irrefl _)
  · exact inside

/-- A section stops behind its heading, at the end of the text or at the first heading that closes
it. -/
theorem sectionStop_spec (split : (Module.read uri t).items = front ++ .heading h :: behind)
    (eq : sectionStop t.length h.level behind = stop) : h.span.stop ≤ stop ∧ stop ≤ t.length ∧
      (∀ g, Closes (Module.read uri t).items h g → stop ≤ g.span.start) ∧
      (stop = t.length ∨ ∃ g, Closes (Module.read uri t).items h g ∧ stop = g.span.start) := by
  have after := (List.pairwise_append.1 (split ▸ Module.pairwise_start_lt uri t)).2.1
  obtain ⟨later, sorted⟩ := List.pairwise_cons.1 after
  have own : .heading h ∈ (Module.read uri t).items := split ▸ by simp
  rcases sectionStop_cases t.length h.level behind with ⟨stop_eq, deeper⟩ | ⟨ahead, g, rest, rfl,
    le, stop_eq, deeper⟩
  · obtain rfl := eq.symm.trans stop_eq
    exact ⟨(Module.heading_placed own).inside.stop, Int.le_refl _,
      fun g closes => absurd closes.2.2 (Nat.not_le.2 (deeper g (closes.mem_behind split))),
      .inl rfl⟩
  · obtain rfl := eq.symm.trans stop_eq
    have mem : .heading g ∈ (Module.read uri t).items := split ▸ by simp
    have inside := (Module.heading_placed mem).inside
    have behind_ := (List.pairwise_append.1 (split ▸ Module.pairwise_items uri t)).2.1
    have apart := ((List.pairwise_cons.1 behind_).1 (.heading g) (by simp)).heading rfl
    refine ⟨Int.le_of_lt apart.1, Int.le_trans inside.ordered inside.stop, fun g' closes => ?_,
      .inr ⟨g, ⟨mem, later (.heading g) (by simp) rfl, le⟩, rfl⟩⟩
    rcases List.mem_append.1 (closes.mem_behind split) with inAhead | rest_
    · exact absurd closes.2.2 (Nat.not_le.2 (deeper g' inAhead))
    · rcases List.mem_cons.1 rest_ with same | inRest
      · exact Item.heading.inj same ▸ Int.le_refl _
      · have sorted := (List.pairwise_append.1 sorted).2.1
        exact Int.le_of_lt ((List.pairwise_cons.1 sorted).1 _ inRest rfl)

theorem endsAt_sectionEnd (split : (Module.read uri t).items = front ++ .heading h :: behind) :
    EndsAt t (Module.read uri t).items h
      (sectionEnd t h (sectionStop t.length h.level behind)) := by
  obtain ⟨le, inText, first, stops⟩ := sectionStop_spec split rfl
  have mem : .heading h ∈ (Module.read uri t).items := split ▸ by simp
  have placed := Module.heading_placed mem
  refine ⟨mem, solidBefore_sectionEnd placed le inText, fun g closes => ?_,
    fun o solid before => ?_⟩
  · exact Int.le_trans (sectionEnd_inside placed le inText).2 (first g closes)
  · refine (Outline.le_sectionEnd_iff placed le inText).2 (solid.not_blankBetween (by omega) ?_)
    rcases stops with eq | ⟨g, closes, eq⟩
    · rw [eq]
      exact solid.le_length
    · rw [eq]
      exact before g closes

theorem line_lt_of_endsAt (ends : EndsAt t (Module.read uri t).items h e)
    (closes : Closes (Module.read uri t).items h g) : t.lineAt e < t.lineAt g.span.start :=
  Module.line_lt_of_solid closes.1 ends.solid (ends.before g closes)

/-- Of two sections the second one is in the first one or behind it. -/
theorem laminar_sections (ends : EndsAt t (Module.read uri t).items h e)
    (ends' : EndsAt t (Module.read uri t).items h' e') (le : h.span.start ≤ h'.span.start) :
    FoldingRange.Laminar ⟨t.lineAt h.span.start, t.lineAt e, .section⟩
      ⟨t.lineAt h'.span.start, t.lineAt e', .section⟩ := by
  rcases Int.lt_or_eq_of_le le with lt | same
  · by_cases closed : ∃ g, Closes (Module.read uri t).items h g ∧ g.span.start ≤ h'.span.start
    · obtain ⟨g, closes, le⟩ := closed
      exact .inl (Int.lt_of_lt_of_le (line_lt_of_endsAt ends closes) (Text.line_mono le t))
    · -- what closes `h` is behind `h'` and closes it, too
      have deeper : h.level < h'.level :=
        Nat.not_le.1 fun le => closed ⟨h', ⟨ends'.mem, lt, le⟩, Int.le_refl _⟩
      have reached := ends.reaches e' ends'.solid fun g closes => ends'.before g
        ⟨closes.1, Int.not_le.1 fun le => closed ⟨g, closes, le⟩,
          Nat.le_trans closes.2.2 (Nat.le_of_lt deeper)⟩
      exact .inr (.inr (.inl ⟨Text.line_mono le t, Text.line_mono reached t⟩))
  · simp only [FoldingRange.Laminar, same]
    omega

theorem heading_line_ne (mem : .heading h ∈ (Module.read uri t).items) :
    t.lineAt h.span.start ∉ (Module.read uri t).inclusionLines t := fun included => by
  obtain ⟨i, inclusion, line⟩ := List.mem_map.1 included
  obtain ⟨front, behind, split⟩ := List.append_of_mem mem
  obtain ⟨-, after, across⟩ := List.pairwise_append.1 (split ▸ Module.pairwise_line_lt uri t)
  have mem' := mem_inclusions_iff.1 inclusion
  rw [split, List.mem_append, List.mem_cons] at mem'
  rcases mem' with ahead | same | inside
  · exact absurd line (Int.ne_of_lt (across _ ahead (.heading h) (by simp) rfl))
  · cases same
  · exact absurd line.symm (Int.ne_of_lt ((List.pairwise_cons.1 after).1 _ inside rfl))

theorem laminar_block (ends : EndsAt t (Module.read uri t).items h e)
    (block : Block (· ∈ (Module.read uri t).inclusionLines t) a b) :
    FoldingRange.Laminar ⟨t.lineAt h.span.start, t.lineAt e, .section⟩ ⟨a, b, .imports⟩ := by
  have apart {g : Heading} (mem : .heading g ∈ (Module.read uri t).items)
      (le : t.lineAt g.span.start ≤ b) :
      t.lineAt g.span.start < a :=
    Int.not_le.1 fun le' => heading_line_ne mem (block.all _ le' le)
  by_cases le : t.lineAt h.span.start ≤ b
  case neg => exact .inr (.inl (Int.not_le.1 le))
  by_cases closed : ∃ g, Closes (Module.read uri t).items h g ∧ t.lineAt g.span.start ≤ b
  · obtain ⟨g, closes, le⟩ := closed
    exact .inl (Int.lt_trans (line_lt_of_endsAt ends closes) (apart closes.1 le))
  · -- the section goes on up to the end of the last inclusion
    obtain ⟨i, inclusion, rfl⟩ := List.mem_map.1 (block.all b block.le (Int.le_refl _))
    have mem := mem_inclusions_iff.1 inclusion
    have same : t.lineAt i.span.start = t.lineAt i.span.stop :=
      (Module.onLine_of_mem_items mem).sameLine
    have reached := ends.reaches _ (Module.solidBefore_inclusion mem) fun g closes =>
      Int.not_lt.1 fun lt =>
      closed ⟨g, closes, same ▸ Text.line_mono (Int.le_of_lt lt) t⟩
    exact .inr (.inr (.inl ⟨Int.le_of_lt (apart ends.mem le), same ▸ Text.line_mono reached t⟩))

/-! ## The ranges of a document -/

/-- What the ranges of a text are, given the lines of its inclusions: lines of the text, two at
least, one range in the other or apart, by start with the longer one first, each once, and among
them all blocks of inclusions. -/
structure Folds (t : Text) (included : List Int) (ranges : List FoldingRange) : Prop where
  inside : ∀ r ∈ ranges, 0 ≤ r.startLine ∧ r.startLine < r.endLine ∧ r.endLine < t.lines.length
  laminar : ∀ r ∈ ranges, ∀ r' ∈ ranges, r.Laminar r'
  sorted : ranges.Pairwise fun r r' =>
    r.startLine < r'.startLine ∨ r.startLine = r'.startLine ∧ r'.endLine ≤ r.endLine
  nodup : ranges.Nodup
  imports : ∀ a b, ⟨a, b, .imports⟩ ∈ ranges ↔ a < b ∧ Block (· ∈ included) a b

inductive Folded (uri : Uri) (t : Text) : FoldingRange → Prop
  | heading {h : Heading} {e : Int} (ends : EndsAt t (Module.read uri t).items h e)
    (lt : t.lineAt h.span.start < t.lineAt e) :
    Folded uri t ⟨t.lineAt h.span.start, t.lineAt e, .section⟩
  | inclusions {a b : Int} (block : Block (· ∈ (Module.read uri t).inclusionLines t) a b)
    (lt : a < b) :
    Folded uri t ⟨a, b, .imports⟩

theorem Folded.laminar {r r' : FoldingRange} (folded : Folded uri t r) (folded' : Folded uri t r') :
    r.Laminar r' := by
  cases folded with
  | @heading h e ends lt =>
    cases folded' with
    | @heading h' e' ends' lt' =>
      rcases Int.le_total h.span.start h'.span.start with first | second
      · exact laminar_sections ends ends' first
      · exact (laminar_sections ends' ends second).symm
    | inclusions block lt' => exact laminar_block ends block
  | @inclusions a b block lt =>
    cases folded' with
    | heading ends lt' => exact (laminar_block ends block).symm
    | @inclusions a' b' block' lt' =>
      by_cases meet : a ≤ b' ∧ a' ≤ b
      · obtain ⟨rfl, rfl⟩ := block.eq_of_meet block' meet.1 meet.2
        exact .inr (.inr (.inl ⟨Int.le_refl _, Int.le_refl _⟩))
      · simp only [FoldingRange.Laminar]
        omega

theorem lineAt_inside {o : Int} (nonneg : 0 ≤ o) (le : o ≤ t.length) :
    0 ≤ t.lineAt o ∧ t.lineAt o < t.lines.length := by
  obtain ⟨o, rfl⟩ := Int.eq_ofNat_of_zero_le nonneg
  obtain ⟨i, l, at_i, eq⟩ := LineTable.exists_positionAt_eq (t := t) (Int.ofNat_le.1 le)
  have := (List.getElem?_eq_some_iff.1 at_i).1
  simp only [Text.lineAt, eq]
  omega

theorem inclusionLine_inside {n : Int} (mem : n ∈ (Module.read uri t).inclusionLines t) :
    0 ≤ n ∧ n < t.lines.length := by
  obtain ⟨i, inclusion, rfl⟩ := List.mem_map.1 mem
  obtain ⟨row, of_text, own⟩ := Module.exists_row_of_mem (mem_inclusions_iff.1 inclusion)
  have inside := (of_text.inside _ own).1
  exact lineAt_inside inside.start (Int.le_trans inside.ordered inside.stop)

theorem Folded.inside {r : FoldingRange} (folded : Folded uri t r) :
    0 ≤ r.startLine ∧ r.startLine < r.endLine ∧ r.endLine < t.lines.length := by
  cases folded with
  | @heading h e ends lt =>
    have inside := (Module.heading_placed ends.mem).inside
    have first := lineAt_inside inside.start (Int.le_trans inside.ordered inside.stop)
    have nonneg : 0 ≤ e := by
      obtain ⟨l, -, lt, -⟩ := ends.solid.exists_line
      omega
    exact ⟨first.1, lt, (lineAt_inside nonneg ends.solid.le_length).2⟩
  | @inclusions a b block lt =>
    exact ⟨(inclusionLine_inside (block.all a (Int.le_refl _) block.le)).1, lt,
      (inclusionLine_inside (block.all b block.le (Int.le_refl _))).2⟩

theorem pairwise_inclusionLines (uri : Uri) (t : Text) :
    ((Module.read uri t).inclusionLines t).Pairwise (· < ·) := by
  rw [Module.inclusionLines, Module.inclusions, List.pairwise_map]
  refine List.pairwise_filterMap.2
    ((Module.pairwise_line_lt uri t).imp fun {a b} later x eq y eq' => ?_)
  cases a <;> cases b <;> simp_all [Item.inclusion?, Item.mark?, Item.span]

theorem mem_imports_iff {r : FoldingRange} : r ∈ imports t (Module.read uri t) ↔
    ∃ a b, r = ⟨a, b, .imports⟩ ∧ a < b ∧ Block (· ∈ (Module.read uri t).inclusionLines t) a b := by
  simp only [imports, List.mem_filterMap, Prod.exists]
  refine exists_congr fun a => exists_congr fun b => ?_
  have runs_ : (a, b) ∈ runs ((Module.read uri t).inclusionLines t) ↔ _ :=
    mem_runs_iff (pairwise_inclusionLines uri t)
  constructor
  · rintro ⟨mem, eq⟩
    split at eq
    next lt => exact ⟨(Option.some.inj eq).symm, lt, runs_.1 mem⟩
    next => simp at eq
  · rintro ⟨rfl, lt, block⟩
    exact ⟨runs_.2 block, if_pos lt⟩

theorem eq_of_mem_sectionLines? {r : FoldingRange} (mem : r ∈ sectionLines? t h stop) :
    r = ⟨t.lineAt h.span.start, t.lineAt (sectionEnd t h stop), .section⟩ ∧
      t.lineAt h.span.start < t.lineAt (sectionEnd t h stop) := by
  unfold sectionLines? at mem
  split at mem
  next lt => exact ⟨(Option.some.inj mem).symm, lt⟩
  next => simp at mem

theorem exists_of_mem_sections
    {r : FoldingRange} (mem : r ∈ foldable t t.length (Module.read uri t).items) :
    ∃ h e, EndsAt t (Module.read uri t).items h e ∧
    r = ⟨t.lineAt h.span.start, t.lineAt e, .section⟩ ∧
      t.lineAt h.span.start < t.lineAt e := by
  obtain ⟨front, h, behind, split, own⟩ := exists_of_mem_foldable mem
  exact ⟨h, _, endsAt_sectionEnd split, eq_of_mem_sectionLines? own⟩

theorem pairwise_foldable
    (sorted : items.Pairwise fun a b => b.mark? = none → t.lineAt a.span.start <
      t.lineAt b.span.start) :
    (foldable t stop items).Pairwise fun r r' => r.startLine < r'.startLine := by
  induction items using headings_induction with
  | nil => exact .nil
  | plain i behind plain ih =>
    rw [foldable_cons plain]
    exact ih (List.pairwise_cons.1 sorted).2
  | heading h behind ih =>
    obtain ⟨later, others⟩ := List.pairwise_cons.1 sorted
    refine List.pairwise_append.2
      ⟨by cases sectionLines? t h _ <;> simp, ih others, fun r own r' other => ?_⟩
    obtain ⟨front, h', rest, rfl, own'⟩ := exists_of_mem_foldable other
    rw [(eq_of_mem_sectionLines? (Option.mem_toList.1 own)).1, (eq_of_mem_sectionLines? own').1]
    exact later (.heading h') (by simp) rfl

theorem pairwise_imports (uri : Uri) (t : Text) :
    (imports t (Module.read uri t)).Pairwise fun r r' => r.startLine < r'.startLine := by
  have apart : (runs ((Module.read uri t).inclusionLines t)).Pairwise _ :=
    pairwise_runs (pairwise_inclusionLines uri t)
  refine List.pairwise_filterMap.2 (apart.imp fun {r r'} before x eq y eq' => ?_)
  split at eq
  next lt =>
    split at eq'
    next =>
      obtain rfl := Option.some.inj eq
      obtain rfl := Option.some.inj eq'
      exact Int.lt_trans lt before
    next => simp at eq'
  next => simp at eq

/-- No two ranges begin on the same line. -/
theorem pairwise_start_ne (uri : Uri) (t : Text) :
    (foldable t t.length (Module.read uri t).items ++ imports t (Module.read uri t)).Pairwise
      fun r r' => r.startLine ≠ r'.startLine := by
  refine List.pairwise_append.2
    ⟨(pairwise_foldable (Module.pairwise_line_lt uri t)).imp Int.ne_of_lt,
    (pairwise_imports uri t).imp Int.ne_of_lt, fun r sect r' block => ?_⟩
  obtain ⟨h, e, ends, rfl, -⟩ := exists_of_mem_sections sect
  obtain ⟨a, b, rfl, -, block⟩ := mem_imports_iff.1 block
  exact fun (same : t.lineAt h.span.start = a) =>
    heading_line_ne ends.mem (same ▸ block.all a (Int.le_refl _) block.le)

theorem le_iff {r r' : FoldingRange} :
    le r r' ↔ r.startLine < r'.startLine ∨ r.startLine = r'.startLine ∧ r'.endLine ≤ r.endLine := by
  unfold le
  split <;> simp <;> omega

theorem folds_ranges (uri : Uri) (t : Text) : Folds t ((Module.read uri t).inclusionLines t)
    (ranges t (some (Module.read uri t)) (Outline.ofModule t (Module.read uri t))) := by
  have perm : (ranges t (some (Module.read uri t)) (Outline.ofModule t (Module.read uri t))).Perm
      (foldable t t.length (Module.read uri t).items ++ imports t (Module.read uri t)) := by
    rw [← sections_eq (Outline.outlined_ofModule t (Module.read uri t))]
    exact sortBy_perm _ _
  have folded : ∀ r ∈ ranges t (some (Module.read uri t)) (Outline.ofModule t (Module.read uri t)),
      Folded uri t r := by
    intro r mem
    rcases List.mem_append.1 (perm.mem_iff.1 mem) with sect | block
    · obtain ⟨h, e, ends, rfl, lt⟩ := exists_of_mem_sections sect
      exact .heading ends lt
    · obtain ⟨a, b, rfl, lt, block⟩ := mem_imports_iff.1 block
      exact .inclusions block lt
  refine ⟨fun r mem => (folded r mem).inside,
    fun r mem r' mem' => (folded r mem).laminar (folded r' mem'), ?_, ?_, fun a b => ?_⟩
  · refine (pairwise_sortBy _ (fun a b c h h' => ?_) (fun a b => ?_) _).imp le_iff.1
    · simp only [le_iff] at *
      omega
    · simp only [Bool.or_eq_true, le_iff]
      omega
  · have apart := (perm.pairwise_iff fun {r r'} (ne : r.startLine ≠ r'.startLine) => ne.symm).2
      (pairwise_start_ne uri t)
    exact apart.imp fun ne eq => ne (congrArg _ eq)
  · rw [perm.mem_iff, List.mem_append, mem_imports_iff]
    constructor
    · rintro (sect | ⟨a, b, eq, lt, block⟩)
      · obtain ⟨h, e, -, eq, -⟩ := exists_of_mem_sections sect
        cases eq
      · cases eq
        exact ⟨lt, block⟩
    · exact fun ⟨lt, block⟩ => .inr ⟨a, b, rfl, lt, block⟩

/-- The answer is what can be folded in the entry. -/
theorem answer_foldingRanges (s : Snapshot) (uri : Uri) (doc : SnapshotDocument) (filed : s.Filed)
    (entry : s.entryDocument? = some doc) : ∃ ranges,
    Flow.Yields (.computed .quill) (Question.foldingRanges.answer s uri)
      (.ok (.foldingRanges ranges)) ∧
      Folds doc.text ((Module.read doc.uri doc.text).inclusionLines doc.text) ranges := by
  refine ⟨_, ?_, folds_ranges doc.uri doc.text⟩
  have own : s.document? doc.uri = some doc := by
    obtain ⟨uri', -, found⟩ := Option.bind_eq_some_iff.1 entry
    rwa [filed.uri_eq found]
  refine Flow.Yields.bind (Outline.yields_documentSymbols filed entry uri).call ?_
  refine Flow.Yields.bind (Flow.yields_entry entry _) ?_
  exact (Flow.yields_parse own).call.bind (Flow.yields_done _ _)

theorem answer_foldingRanges_apart :
    let doc : SnapshotDocument :=
      ⟨"/ws/main.quill", "= A\n#include \"a\"\n#include \"b\"\n== B\n#include \"c\"\n\n= C",
        1, "", .memory⟩
    let s : Snapshot := ⟨.file doc.uri, [(doc.uri, doc)], [], .default, ""⟩
    s.Filed ∧ s.entryDocument? = some doc ∧ ∃ ranges,
      Flow.Yields (.computed .quill) (Question.foldingRanges.answer s doc.uri)
        (.ok (.foldingRanges ranges)) ∧
        Folds doc.text ((Module.read doc.uri doc.text).inclusionLines doc.text) ranges := by
  intro doc s
  have filed : s.Filed := ⟨by decide, by decide⟩
  have entry : s.entryDocument? = some doc := by decide
  exact ⟨filed, entry, answer_foldingRanges s doc.uri doc filed entry⟩

end Folding

end Quill
