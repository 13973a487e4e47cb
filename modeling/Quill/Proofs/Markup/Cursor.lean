import Mathlib.Data.List.Induction
import Quill.Proofs.Markup.Rows

/-!
# What a cursor selects

A cursor selects the first of the shortest items that it touches. A label, reference or use in the
title of a heading is not longer than the title, and so it is selected in place of the heading,
unless it is the whole title: then both are equally long, and the heading stands in front.

## Main definitions

* `Cursor.Selects` — the first of the shortest items that a cursor touches.

## Main statements

* `Cursor.exists_selects` — what a cursor selects when it touches anything.
* `Cursor.find?_mark` — under a cursor that touches a label, reference or use, a heading is selected
  just when its title is that item.
-/

namespace Quill

open List (Sublist)

variable {t : Text} {lo hi o : Int} {uri : Uri} {items : List Item} {i j : Item} {h : Heading}

/-- A span that is not shorter than the one around it is that one. -/
theorem Span.Inside.eq_of_length_le {a b : Span} (inside : a.Inside b.start b.stop)
    (le : b.length ≤ a.length) :
    b = a := by
  have := inside.start
  have := inside.stop
  cases a
  cases b
  simp only [length, mk.injEq] at *
  omega

namespace Cursor

/-- Of the items that a cursor at `o` touches, `j` is the first of the shortest. -/
def Selects (items : List Item) (o : Int) (j : Item) : Prop :=
  ∃ front behind, items = front ++ j :: behind ∧ j.hitSpan.touches o ∧
    (∀ i ∈ front, i.hitSpan.touches o → j.hitSpan.length < i.hitSpan.length) ∧
    ∀ i ∈ behind, i.hitSpan.touches o → j.hitSpan.length ≤ i.hitSpan.length

/-- Going through items keeps the first of the shortest. -/
theorem exists_foldl_better (e : Item × Nat) (es : List (Item × Nat)) : ∃ front behind,
    e :: es = front ++ es.foldl better e :: behind ∧
      (∀ a ∈ front, (es.foldl better e).1.hitSpan.length < a.1.hitSpan.length) ∧
      ∀ b ∈ behind, (es.foldl better e).1.hitSpan.length ≤ b.1.hitSpan.length := by
  induction es using List.reverseRecOn with
  | nil => exact ⟨[], [], by simp⟩
  | append_singleton es e' ih =>
    obtain ⟨front, behind, eq, shorter, least⟩ := ih
    rw [List.foldl_append, List.foldl_cons, List.foldl_nil, ← List.cons_append, eq]
    generalize es.foldl better e = best at shorter least ⊢
    by_cases better_ : e'.1.hitSpan.length < best.1.hitSpan.length
    · refine ⟨front ++ best :: behind, [], by simp [better, better_], ?_, by simp⟩
      simp only [better, if_pos better_, List.forall_mem_append, List.forall_mem_cons]
      exact ⟨fun a mem => Int.lt_trans better_ (shorter a mem), better_,
        fun b mem => Int.lt_of_lt_of_le better_ (least b mem)⟩
    · refine ⟨front, behind ++ [e'], by simp [better, better_], ?_⟩
      simp only [better, if_neg better_, List.forall_mem_append, List.forall_mem_singleton]
      exact ⟨shorter, least, Int.not_lt.1 better_⟩

theorem exists_selects {m : Module} (mem : i ∈ m.items) (touches : i.hitSpan.touches o) :
    ∃ j, find? m o = some j ∧ Selects m.items o j := by
  obtain ⟨n, at_⟩ : ∃ n, (i, n) ∈ m.items.zipIdx := by
    obtain ⟨n, lt, rfl⟩ := List.mem_iff_getElem.1 mem
    exact ⟨n, List.mk_mem_zipIdx_iff_getElem?.2 (List.getElem?_eq_getElem lt)⟩
  have found : (i, n) ∈ m.items.zipIdx.filter fun e => e.1.hitSpan.touches o :=
    List.mem_filter.2 ⟨at_, touches⟩
  obtain ⟨e, es, touched⟩ := List.exists_cons_of_ne_nil (List.ne_nil_of_mem found)
  obtain ⟨front, behind, eq, shorter, least⟩ := exists_foldl_better e es
  refine ⟨_, by rw [find?, locate?, touched]; rfl, ?_⟩
  generalize es.foldl better e = best at eq shorter least
  obtain ⟨before, rest, whole, rfl, other⟩ := List.filter_eq_append_iff.1 (touched.trans eq)
  obtain ⟨missed, after, rfl, none_, own, rfl⟩ := List.filter_eq_cons_iff.1 other
  have split : m.items = (before ++ missed).map Prod.fst ++ best.1 :: after.map Prod.fst := by
    rw [← List.zipIdx_map_fst 0 m.items, whole]
    simp
  refine ⟨_, _, split, own, fun i mem touches => ?_, fun i mem touches => ?_⟩
  · obtain ⟨a, inFront, rfl⟩ := List.mem_map.1 mem
    rcases List.mem_append.1 inFront with inside | missed
    · exact shorter a (List.mem_filter.2 ⟨inside, touches⟩)
    · exact absurd touches (none_ a missed)
  · obtain ⟨b, inside, rfl⟩ := List.mem_map.1 mem
    exact least b (List.mem_filter.2 ⟨inside, touches⟩)

theorem Selects.length_le (selects : Selects items o j) (mem : i ∈ items)
    (touches : i.hitSpan.touches o) :
    j.hitSpan.length ≤ i.hitSpan.length := by
  obtain ⟨front, behind, rfl, -, shorter, least⟩ := selects
  rcases List.mem_append.1 mem with inFront | rest
  · exact Int.le_of_lt (shorter i inFront touches)
  · rcases List.mem_cons.1 rest with rfl | inBehind
    · exact Int.le_refl _
    · exact least i inBehind touches

theorem Selects.mem (selects : Selects items o j) : j ∈ items := by
  obtain ⟨front, behind, rfl, -⟩ := selects
  simp

theorem Selects.touches (selects : Selects items o j) : j.hitSpan.touches o := by
  obtain ⟨_, _, -, touches, -⟩ := selects
  exact touches

/-- What is selected in place of a heading is shorter than its title: no heading is behind an item
that is under the same cursor. -/
theorem Selects.length_lt (selects : Selects items o j) (sorted : items.Pairwise Row.Precedes)
    (mem : .heading h ∈ items) (titled : (Item.heading h).span.start ≤ h.titleSpan.start)
    (touches : h.titleSpan.touches o) (other : j.heading? = none) :
    j.hitSpan.length < h.titleSpan.length := by
  obtain ⟨front, behind, rfl, own, shorter, -⟩ := selects
  rcases List.mem_append.1 mem with inFront | rest
  · exact shorter _ inFront touches
  · rcases List.mem_cons.1 rest with rfl | inBehind
    · simp [Item.heading?] at other
    · have later := List.rel_of_pairwise_cons (List.pairwise_append.1 sorted).2.1 inBehind
      have := (later.heading rfl).2
      have := Span.touches_iff.1 own
      have := Span.touches_iff.1 touches
      omega

end Cursor

/-! ## The items around a mark -/

namespace Row

variable {row : List Item}

theorem Marks.eq_or_apart (found : Marks t lo hi items) (mem : i ∈ items) (mem' : j ∈ items) :
    i = j ∨ i.span.stop ≤ j.span.start ∨ j.span.stop ≤ i.span.start := by
  let Apart (a b : Item) : Prop := a.span.stop ≤ b.span.start ∨ b.span.stop ≤ a.span.start
  have : Std.Symm Apart := ⟨fun _ _ => Or.symm⟩
  have apart : items.Pairwise Apart := found.apart.imp .inl
  exact or_iff_not_imp_left.2 (apart.forall mem mem')

/-- Nothing but a heading or a binding is on a line with a mark that is none itself. The title of
the heading is around the mark, the name of the binding is in front of it. -/
theorem around_mark (of_line : Row t lo hi row) (mem : i ∈ row) (mark : i.mark?.isSome) :
    ∃ lo hi marks, Marks t lo hi marks ∧ i ∈ marks ∧ (row = marks ∨
      (∃ h, row = .heading h :: marks ∧ h.titleSpan = ⟨lo, hi⟩ ∧ h.span.start ≤ h.titleSpan.start) ∨
      ∃ b, row = .binding b :: marks ∧ b.nameSpan.stop < lo) := by
  cases of_line with
  | marks found => exact ⟨_, _, _, found, mem, .inl rfl⟩
  | inclusion inside =>
    obtain rfl := List.mem_singleton.1 mem
    simp [Item.mark?] at mark
  | heading placed found =>
    have own : i ∈ _ :=
      (List.mem_cons.1 mem).resolve_left (by rintro rfl; simp [Item.mark?] at mark)
    have := placed.title.start
    exact ⟨_, _, _, found, own, .inr (.inl ⟨_, rfl, rfl, by omega⟩)⟩
  | binding placed found =>
    have own : i ∈ _ :=
      (List.mem_cons.1 mem).resolve_left (by rintro rfl; simp [Item.mark?] at mark)
    have := placed.name.stop
    exact ⟨_, _, _, found, own, .inr (.inr ⟨_, rfl, by omega⟩)⟩

end Row

namespace Cursor

theorem heading?_of_mark? (mark : j.mark?.isSome) : j.heading? = none := by
  cases j <;> simp_all [Item.mark?, Item.heading?]

theorem Selects.titleSpan_eq (selects : Selects items o (.heading h)) (mem : i ∈ items)
    (mark : i.mark?.isSome)
    (touches : i.hitSpan.touches o) (inside : i.span.Inside h.titleSpan.start h.titleSpan.stop) :
    h.titleSpan = i.span :=
  inside.eq_of_length_le (Item.hitSpan_of_mark? mark ▸ selects.length_le mem touches)

theorem eq_of_titleSpan_eq (found : Row.Marks t h.titleSpan.start h.titleSpan.stop items)
    (mem : i ∈ items) (mem' : j ∈ items) (eq : h.titleSpan = i.span) : i = j := by
  refine (found.eq_or_apart mem mem').resolve_right fun apart => ?_
  have := Item.start_lt_stop_of_mark? (found.marks j mem') (found.written j mem')
  have inside := found.inside j mem'
  have := inside.start
  have := inside.stop
  rw [eq] at *
  omega

/-- A cursor that touches a label, a reference or a use selects such an item, and not the heading
around it, unless one of them is all of the title. -/
theorem find?_mark (mem : i ∈ (Module.read uri t).items) (mark : i.mark?.isSome)
    (touches : i.span.touches o) :
    ∃ j, find? (Module.read uri t) o = some j ∧ j.hitSpan.touches o ∧
      (j.heading? = none ↔ ∀ h, .heading h ∈ (Module.read uri t).items → h.titleSpan ≠ i.span) ∧
      (j.heading? = none → j.mark?.isSome) := by
  have hit := Item.hitSpan_of_mark? mark
  rw [← hit] at touches
  obtain ⟨j, selected, selects⟩ := exists_selects mem touches
  refine ⟨j, selected, selects.touches, ?_⟩
  obtain ⟨l, -, row, of_line, touched⟩ := Module.exists_row_of_touches mem touches
  -- a heading with the item as its title is on the line of the item
  have titled {h} (inside : .heading h ∈ (Module.read uri t).items) (eq : h.titleSpan = i.span) :
      .heading h ∈ row := touched _ inside (by rwa [Item.hitSpan, eq, ← hit])
  obtain ⟨lo, hi, marks, found, own, shape⟩ := of_line.around_mark (touched i mem touches) mark
  have selected_ := touched j selects.mem selects.touches
  have untitled {h} : .heading h ∉ marks := found.not_mem rfl
  have plain (other : j ∈ marks) : j.heading? = none ∧ j.mark?.isSome :=
    ⟨heading?_of_mark? (found.marks j other), found.marks j other⟩
  rcases shape with rfl | ⟨h, rfl, title, starts⟩ | ⟨b, rfl, named⟩
  · refine ⟨iff_of_true (plain selected_).1 fun h inside eq => ?_, fun _ => (plain selected_).2⟩
    exact untitled (titled inside eq)
  · have found : Row.Marks t h.titleSpan.start h.titleSpan.stop marks := by rwa [title]
    rcases List.mem_cons.1 selected_ with rfl | other
    · have eq := selects.titleSpan_eq mem mark touches (found.inside i own)
      exact ⟨iff_of_false (by simp [Item.heading?]) fun all => all h selects.mem
        eq, by simp [Item.heading?]⟩
    · refine ⟨iff_of_true (plain other).1 fun h' inside eq => ?_, fun _ => (plain other).2⟩
      obtain ⟨⟩ := (List.mem_cons.1 (titled inside eq)).resolve_right untitled
      have lt := selects.length_lt (Module.pairwise_items uri t) inside starts (by rwa [eq, ← hit])
          (plain other).1
      rw [← eq_of_titleSpan_eq found own other eq, hit, eq] at lt
      exact Int.lt_irrefl _ lt
  · have other : j ∈ marks := by
      refine (List.mem_cons.1 selected_).resolve_left ?_
      rintro rfl
      have : o ≤ b.nameSpan.stop := (Span.touches_iff.1 selects.touches).2
      have := (Span.touches_iff.1 (hit ▸ touches)).1
      have := (found.inside i own).start
      omega
    refine ⟨iff_of_true (plain other).1 fun h inside eq => ?_, fun _ => (plain other).2⟩
    simpa using (List.mem_cons.1 (titled inside eq)).resolve_right untitled

theorem find?_mark_labelled :
    let m := Module.read "/a" "= T <x>"
    let x := Item.label ⟨"x", ⟨4, 7⟩, ⟨5, 6⟩⟩
    x ∈ m.items ∧ x.mark?.isSome ∧ x.span.touches 7 ∧ ∃ j, find? m 7 = some j ∧
    j.hitSpan.touches 7 ∧
      (j.heading? = none ↔ ∀ h, .heading h ∈ m.items → h.titleSpan ≠ x.span) ∧
      (j.heading? = none → j.mark?.isSome) := by
  intro m x
  have mem : x ∈ m.items := by decide
  exact ⟨mem, rfl, by decide, find?_mark mem rfl (by decide)⟩

/-- Of a heading and a label that is all of its title, the heading is selected. -/
theorem not_find?_mark : ¬ ∀ (uri : Uri) (t : Text) (o : Int), ∀ i ∈ (Module.read uri t).items,
    i.mark?.isSome → i.span.touches o → ∃ j, find? (Module.read uri t) o = some j ∧
    j.heading? = none := by
  intro wins
  obtain ⟨j, selected, other⟩ :=
    wins "/a" "= <x>" 3 (.label ⟨"x", ⟨2, 5⟩, ⟨3, 4⟩⟩) (by decide) rfl (by decide)
  have heading : find? (Module.read "/a" "= <x>") 3 =
      some (.heading ⟨1, [], ⟨0, 5⟩, ⟨2, 5⟩, some "x"⟩) := by decide
  rw [heading, Option.some.injEq] at selected
  subst selected
  simp [Item.heading?] at other

end Cursor

end Quill
