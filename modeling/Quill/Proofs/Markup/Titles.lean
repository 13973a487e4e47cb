import Quill.Proofs.Layout.Document
import Quill.Proofs.Markup.Leading

/-!
# The titles of headings

A heading is called what its title holds besides labels. The labels of a heading are found by a scan
of the title, and taken out of it by a look for names in angle brackets. The two differ for a
bracket behind a backslash: the scan finds no label there, and yet the name is taken out.

## Main definitions

* `Inline.hides`, `Inline.HidesLabel` — a name in angle brackets that is no label.
* `Inline.withoutMarks` — a text with a space in place of each of its marks.
* `Module.labelsIn` — the labels of a document in a place.
* `Module.properTitle`, `Module.HeadingAgrees` — a heading agrees with the labels in its title.

## Main statements

* `Inline.Lexed.compared` — a scanned text without its names in brackets, and without its labels.
* `LineRead.titled_readLine` — a line with a heading, and a line without one.
* `Module.headingAgrees_of_mem` — the headings of a document and the labels in their titles.
-/

namespace Quill

open Identifier (isValid)
open Inline (Lexed backslash labelName? scan withoutLabels beforeComment markAt)
open LineRead (content titled)
open Text (Blank)

variable {t rest name w x : Text} {u : UInt16} {m : Mark} {marks : List Mark} {d : Draft} {i : Item}
  {h : Heading} {s : Span} {o : Nat} {uri : Uri} {opened : List OpenSign} {before : Option UInt16}

/-! ## Hidden labels -/

namespace Inline

/-- Whether a unit behind the text is hidden: the text ends with an odd number of backslashes. -/
def hides (front : Text) : Bool := (front.reverse.takeWhile (· == backslash)).length % 2 == 1

/-- A name in angle brackets in the text whose opening bracket is hidden. -/
def HidesLabel (t : Text) : Prop :=
  ∃ front name behind, t = front ++ Text.unit '<' :: (name ++ Text.unit '>' :: behind) ∧
  isValid name ∧
    hides front

/-- Behind an even number of backslashes nothing is hidden that would not be without them. -/
theorem hides_append (even : (w.reverse.takeWhile (· == backslash)).length % 2 = 0) (front : Text) :
    hides (w ++ front) = hides front := by
  simp only [hides, List.reverse_append, List.takeWhile_append]
  split
  next whole =>
    rw [List.length_append, ← whole, Nat.add_mod, even, Nat.add_zero, Nat.mod_mod]
  next => rfl

theorem hides_cons (shows : u ≠ backslash) (front : Text) : hides (u :: front) = hides front :=
  hides_append (w := [u]) (by simp [shows]) front

/-- A backslash and the unit that it hides change nothing for what is behind them. -/
theorem hides_hidden (u : UInt16) (front : Text) :
    hides (backslash :: u :: front) = hides front := by
  refine hides_append (w := [backslash, u]) ?_ front
  by_cases shows : u = backslash <;> simp [shows]

@[simp] theorem hides_nil : hides [] = false := rfl

theorem hidesLabel_cons (shows : u ≠ backslash) : HidesLabel (u :: t) ↔ HidesLabel t := by
  constructor
  · rintro ⟨front, name, behind, eq, valid, hidden⟩
    cases front with
    | nil => simp at hidden
    | cons v front =>
      obtain ⟨rfl, rfl⟩ := List.cons.inj eq
      exact ⟨front, name, behind, rfl, valid, hides_cons shows front ▸ hidden⟩
  · rintro ⟨front, name, behind, rfl, valid, hidden⟩
    exact ⟨u :: front, name, behind, rfl, valid, (hides_cons shows front).trans hidden⟩

theorem hidesLabel_append (inside : ∀ u ∈ w, u ≠ backslash) :
    HidesLabel (w ++ t) ↔ HidesLabel t := by
  induction w with
  | nil => rfl
  | cons u w ih =>
    rw [List.cons_append, hidesLabel_cons (inside u (by simp)),
      ih fun v mem => inside v (by simp [mem])]

theorem hidesLabel_hidden : HidesLabel (backslash :: u :: t) ↔
    (u = Text.unit '<' ∧ ∃ name rest, isValid name ∧ t = name ++ Text.unit '>' :: rest) ∨
    HidesLabel t := by
  constructor
  · rintro ⟨front, name, behind, eq, valid, hidden⟩
    match front with
    | [] => simp at hidden
    | [v] =>
      obtain ⟨rfl, rfl⟩ := List.cons.inj (List.cons.inj eq).2
      exact .inl ⟨rfl, name, behind, valid, rfl⟩
    | v :: v' :: front =>
      simp only [List.cons_append, List.cons.injEq] at eq
      obtain ⟨rfl, rfl, rfl⟩ := eq
      exact .inr ⟨front, name, behind, rfl, valid, hides_hidden u front ▸ hidden⟩
  · rintro (⟨rfl, name, rest, valid, rfl⟩ | ⟨front, name, behind, rfl, valid, hidden⟩)
    · exact ⟨[backslash], name, rest, rfl, valid, by decide⟩
    · exact ⟨backslash :: u :: front, name, behind, rfl, valid, (hides_hidden u front).trans hidden⟩

theorem not_hidesLabel_nil : ¬ HidesLabel [] := by
  rintro ⟨front, name, behind, eq, -⟩
  simp at eq

theorem not_hidesLabel_last : ¬ HidesLabel [backslash] := by
  rintro ⟨front, name, behind, eq, -⟩
  have length := congrArg List.length eq
  simp only [List.length_append, List.length_cons, List.length_nil] at length
  omega

/-! ## Texts without comments -/

/-- No comment begins in the text, whatever is behind it. -/
def Quiet (t : Text) : Prop := ∃ rest more, beforeComment 0 (t ++ rest) = t ++ more

namespace Quiet

theorem of_hidden (quiet : Quiet (backslash :: u :: t)) : Quiet t := by
  obtain ⟨rest, more, eq⟩ := quiet
  rw [List.cons_append, List.cons_append, beforeComment_hidden] at eq
  exact ⟨rest, more, (List.cons.inj (List.cons.inj eq).2).2⟩

theorem of_append (inside : ∀ u ∈ w, u ≠ backslash ∧ u ≠ Posix.slash) (quiet : Quiet (w ++ t)) :
    Quiet t := by
  obtain ⟨rest, more, eq⟩ := quiet
  rw [List.append_assoc, List.append_assoc, beforeComment_append inside] at eq
  exact ⟨rest, more, List.append_cancel_left eq⟩

theorem of_cons (shows : u ≠ backslash) (quiet : Quiet (u :: t)) :
    startsComment u t = false ∧ Quiet t := by
  obtain ⟨rest, more, eq⟩ := quiet
  rw [List.cons_append, beforeComment_plain shows] at eq
  split at eq
  next => simp at eq
  next starts =>
    refine ⟨Bool.eq_false_iff.2 fun own => starts ?_, rest, more, (List.cons.inj eq).2⟩
    obtain ⟨rfl, first⟩ : u = Posix.slash ∧ t.head? = some Posix.slash := by
      simpa [startsComment] using own
    simp [startsComment, List.head?_append, first]

theorem content (x : Text) : Quiet (content x) := by
  obtain ⟨comment, eq⟩ := LineRead.prefix_beforeComment 0 x
  obtain ⟨gap, gap_eq, -⟩ := Text.exists_trimEnd_append (beforeComment 0 x)
  have whole : LineRead.content x ++ (gap ++ comment) = x := by
    rw [← List.append_assoc, LineRead.content, ← gap_eq, eq]
  exact ⟨gap ++ comment, gap, by rw [whole]; exact gap_eq⟩

end Quiet

/-! ## Marks made spaces -/

/-- The text that stands at `o`, with a space in place of each of the marks. -/
def withoutMarks (o : Int) : List Mark → Text → Text
  | [], t => t
  | m :: marks, t =>
    t.take (m.span.start - o).toNat ++
      Text.unit ' ' :: withoutMarks m.span.stop marks (t.drop (m.span.stop - o).toNat)

theorem withoutMarks_append
    (behind : ∀ m ∈ marks, (o + w.length : Nat) ≤ m.span.start ∧ m.span.start ≤ m.span.stop)
    (t : Text) :
    withoutMarks o marks (w ++ t) = w ++ withoutMarks (o + w.length : Nat) marks t := by
  cases marks with
  | nil => rfl
  | cons m marks =>
    obtain ⟨start, ordered⟩ := behind m (by simp)
    have start_eq : (m.span.start - o).toNat = w.length +
        (m.span.start - (o + w.length : Nat)).toNat := by omega
    have stop_eq : (m.span.stop - o).toNat = w.length +
        (m.span.stop - (o + w.length : Nat)).toNat := by omega
    rw [withoutMarks, start_eq, stop_eq, List.take_length_add_append, List.drop_length_add_append,
      withoutMarks, List.append_assoc]

theorem withoutMarks_label (name rest : Text) (marks : List Mark) :
    withoutMarks o (markAt o name 1 :: marks) (Text.unit '<' :: (name ++ Text.unit '>' :: rest)) =
      Text.unit ' ' :: withoutMarks (o + (1 + name.length + 1) : Nat) marks rest := by
  have start : ((markAt o name 1).span.start - o).toNat = 0 := by simp [span_markAt]
  have stop : ((markAt o name 1).span.stop - o).toNat =
      (Text.unit '<' :: (name ++ [Text.unit '>'])).length := by
    simp only [span_markAt, List.length_cons, List.length_append, List.length_nil]
    omega
  have cut : Text.unit '<' :: (name ++ Text.unit '>' :: rest) =
      (Text.unit '<' :: (name ++ [Text.unit '>'])) ++ rest := by simp
  rw [withoutMarks, start, stop, cut, List.drop_left, List.take_zero, List.nil_append, span_markAt]

def labels (r : Inline) : List Mark := r.items.filterMap Item.label?

theorem inside_of_mem_scan (mem : i ∈ (scan 0 o before opened t).items) :
    i.span.Inside o (o + t.length : Nat) := by
  have stands : (List.replicate o 0 ++ t : Text).StandsAt o t :=
    ⟨List.replicate o 0, [], by simp, by simp⟩
  exact (placed_scan stands (Int.le_refl _) before opened).inside i mem

theorem mem_filterMap_label?_iff {items : List Item} :
    m ∈ items.filterMap Item.label? ↔ .label m ∈ items := by
  rw [List.mem_filterMap]
  constructor
  · rintro ⟨i, mem, eq⟩
    cases i <;> simp_all [Item.label?]
  · exact fun mem => ⟨_, mem, rfl⟩

theorem inside_of_mem_labels (mem : m ∈ labels (scan 0 o before opened t)) :
    m.span.Inside o (o + t.length : Nat) :=
  inside_of_mem_scan (mem_filterMap_label?_iff.1 mem)

/-! ## Labels and names in brackets -/

/-- A text `t`, without its names in brackets and without its labels. -/
structure Compared (t bare proper : Text) : Prop where
  same : ¬ HidesLabel t → bare = proper
  fewer : bare.count (Text.unit '<') ≤ proper.count (Text.unit '<')
  hidden : HidesLabel t → bare.count (Text.unit '<') < proper.count (Text.unit '<')
  blank : Blank bare ↔ Blank proper

namespace Compared

variable {bare proper : Text}

theorem nil : Compared [] [] [] :=
  ⟨fun _ => rfl, Nat.le_refl _, fun hidden => absurd hidden not_hidesLabel_nil, Iff.rfl⟩

/-- The same words in front of both, while what is in front of the text hides nothing in it. -/
theorem append (compared : Compared t bare proper)
    {v : Text} (same : HidesLabel (w ++ t) ↔ HidesLabel t) :
    Compared (w ++ t) (v ++ bare) (v ++ proper) where
  same none_ := congrArg (v ++ ·) (compared.same (mt same.2 none_))
  fewer := by simpa using compared.fewer
  hidden some_ := by simpa using compared.hidden (same.1 some_)
  blank := by simp [compared.blank]

end Compared

theorem withoutLabels_append (inside : ∀ u ∈ w, u ≠ Text.unit '<') (t : Text) :
    withoutLabels 0 (w ++ t) = w ++ withoutLabels 0 t := by
  induction w with
  | nil => rfl
  | cons u w ih =>
    rw [List.cons_append, withoutLabels_cons (.inl (inside u (by simp))),
      ih fun v mem => inside v (by simp [mem]), List.cons_append]

theorem not_bracket_of_isValid (valid : isValid name) : ∀ u ∈ name, u ≠ Text.unit '<' := by
  rintro u mem rfl
  exact absurd (Identifier.isPart_of_isValid valid _ mem) (by decide)

/-- The labels behind a text that a scan has passed are behind its end. -/
theorem withoutMarks_scan (w : Text) (o : Nat) (before : Option UInt16) (opened : List OpenSign)
    (t : Text) :
    withoutMarks o (labels (scan 0 (o + w.length) before opened t)) (w ++ t) =
      w ++ withoutMarks (o + w.length : Nat) (labels (scan 0 (o + w.length) before opened t)) t :=
  withoutMarks_append
    (fun _ mem => ⟨(inside_of_mem_labels mem).start, (inside_of_mem_labels mem).ordered⟩) t

/-- A mark without a closing bracket, and a directive, are words that stay. -/
theorem Compared.mark {sign : UInt16} (is : sign = Text.unit '@' ∨ sign = Text.unit '#')
    (valid : isValid name) (compared : Compared t (withoutLabels 0 t)
      (withoutMarks (o + (1 + name.length) : Nat)
        (labels (scan 0 (o + (1 + name.length)) before opened t)) t)) :
    Compared (sign :: (name ++ t)) (withoutLabels 0 (sign :: (name ++ t)))
      (withoutMarks o (labels (scan 0 (o + (1 + name.length)) before opened t))
        (sign :: (name ++ t))) := by
  have other : sign ≠ Text.unit '<' ∧ sign ≠ backslash ∧ sign ≠ Posix.slash := by
    rcases is with rfl | rfl <;> decide
  have inside : ∀ u ∈ sign :: name, u ≠ Text.unit '<' :=
    List.forall_mem_cons.2 ⟨other.1, not_bracket_of_isValid valid⟩
  have shows : ∀ u ∈ sign :: name, u ≠ backslash := fun u mem => (inside_sign other.2 valid u mem).1
  have length : (sign :: name).length = 1 + name.length := Nat.add_comm ..
  have marks := withoutMarks_scan (sign :: name) o before opened t
  rw [length, List.cons_append] at marks
  rw [marks, ← List.cons_append, withoutLabels_append inside]
  exact compared.append (hidesLabel_append shows)

theorem Compared.label (valid : isValid name)
    (compared : Compared t (withoutLabels 0 t)
      (withoutMarks (o + (1 + name.length + 1) : Nat) marks t)) :
    Compared (Text.unit '<' :: (name ++ Text.unit '>' :: t))
      (withoutLabels 0 (Text.unit '<' :: (name ++ Text.unit '>' :: t)))
      (withoutMarks o (markAt o name 1 :: marks)
        (Text.unit '<' :: (name ++ Text.unit '>' :: t))) := by
  have shows : ∀ u ∈ Text.unit '<' :: (name ++ [Text.unit '>']), u ≠ backslash := fun u mem =>
    (inside_label valid u mem).1
  have cut : Text.unit '<' :: (name ++ Text.unit '>' :: t) =
      (Text.unit '<' :: (name ++ [Text.unit '>'])) ++ t := by
    simp
  rw [withoutLabels_label valid, withoutMarks_label, cut]
  exact compared.append (v := [Text.unit ' ']) (hidesLabel_append shows)

theorem Compared.hidden_unit (u : UInt16)
    (compared : Compared t (withoutLabels 0 t)
      (withoutMarks (o + 2 : Nat) (labels (scan 0 (o + 2) before opened t)) t)) :
    Compared (backslash :: u :: t) (withoutLabels 0 (backslash :: u :: t))
      (withoutMarks o (labels (scan 0 (o + 2) before opened t)) (backslash :: u :: t)) := by
  have marks := withoutMarks_scan [backslash, u] o before opened t
  simp only [List.cons_append, List.nil_append, List.length_cons, List.length_nil] at marks
  rw [marks, withoutLabels_cons (.inl (by decide))]
  by_cases label : u = Text.unit '<' ∧ ∃ name rest, isValid name ∧ t = name ++ Text.unit '>' :: rest
  · -- the name is taken out of one text and stays in the other
    have hidden : HidesLabel (backslash :: u :: t) := hidesLabel_hidden.2 (.inl label)
    obtain ⟨rfl, name, rest, valid, rfl⟩ := label
    have inner : withoutLabels 0 (name ++ Text.unit '>' :: rest) = name ++ Text.unit '>' ::
        withoutLabels 0 rest := by
      rw [withoutLabels_append (not_bracket_of_isValid valid),
        withoutLabels_cons (.inl (by decide))]
    have fewer := compared.fewer
    rw [inner, List.count_append, List.count_cons] at fewer
    have lt :
        (backslash :: withoutLabels 0 (Text.unit '<' :: (name ++ Text.unit '>' :: rest))).count
        (Text.unit '<') < (backslash :: Text.unit '<' :: withoutMarks (o + 2 : Nat)
          (labels (scan 0 (o + 2) before opened (name ++ Text.unit '>' :: rest)))
          (name ++ Text.unit '>' :: rest)).count (Text.unit '<') := by
      have space : Text.unit ' ' ≠ Text.unit '<' := by decide
      have sign : backslash ≠ Text.unit '<' := by decide
      rw [withoutLabels_label valid, List.count_cons_of_ne sign, List.count_cons_of_ne space,
        List.count_cons_of_ne sign, List.count_cons_self]
      omega
    have seen : Text.isBlank backslash = false := by decide
    exact ⟨fun none_ => absurd hidden none_, Nat.le_of_lt lt, fun _ => lt, by simp [seen]⟩
  · have stays : withoutLabels 0 (u :: t) = u :: withoutLabels 0 t := by
      refine withoutLabels_cons ((em (u = Text.unit '<')).symm.imp_right fun bracket => ?_)
      refine Option.eq_none_iff_forall_ne_some.2 fun name found => label ⟨bracket, name, ?_⟩
      obtain ⟨valid, rest, eq⟩ := labelName?_eq_some_iff.1 found
      exact ⟨rest, valid, eq⟩
    rw [stays]
    exact compared.append (w := [backslash, u]) (v := [backslash, u])
      (hidesLabel_hidden.trans (or_iff_right label))

/-- A scanned text without its names in brackets, and without its labels. They differ where a name
in brackets is hidden. -/
theorem Lexed.compared (lexed : Lexed d) (quiet : Quiet d.text) (o : Nat) (before : Option UInt16)
    (opened : List OpenSign) : Compared d.text (withoutLabels 0 d.text)
      (withoutMarks o (labels (scan 0 o before opened d.text)) d.text) := by
  induction lexed generalizing o before opened with
  | nil => exact .nil
  | last =>
    exact Compared.nil.append (w := [backslash]) (v := [backslash])
      (iff_of_false not_hidesLabel_last not_hidesLabel_nil)
  | @comment u t starts =>
    obtain ⟨rfl, -⟩ : u = Posix.slash ∧ t.head? = some Posix.slash := by
      simpa [startsComment] using starts
    rw [Draft.text_units] at quiet
    exact absurd starts (by simp [(quiet.of_cons (by decide)).1])
  | @hidden u d lexed ih => exact .hidden_unit u (ih quiet.of_hidden (o + 2) (some u) opened)
  | @label name d valid lexed ih =>
    simp only [Draft.text_unit_cons, Draft.text_name_cons] at quiet ⊢
    have behind : Quiet d.text := .of_append (inside_label valid) (by simpa using quiet)
    rw [scan_label valid]
    exact .label valid (ih behind _ _ opened)
  | @reference name d valid ends lexed ih =>
    have sign : Text.unit '@' ≠ backslash ∧ Text.unit '@' ≠ Posix.slash := by decide
    have behind : Quiet d.text := .of_append (inside_sign sign valid) quiet
    simp only [Draft.text_unit_cons, Draft.text_name_cons, scan_mark (.inl rfl) valid ends, if_true]
    exact .mark (.inl rfl) valid (ih behind _ _ opened)
  | @use name d valid free ends lexed ih =>
    have sign : Text.unit '#' ≠ backslash ∧ Text.unit '#' ≠ Posix.slash := by decide
    have other : Text.unit '#' ≠ Text.unit '@' := by decide
    have behind : Quiet d.text := .of_append (inside_sign sign valid) quiet
    simp only [Draft.text_unit_cons, Draft.text_name_cons, scan_mark (.inr rfl) valid ends,
      if_neg other, free, Bool.false_eq_true, if_false]
    exact .mark (.inr rfl) valid (ih behind _ _ opened)
  | @reserved name d valid reserved ends lexed ih =>
    have sign : Text.unit '#' ≠ backslash ∧ Text.unit '#' ≠ Posix.slash := by decide
    have other : Text.unit '#' ≠ Text.unit '@' := by decide
    simp only [Draft.text_unit_cons, Draft.text_append, Draft.text_units] at quiet ⊢
    have behind : Quiet d.text := .of_append (inside_sign sign valid) quiet
    rw [scan_mark (.inr rfl) valid ends, if_neg other, if_pos reserved]
    exact .mark (.inr rfl) valid (ih behind _ _ opened)
  | @plain u d plain lexed ih =>
    rw [Draft.text_unit_cons] at quiet ⊢
    have none_ : u ≠ Text.unit '<' ∨ labelName? d.text = none :=
      (em (u = Text.unit '<')).symm.imp_right plain.label
    have step (opened' : List OpenSign) : Compared (u :: d.text) (withoutLabels 0 (u :: d.text))
        (withoutMarks o (labels (scan 0 (o + 1) (some u) opened' d.text)) (u :: d.text)) := by
      have marks := withoutMarks_scan [u] o (some u) opened' d.text
      simp only [List.cons_append, List.nil_append, List.length_cons, List.length_nil,
        Nat.zero_add] at marks
      rw [marks, withoutLabels_cons none_]
      exact (ih (quiet.of_cons plain.shows).2 (o + 1) (some u) opened').append (w := [u]) (v := [u])
        (hidesLabel_cons plain.shows)
    rw [scan_plain plain]
    split
    next e _ => exact step (toggle opened e o)
    next => exact step opened

end Inline

/-! ## Titles -/

namespace Text

/-- What a place reads is the part of the text between its ends. -/
theorem ReadsAt.slice_eq {c : Text} (reads : t.ReadsAt s c) :
    t.slice s.start.toNat s.stop.toNat = c := by
  obtain ⟨o, ⟨front, behind, rfl, rfl⟩, rfl⟩ := reads
  change ((front ++ (c ++ behind)).drop front.length).take
    (front.length + c.length - front.length) = c
  rw [List.drop_left, Nat.add_sub_cancel_left, List.take_left]

/-- The text with every run of blanks made one space, and none at its ends. -/
def squeeze (t : Text) : Text := trim (collapseBlanks false t)

theorem visible_collapseBlanks (inside : Bool) (t : Text) :
    visible (collapseBlanks inside t) = visible t := by
  induction t generalizing inside with
  | nil => rfl
  | cons u t ih =>
    cases blank : isBlank u <;> cases inside <;>
      simp [collapseBlanks, blank, visible, isBlank_space] <;> exact ih _

theorem visible_squeeze (t : Text) : visible (squeeze t) = visible t := by
  rw [squeeze, trim, visible_trimEnd, visible_trimStart, visible_collapseBlanks]

theorem count_visible (seen : isBlank u = false) (t : Text) : (visible t).count u = t.count u :=
  List.count_filter (by simp [seen])

theorem squeeze_eq_nil_iff (t : Text) : squeeze t = [] ↔ Blank t := by
  rw [squeeze, trim_eq_nil_iff, LineRead.blank_collapseBlanks_iff]

end Text

namespace Inline.Compared

variable {bare proper : Text}

/-- Without blanks the two differ exactly where a name in brackets is hidden. -/
theorem squeeze_eq_iff (compared : Compared t bare proper) :
    bare.squeeze = proper.squeeze ↔ ¬ HidesLabel t := by
  refine ⟨fun eq hidden => ?_, fun none_ => congrArg Text.squeeze (compared.same none_)⟩
  have seen : Text.isBlank (Text.unit '<') = false := by decide
  have visible : bare.visible = proper.visible := by
    rw [← Text.visible_squeeze bare, eq, Text.visible_squeeze]
  have count := congrArg (List.count (Text.unit '<')) visible
  rw [Text.count_visible seen, Text.count_visible seen] at count
  exact Nat.ne_of_lt (compared.hidden hidden) count

end Inline.Compared

/-! ## Lines -/

structure Heading.ReadFrom (t : Text) (start : Nat) (c : Text) (h : Heading) : Prop where
  stands : t.StandsAt start c
  quiet : Inline.Quiet c
  titleSpan : h.titleSpan = ⟨start, (start + c.length : Nat)⟩
  title : h.title = titleOf c
  label : h.label = (Inline.labels (scan 0 start none [] c)).head?.map Mark.name

namespace LineRead

variable {p q : List Item × List SyntaxError}

structure Untitled (p : List Item × List SyntaxError) : Prop where
  items : ∀ h, .heading h ∉ p.1
  errors : ∀ e ∈ p.2, e.problem ≠ .emptyHeading

theorem untitled_nil : Untitled ([], []) := ⟨by simp, by simp⟩

theorem Untitled.append (first : Untitled p) (then_ : Untitled q) :
    Untitled (p.1 ++ q.1, p.2 ++ q.2) where
  items h := by simp [first.items h, then_.items h]
  errors := List.forall_mem_append.2 ⟨first.errors, then_.errors⟩

theorem untitled_unclosed (opened : List OpenSign) : Untitled ([], Inline.unclosed opened) where
  items := by simp
  errors := by simp [Inline.unclosed]

theorem untitled_scan (o : Nat) (before : Option UInt16) (opened : List OpenSign) (t : Text) :
    Untitled ((scan 0 o before opened t).items, (scan 0 o before opened t).errors) where
  items _ := Module.heading_not_mem_scan o before opened t
  errors := by
    obtain ⟨d, lexed, rfl⟩ := Inline.exists_lexed t
    induction lexed generalizing o before opened with
    | nil | last => simp [scan]
    | comment starts => simp [Inline.scan_comment starts]
    | hidden u lexed ih => exact ih (o + 2) (some u) opened
    | label valid lexed ih =>
      rw [Draft.text_unit_cons, Draft.text_name_cons, Draft.text_unit_cons, Inline.scan_label valid]
      exact ih _ _ opened
    | reference valid ends lexed ih =>
      rw [Draft.text_unit_cons, Draft.text_name_cons, Inline.scan_mark (.inl rfl) valid ends]
      exact ih _ _ opened
    | use valid free ends lexed ih =>
      have other : Text.unit '#' ≠ Text.unit '@' := by decide
      simp only [Draft.text_unit_cons, Draft.text_name_cons, Inline.scan_mark (.inr rfl) valid ends,
        if_neg other, free, Bool.false_eq_true, if_false]
      exact ih _ _ opened
    | reserved valid reserved ends lexed ih =>
      have other : Text.unit '#' ≠ Text.unit '@' := by decide
      simp only [Draft.text_unit_cons, Draft.text_append, Draft.text_units,
        Inline.scan_mark (.inr rfl) valid ends, if_neg other, if_pos reserved]
      exact List.forall_mem_cons.2 ⟨by simp, ih _ _ opened⟩
    | plain plain lexed ih =>
      rw [Draft.text_unit_cons, Inline.scan_plain plain]
      split <;> exact ih _ _ _

/-- Marks in a title or a value, and what is wrong with them. -/
theorem untitled_marks (start : Nat) (x : Text) : Untitled ((scan 0 start none [] x).items,
    (scan 0 start none [] x).errors ++ Inline.unclosed (scan 0 start none [] x).opened) where
  items := (untitled_scan start none [] x).items
  errors := ((untitled_scan start none [] x).append (untitled_unclosed _)).errors

theorem untitled_binding (o : Nat) (t : Text) : Untitled (binding o t) := by
  unfold binding
  dsimp only
  split
  next => exact ⟨by simp, by simp⟩
  next name _ =>
    split
    next => exact ⟨by simp, by simp⟩
    next u tail _ =>
      split
      next => exact ⟨fun h => by simpa using (untitled_marks _ _).items h, (untitled_marks _
        _).errors⟩
      next => exact ⟨by simp, by simp⟩

theorem untitled_inclusion (uri : Uri) (o : Nat) (t : Text) : Untitled (inclusion uri o t) := by
  unfold inclusion
  dsimp only
  split
  next => exact ⟨by simp, by simp⟩
  next =>
    split
    next => split <;> [skip; split] <;> exact ⟨by simp, by simp⟩
    next => exact ⟨by simp, by simp⟩

theorem exists_titled (stands : t.StandsAt o x) : ∃ level span start x',
    heading o x = titled level span start (content x') ∧ t.StandsAt start (content x') := by
  obtain ⟨signs, rest, rfl, signs_, ends⟩ := Text.exists_run (· == Text.unit '=') x
  obtain ⟨gap, x, rfl, spaces, solid⟩ := Text.exists_run Text.isSpaceOrTab rest
  exact ⟨_, _, _, x, heading_eq signs_ ends spaces solid o,
    stands.right.right.prefix_ (prefix_content x)⟩

/-- What is read of a line: a heading whose title stands in the text, or neither a heading nor the
lack of a title. -/
inductive Titled (t : Text) : List Item × List SyntaxError → Prop
  | heading (level : Nat) (span : Span) {start : Nat}
    {x : Text} (stands : t.StandsAt start (content x))
    (opened : List OpenSign) : Titled t ((titled level span start (content x)).1,
      Inline.unclosed opened ++ (titled level span start (content x)).2)
  | untitled {p : List Item × List SyntaxError} (untitled : Untitled p) : Titled t p

theorem titled_readAt (uri : Uri) (opened : List OpenSign) (stands : t.StandsAt o x) :
    Titled t ((Module.readAt uri opened o x).items, (Module.readAt uri opened o x).errors) := by
  cases Module.form x with
  | empty => exact .untitled (untitled_unclosed opened)
  | comment slashes =>
    rw [Module.readAt_comment slashes]
    exact .untitled untitled_nil
  | heading tail =>
    obtain ⟨level, span, start, x, eq, stands⟩ := exists_titled stands
    have read : Module.readAt uri opened o (Text.unit '=' :: tail) =
        Module.apart opened (heading o (Text.unit '=' :: tail)) := rfl
    rw [read, eq]
    exact .heading level span stands opened
  | binding ends =>
    rw [Module.readAt_binding ends]
    exact .untitled ((untitled_unclosed opened).append (untitled_binding o _))
  | inclusion ends =>
    rw [Module.readAt_inclusion ends]
    exact .untitled ((untitled_unclosed opened).append (untitled_inclusion uri o _))
  | text text =>
    rw [text.readAt_eq]
    exact .untitled (untitled_scan o none opened x)

theorem titled_readLine {l : Line} (uri : Uri) (opened : List OpenSign)
    (stands : t.StandsAt l.start l.content) :
    Titled t ((Module.readLine uri opened l).items, (Module.readLine uri opened l).errors) := by
  obtain ⟨start, content⟩ := l
  obtain ⟨indent, blank, eq⟩ := Text.exists_blank_append_trimStart content
  have solid : ∀ u ∈ (Text.trimStart content).head?, Text.isBlank u = false := fun u =>
    Text.not_isBlank_of_mem_head?_trimStart
  generalize Text.trimStart content = c at eq solid
  subst eq
  rw [Module.readLine_append blank solid]
  exact titled_readAt uri opened stands.right

namespace Titled

/-- A heading of the line is the one item in front of those in its title. -/
theorem exists_of_heading (read : Titled t p) (mem : .heading h ∈ p.1) : ∃ start c,
    h.ReadFrom t start c ∧ p.1 = .heading h :: (scan 0 start none [] c).items := by
  cases read with
  | @heading level span start x stands opened =>
    have own := (List.mem_cons.1 mem).resolve_right
        (Module.heading_not_mem_scan start none [] (content x))
    refine ⟨start, content x, Item.heading.inj own ▸ ⟨stands, .content x, rfl, rfl, ?_⟩, own ▸ rfl⟩
    simp [Inline.labels]
  | untitled untitled => exact absurd mem (untitled.items h)

/-- The lack of a title is reported where the heading is. -/
theorem empty_iff (read : Titled t p) :
    ⟨.emptyHeading, s⟩ ∈ p.2 ↔ ∃ h, .heading h ∈ p.1 ∧ h.title = [] ∧ h.span = s := by
  cases read with
  | @heading level span start x stands opened =>
    have marks := untitled_marks start (content x)
    have others := ((untitled_unclosed opened).append marks).errors ⟨.emptyHeading, s⟩
    have told : ⟨.emptyHeading, s⟩ ∈ Inline.unclosed opened ++
        (titled level span start (content x)).2 ↔
        Heading.titleOf (content x) = [] ∧ span = s := by
      simp only [titled, ← List.append_assoc]
      rw [List.mem_append,
        or_iff_right fun mem => others (by simpa [List.append_assoc] using mem) rfl]
      cases title : Heading.titleOf (content x) <;> simp [eq_comm]
    rw [told]
    constructor
    · rintro ⟨title, rfl⟩
      exact ⟨_, List.mem_cons_self, title, rfl⟩
    · rintro ⟨h, mem, title, eq⟩
      obtain rfl := Item.heading.inj ((List.mem_cons.1 mem).resolve_right (marks.items h))
      exact ⟨title, eq⟩
  | untitled untitled =>
    refine iff_of_false (fun mem => untitled.errors _ mem rfl) ?_
    rintro ⟨h, mem, -⟩
    exact untitled.items h mem

end Titled

end LineRead

def Heading.content (t : Text) (h : Heading) :
    Text := t.slice h.titleSpan.start.toNat h.titleSpan.stop.toNat

namespace Module

/-- The labels of a document that lie in a place. -/
def labelsIn (m : Module) (s : Span) : List Mark := m.labels.filter (·.span.within s)

/-- What a heading should be called: what its title reads, with a space in place of each label in
it. -/
def properTitle (t : Text) (m : Module) (h : Heading) : Text :=
  Text.squeeze (Inline.withoutMarks h.titleSpan.start (m.labelsIn h.titleSpan) (h.content t))

/-- A heading of a document agrees with the labels in its title: it has the name of the first one,
it is called as it should unless the title hides one, and it is reported if there is nothing to call
it. -/
structure HeadingAgrees (t : Text) (m : Module) (h : Heading) : Prop where
  reads : t.ReadsAt h.titleSpan (h.content t)
  title : h.title = properTitle t m h ↔ ¬ Inline.HidesLabel (h.content t)
  label : h.label = (m.labelsIn h.titleSpan).head?.map Mark.name
  empty : ⟨.emptyHeading, h.span⟩ ∈ m.errors ↔ properTitle t m h = []

/-- The lack of a title is reported where the headings without one are. -/
theorem empty_mem_readLines_iff {lines : List Line} (uri : Uri) (opened : List OpenSign)
    (sub : ∀ l ∈ lines, l ∈ t.lines) : ⟨.emptyHeading, s⟩ ∈ (readLines uri opened lines).2 ↔
      ∃ h, .heading h ∈ (readLines uri opened lines).1 ∧ h.title = [] ∧ h.span = s := by
  induction lines generalizing opened with
  | nil =>
    have signs := (LineRead.untitled_unclosed opened).errors ⟨.emptyHeading, s⟩
    exact iff_of_false (fun mem => signs mem rfl) (by simp [readLines])
  | cons l lines ih =>
    have first := LineRead.titled_readLine uri opened (Text.standsAt_of_mem_lines (sub l (by simp)))
    have own := first.empty_iff (s := s)
    simp only [readLines, List.mem_append, own,
      ih (readLine uri opened l).opened fun l mem => sub l (by simp [mem]), or_and_right, exists_or]

theorem empty_mem_errors_iff : ⟨.emptyHeading, s⟩ ∈ (read uri t).errors ↔
    ∃ h, .heading h ∈ (read uri t).items ∧ h.title = [] ∧ h.span = s :=
  (sortBy_perm _ _).mem_iff.trans (empty_mem_readLines_iff uri [] fun _ => id)

theorem heading_eq_of_span {h' : Heading} (mem : .heading h ∈ (read uri t).items)
    (mem' : .heading h' ∈ (read uri t).items) (same : h.span = h'.span) : h = h' := by
  by_contra ne
  have start : h.span.start = h'.span.start := congrArg Span.start same
  have apart := pairwise_start_lt uri t
  let Apart (a b : Item) : Prop :=
    a.inclusion? = none → b.inclusion? = none → a.span.start ≠ b.span.start
  have apart : (read uri t).items.Pairwise Apart :=
    apart.imp fun lt none_ _ => Int.ne_of_lt (lt none_)
  have : Std.Symm Apart := ⟨fun _ _ apart none_ none_' eq => apart none_' none_ eq.symm⟩
  exact apart.forall mem mem' (fun eq => ne (Item.heading.inj eq)) rfl rfl start

theorem filter_labels_eq_nil {items : List Item} (outside : ∀ i ∈ items, ¬ i.span.within s) :
    (items.filterMap Item.label?).filter (·.span.within s) = [] :=
  List.filter_eq_nil_iff.2 fun _ mem => outside _ (Inline.mem_filterMap_label?_iff.1 mem)

/-- The labels in the title of a heading are those that a scan of the title finds. -/
theorem exists_labelsIn_eq (mem : .heading h ∈ (read uri t).items) :
    ∃ start c, h.ReadFrom t start c ∧
    (read uri t).labelsIn h.titleSpan = Inline.labels (scan 0 start none [] c) := by
  obtain ⟨rows, found, eq⟩ := exists_rows_of_lines (P := fun l row => Row t l.start l.stop row ∧
      ∀ h, .heading h ∈ row → ∃ start c, h.ReadFrom t start c ∧
        row = .heading h :: (scan 0 start none [] c).items) uri []
    fun l (mem : l ∈ t.lines) opened => ⟨Row.readLine uri opened (Text.standsAt_of_mem_lines mem),
      fun h own => (LineRead.titled_readLine uri opened
        (Text.standsAt_of_mem_lines mem)).exists_of_heading own⟩
  have mem : .heading h ∈ rows.flatten := eq ▸ mem
  obtain ⟨row, inside, own⟩ := List.mem_flatten.1 mem
  obtain ⟨l, line, of_line, titled_⟩ := exists_of_mem_rows found inside
  obtain ⟨start, c, from_, row_eq⟩ := titled_ h own
  refine ⟨start, c, from_, ?_⟩
  obtain ⟨front, behind, rfl⟩ := List.append_of_mem inside
  have ahead := pairwise_ahead (found.imp fun _ _ both => both.1) (Text.pairwise_linesFrom 0 t)
  obtain ⟨-, after, across⟩ := List.pairwise_append.1 ahead
  -- the labels of other lines are not in the title
  have ordered {r : List Item} (mem : r ∈ front ++ row :: behind) : ∀ i ∈ r,
      i.span.start ≤ i.span.stop := by
    obtain ⟨l, -, of_line, -⟩ := exists_of_mem_rows found mem
    exact fun i inRow => (of_line.inside i inRow).1.ordered
  have earlier : ∀ i ∈ front.flatten, ¬ i.span.within h.titleSpan := fun i mem => by
    obtain ⟨r, inFront, inRow⟩ := List.mem_flatten.1 mem
    obtain ⟨o, before, from_⟩ := across r inFront row (by simp)
    have stop := (before i inRow).1
    have start := (from_ _ own).2
    have := ordered (by simp [inFront]) i inRow
    simp only [Item.hitSpan, Span.within_iff] at start ⊢
    omega
  have later : ∀ i ∈ behind.flatten, ¬ i.span.within h.titleSpan := fun i mem => by
    obtain ⟨r, inBehind, inRow⟩ := List.mem_flatten.1 mem
    obtain ⟨o, before, from_⟩ := (List.pairwise_cons.1 after).1 r inBehind
    have stop := (before _ own).2
    have start := (from_ i inRow).1
    have := ordered (by simp [inBehind]) i inRow
    simp only [Item.hitSpan, Span.within_iff] at stop ⊢
    omega
  have own_labels : ((row.filterMap Item.label?).filter (·.span.within h.titleSpan)) =
      Inline.labels (scan 0 start none [] c) := by
    rw [row_eq, from_.titleSpan]
    refine List.filter_eq_self.2 fun m mem => ?_
    exact (Inline.inside_of_mem_labels mem).within
  have items : (read uri t).items = front.flatten ++ (row ++ behind.flatten) := eq.trans (by simp)
  rw [labelsIn, labels, items, List.filterMap_append, List.filterMap_append, List.filter_append,
    List.filter_append,
    filter_labels_eq_nil earlier, filter_labels_eq_nil later, own_labels, List.nil_append,
    List.append_nil]

/-- Every heading of a document agrees with the labels in its title, but for what it is called where
a name in angle brackets is hidden. -/
theorem headingAgrees_of_mem (mem : .heading h ∈ (read uri t).items) :
    HeadingAgrees t (read uri t) h := by
  obtain ⟨start, c, from_, labels_eq⟩ := exists_labelsIn_eq mem
  have reads : t.ReadsAt h.titleSpan c := from_.titleSpan ▸ from_.stands.readsAt
  have content_eq : h.content t = c := reads.slice_eq
  have compared : Inline.Compared c (withoutLabels 0 c) (Inline.withoutMarks start
      (Inline.labels (scan 0 start none [] c)) c) := by
    obtain ⟨d, lexed, rfl⟩ := Inline.exists_lexed c
    exact lexed.compared from_.quiet start none []
  have title : h.title = Text.squeeze (withoutLabels 0 c) := from_.title
  have proper : properTitle t (read uri t) h = Text.squeeze (Inline.withoutMarks start
      (Inline.labels (scan 0 start none [] c)) c) := by
    rw [properTitle, content_eq, labels_eq, from_.titleSpan]
  refine ⟨content_eq ▸ reads, ?_, labels_eq ▸ from_.label, ?_⟩
  · rw [title, proper, compared.squeeze_eq_iff, content_eq]
  · have empty : h.title = [] ↔ properTitle t (read uri t) h = [] := by
      rw [title, proper, Text.squeeze_eq_nil_iff, Text.squeeze_eq_nil_iff, compared.blank]
    rw [empty_mem_errors_iff, ← empty]
    constructor
    · rintro ⟨h', mem', none_, same⟩
      exact heading_eq_of_span mem' mem same ▸ none_
    · exact fun none_ => ⟨h, mem, none_, rfl⟩

/-- A title with two labels, of which the first one gives the heading its name. -/
theorem headingAgrees_labelled :
    let t : Text := Text.ofString "= \\* A <x> <y>"
    let h : Heading := ⟨1, Text.ofString "\\* A", ⟨0, 14⟩, ⟨2, 14⟩, some (Text.ofString "x")⟩
    .heading h ∈ (read "/m" t).items ∧ HeadingAgrees t (read "/m" t) h := by
  have mem : .heading ⟨1, Text.ofString "\\* A", ⟨0, 14⟩, ⟨2, 14⟩, some (Text.ofString "x")⟩ ∈
      (read "/m" (Text.ofString "= \\* A <x> <y>")).items := by
    decide +kernel
  exact ⟨mem, headingAgrees_of_mem mem⟩

/-- A bracket behind a backslash opens no label, and yet the name behind it is taken out of the
title. -/
theorem not_title_eq_properTitle : ¬ ∀ (uri : Uri) (t : Text), ∀ h, .heading h ∈
    (read uri t).items →
    h.title = properTitle t (read uri t) h := by
  intro all
  let h : Heading := ⟨1, Text.ofString "\\ T", ⟨0, 8⟩, ⟨2, 8⟩, none⟩
  have mem : .heading h ∈ (read "/m" (Text.ofString "= \\<x> T")).items := by decide +kernel
  have kept : properTitle (Text.ofString "= \\<x> T") (read "/m" (Text.ofString "= \\<x> T")) h =
      Text.ofString "\\<x> T" := by decide +kernel
  exact absurd ((all "/m" _ h mem).trans kept) (by decide +kernel)

end Module

end Quill
