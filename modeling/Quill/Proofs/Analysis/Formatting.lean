import Mathlib.Data.List.Basic
import Quill.Proofs.Analysis.Edits
import Quill.Proofs.Flow.Computed
import Quill.Proofs.Layout.Document
import Quill.Proofs.Text.Positions
import Quill.Proofs.Text.Replacement

/-!
# The edit that formats a document

The edit is the replacement between the text and the formatted text, with positions in place of
offsets. It does what it should unless it stops inside a line break, which has no position of its
own.

## Main definitions

* `Formatting.Paired` — texts with no line break but those of two units.
* `Formatting.Swallows` — a carriage return takes over the line feed of a line break further on.

## Main statements

* `Formatting.apply_editOf` — the edit between a text and another one does what it should unless it
  stops inside a line break.
* `Formatting.answer_formatting` — the answer to the question for the edit that formats a document.
-/

namespace Quill

namespace Formatting

open Layout (formatText formatLines lineBreak)
open Text (SplitsBreak Unbroken carriageReturn lineFeed)

variable {t f front old new behind l rest : Text} {u : UInt16} {lines : List Text} {width : Int}

/-! ## Line breaks of the formatted text -/

def Paired (f : Text) : Prop :=
  ∀ front u behind, f = front ++ u :: behind →
    (u = carriageReturn → behind.head? = some lineFeed) ∧
      (u = lineFeed → front.getLast? = some carriageReturn)

theorem paired_nil : Paired [] := by
  rintro front u behind eq
  simp at eq

theorem Paired.cons (paired : Paired rest) (plain : Text.isBreak u = false) :
    Paired (u :: rest) := by
  rintro front v behind eq
  obtain ⟨feed, return_⟩ : u ≠ lineFeed ∧ u ≠ carriageReturn := by simpa [Text.isBreak] using plain
  cases front with
  | nil =>
    obtain ⟨rfl, rfl⟩ : u = v ∧ rest = behind := by simpa using eq
    exact ⟨fun eq => absurd eq return_, fun eq => absurd eq feed⟩
  | cons w front =>
    obtain ⟨rfl, rfl⟩ : u = w ∧ rest = front ++ v :: behind := by simpa using eq
    refine (paired front v behind rfl).imp id fun h eq => ?_
    simp [List.getLast?_cons, h eq]

theorem Paired.break (paired : Paired rest) : Paired (carriageReturn :: lineFeed :: rest) := by
  rintro front v behind eq
  match front with
  | [] =>
    obtain ⟨rfl, rfl⟩ : carriageReturn = v ∧ lineFeed :: rest = behind := by simpa using eq
    exact ⟨fun _ => rfl, fun eq => absurd eq (by decide)⟩
  | [w] =>
    obtain ⟨rfl, rfl, rfl⟩ : carriageReturn = w ∧ lineFeed = v ∧ rest = behind := by simpa using eq
    exact ⟨fun eq => absurd eq (by decide), fun _ => rfl⟩
  | w :: w' :: front =>
    obtain ⟨rfl, rfl, rfl⟩ : carriageReturn = w ∧ lineFeed = w' ∧ rest = front ++ v :: behind := by
      simpa using eq
    refine (paired front v behind rfl).imp id fun h eq => ?_
    simp [List.getLast?_cons, h eq]

theorem Paired.line (paired : Paired rest) (unbroken : Unbroken l) : Paired (l ++ rest) := by
  induction l with
  | nil => exact paired
  | cons u l ih => exact (ih fun v mem => unbroken v (by simp [mem])).cons (unbroken u (by simp))

theorem paired_formatText (pair : [carriageReturn, lineFeed] <:+: t) (width : Int) :
    Paired (formatText width t) := by
  have eol : lineBreak t = [carriageReturn, lineFeed] := if_pos (Text.occursIn_iff.2 pair)
  have unbroken : ∀ l ∈ formatLines width false false t.contents, Unbroken l := fun _ =>
    Layout.unbroken_of_mem_formatLines fun _ => Text.unbroken_of_mem_contents
  have all : ∀ lines : List Text, (∀ l ∈ lines, Unbroken l) →
      Paired (lines.flatMap (· ++ lineBreak t)) := by
    intro lines unbroken
    induction lines with
    | nil => exact paired_nil
    | cons l lines ih =>
      have rest := (ih fun l mem => unbroken l (by simp [mem])).break.line (unbroken l (by simp))
      simpa [eol] using rest
  exact all _ unbroken

/-! ## Where the replacement stops -/

/-- What is left out of `t` goes from behind a carriage return to inside a line break, which becomes
the line break of that carriage return. -/
def Swallows (t f : Text) : Prop :=
  ∃ front gap behind, t = front ++ carriageReturn :: (gap ++ carriageReturn :: lineFeed :: behind) ∧
    f = front ++ carriageReturn :: lineFeed :: behind ∧ gap.head? ≠ some lineFeed

variable (cut : Replacement.Cut t f front old new behind)
include cut

/-- The replacement starts at no line feed that both texts have. -/
theorem not_feed {s s' : Text} (eq : old ++ behind = lineFeed :: s)
    (eq' : new ++ behind = lineFeed :: s') :
    False :=
  absurd (cut.front_max _ _ _ eq eq').1 (by decide)

/-- The replacement does not start inside a line break. -/
theorem not_splitsBreak_front (paired : Paired f) : ¬ SplitsBreak t front.length := by
  rintro ⟨a, b, t_eq, at_⟩
  have parts : front ++ (old ++ behind) = (a ++ [carriageReturn]) ++ lineFeed :: b := by
    rw [← cut.before_eq, t_eq, List.append_assoc, List.singleton_append]
  obtain ⟨rfl, eq⟩ := List.append_inj parts (by simpa using at_)
  have feed := (paired a carriageReturn (new ++ behind) (by simpa using cut.after_eq)).1 rfl
  cases new_eq : new ++ behind with
  | nil => simp [new_eq] at feed
  | cons v rest =>
    obtain rfl : v = lineFeed := by simpa [new_eq] using feed
    exact not_feed cut eq new_eq

/-- A replacement that stops inside a line break leaves out the carriage return of the break, and
there is one in front of what it leaves out. -/
theorem swallows_of_splitsBreak (paired : Paired f)
    (splits : SplitsBreak t (front.length + old.length)) : Swallows t f := by
  obtain ⟨a, b, t_eq, at_⟩ := id splits
  have parts : (front ++ old) ++ behind = (a ++ [carriageReturn]) ++ lineFeed :: b := by
    rw [List.append_assoc, ← cut.before_eq, t_eq, List.append_assoc, List.singleton_append]
  obtain ⟨head, rfl⟩ := List.append_inj parts (by simpa using at_)
  have last := (paired (front ++ new) lineFeed b (by simpa using cut.after_eq)).2 rfl
  rcases List.eq_nil_or_concat' old with rfl | ⟨gap, u, rfl⟩
  · exact absurd (by simpa using splits) (not_splitsBreak_front cut paired)
  obtain ⟨rfl, rfl⟩ : front ++ gap = a ∧ u = carriageReturn := by
    rw [← List.append_assoc] at head
    simpa using List.append_inj' head rfl
  rcases List.eq_nil_or_concat' new with rfl | ⟨inner, v, rfl⟩
  · obtain ⟨p, rfl⟩ := List.getLast?_eq_some_iff.1 (by simpa using last)
    refine ⟨p, gap, b, by simp [cut.before_eq], by simp [cut.after_eq], fun first => ?_⟩
    obtain ⟨s, rfl⟩ : ∃ s, gap = lineFeed :: s := by cases gap <;> simp_all
    exact not_feed cut rfl rfl
  · obtain rfl : v = carriageReturn := by simpa using last
    exact absurd (cut.behind_max carriageReturn gap.reverse inner.reverse (by simp) (by simp)).1
      (by decide)

omit cut in
/-- Texts that go on alike for more than one unit do not differ. -/
theorem not_differFrom {p : UInt16 → Bool} {c x y : Text} (ne : c ≠ [])
    (last : ∀ u, c = [u] → p u = false) :
    ¬ Replacement.DifferFrom p (c ++ x) (c ++ y) := by
  intro differ
  match c with
  | [] => exact ne rfl
  | [u] => simpa [last u rfl] using (differ u x y rfl rfl).1
  | u :: v :: c => exact (differ u (v :: c ++ x) (v :: c ++ y) rfl rfl).2 v rfl rfl

/-- Texts that go on alike as far as a carriage return, and differ behind it, have just that in
common. -/
theorem front_of_swallows {p gap b : Text}
    (left : front ++ (old ++ behind) = (p ++ [carriageReturn]) ++
      (gap ++ carriageReturn :: lineFeed :: b))
    (right : front ++ (new ++ behind) = (p ++ [carriageReturn]) ++ lineFeed :: b)
    (first : gap.head? ≠ some lineFeed) : front = p ++ [carriageReturn] := by
  rcases List.append_eq_append_iff.1 left with ⟨c, head, tail⟩ | ⟨c, rfl, tail⟩
  · -- no shorter beginning will do: they go on alike behind it
    rcases List.eq_nil_or_concat' c with rfl | ⟨c, u, rfl⟩
    · simpa using head.symm
    obtain rfl : u = carriageReturn := by
      rw [← List.append_assoc] at head
      simpa using (List.append_inj' head rfl).2.symm
    have tail' : new ++ behind = (c ++ [carriageReturn]) ++ lineFeed :: b := by
      rw [head, List.append_assoc] at right
      exact List.append_cancel_left right
    have differ := cut.front_max
    rw [tail, tail'] at differ
    refine absurd differ (not_differFrom (by simp) fun u eq => ?_)
    obtain rfl : u = carriageReturn := by
      simpa [eq_comm] using congrArg List.getLast? eq
    decide
  · -- and a longer one holds the line feed
    rw [List.append_assoc] at right
    have feed := List.append_cancel_left right
    cases c with
    | nil => simp
    | cons u c =>
      obtain rfl : u = lineFeed := by simpa using congrArg List.head? feed
      cases gap with
      | nil => exact absurd (congrArg List.head? tail) (by simp [carriageReturn, lineFeed])
      | cons v gap => exact absurd (by simpa using (congrArg List.head? tail)) first

/-- If a carriage return takes over the line feed of a line break, the replacement stops inside that
break. -/
theorem splitsBreak_of_swallows (swallows : Swallows t f) :
    SplitsBreak t (front.length + old.length) := by
  obtain ⟨p, gap, b, t_eq, f_eq, first⟩ := swallows
  have left : front ++ (old ++ behind) = (p ++ [carriageReturn]) ++
      (gap ++ carriageReturn :: lineFeed :: b) := by
    rw [← cut.before_eq, t_eq, List.append_assoc, List.singleton_append]
  have right : front ++ (new ++ behind) = (p ++ [carriageReturn]) ++ lineFeed :: b := by
    rw [← cut.after_eq, f_eq, List.append_assoc, List.singleton_append]
  obtain rfl := front_of_swallows cut left right first
  have left := List.append_cancel_left left
  have right := List.append_cancel_left right
  -- what is replaced by nothing stops in front of the line feed
  cases new with
  | nil =>
    obtain rfl : behind = lineFeed :: b := by simpa using right
    obtain rfl : old = gap ++ [carriageReturn] := by
      have whole : old ++ lineFeed :: b = (gap ++ [carriageReturn]) ++ lineFeed :: b := by
        simpa using left
      exact List.append_cancel_right whole
    exact ⟨p ++ carriageReturn :: gap, b, by simp [t_eq], by simp; omega⟩
  | cons u c =>
    obtain ⟨rfl, rfl⟩ : u = lineFeed ∧ b = c ++ behind := by simpa [eq_comm] using right
    obtain rfl : old = (gap ++ [carriageReturn]) ++ lineFeed :: c := by
      have whole : old ++ behind = ((gap ++ [carriageReturn]) ++ lineFeed :: c) ++ behind := by
        simpa using left
      exact List.append_cancel_right whole
    have differ := cut.behind_max
    rw [List.reverse_append, ← List.append_nil (lineFeed :: c).reverse, List.append_assoc] at differ
    refine absurd differ (not_differFrom (by simp) fun u eq => ?_)
    obtain rfl : u = lineFeed := by simpa [eq_comm] using congrArg List.getLast? eq
    decide

omit cut

/-! ## The edit -/

variable {uri : Uri} {version : Option Int} {r : Replacement} {s : Snapshot}
  {doc : SnapshotDocument}

def editOf (t : Text) (uri : Uri) (version : Option Int) (r : Replacement) : DocumentEdit :=
  ⟨uri, version, (LineTable.ofText t).rangeOf r.span, r.newText⟩

/-- The replacement between a text and another one survives as an edit, unless it stops inside a
line break. -/
theorem apply_editOf (paired : [carriageReturn, lineFeed] <:+: t → Paired f)
    (found : Replacement.between? t f = some r) :
    ((editOf t uri version r).replacement t).apply t = f ↔ ¬ Swallows t f := by
  obtain ⟨front, old, new, behind, cut, rfl⟩ := Replacement.exists_cut found
  have paired {o : Nat} (splits : SplitsBreak t o) : Paired f := by
    obtain ⟨a, b, eq, -⟩ := splits
    exact paired ⟨a, b, by simp [eq]⟩
  have length : t.length = front.length + (old.length + behind.length) := by simp [cut.before_eq]
  have start : (LineTable.ofText t).offsetAt ((LineTable.ofText t).positionAt front.length) =
      front.length :=
    LineTable.offsetAt_positionAt (by omega) fun splits =>
      not_splitsBreak_front cut (paired splits) splits
  have stop : (front.length : Int) + old.length = ((front.length + old.length : Nat) : Int) := by
    omega
  simp only [editOf, DocumentEdit.replacement, LineTable.rangeOf, start, stop]
  by_cases splits : SplitsBreak t (front.length + old.length)
  · -- the edit leaves the carriage return of the break in place
    have moved := LineTable.offsetAt_positionAt_of_splitsBreak splits
    simp only [swallows_of_splitsBreak cut (paired splits) splits, not_true_eq_false, iff_false]
    intro eq
    have length' := congrArg List.length eq
    simp only [Replacement.apply, cut.after_eq, Int.toNat_natCast, List.length_append,
      List.length_take, List.length_drop] at length'
    omega
  · rw [LineTable.offsetAt_positionAt (by omega) splits, ← stop]
    exact iff_of_true cut.apply_eq fun swallows => splits (splitsBreak_of_swallows cut swallows)

theorem edits_eq (doc : SnapshotDocument) (f : Text) : Formatting.edits doc f =
    .ok ((Replacement.between? doc.text f).toList.map
      (editOf doc.text doc.uri (some doc.version))) := by
  unfold Formatting.edits
  cases Replacement.between? doc.text f <;> rfl

theorem yields_formattingKept (entry : s.entryDocument? = some doc) :
    ∃ next, Answering.formattingKept s = .look next ∧ ∀ m, m.config.formatterMode = .builtin →
      Flow.Yields (.computed .quill) (next m) (.ok (.formatting
        ((Replacement.between? doc.text (formatText m.config.printWidth doc.text)).toList.map
          (editOf doc.text doc.uri (some doc.version))))) := by
  refine ⟨_, rfl, fun m builtin => ?_⟩
  simp only [builtin]
  refine Flow.Yields.call (Flow.yields_memo (.answer _) ?_ rfl)
  refine Flow.Yields.bind (Flow.Yields.bind (Flow.yields_entry entry _) ?_) (Flow.yields_done _ _)
  have formatted : Compiler.quill.format m.config.printWidth doc.text =
      .ok (formatText m.config.printWidth doc.text) := rfl
  simp only [formatted, bind, Except.bind, edits_eq, pure, Except.pure]
  exact Flow.yields_done _ _

/-- While the formatter is switched on, the answer is no edit if the document is formatted, and else
one that formats it unless it swallows a line break. -/
theorem answer_formatting (s : Snapshot) (uri : Uri) (doc : SnapshotDocument)
    (entry : s.entryDocument? = some doc) :
    ∃ next, Question.formatting.answer s uri = .look next ∧ ∀ m, m.config.formatterMode = .builtin →
      ∃ edits, Flow.Yields (.computed .quill) (next m) (.ok (.formatting edits)) ∧
        (edits = [] ↔ formatText m.config.printWidth doc.text = doc.text) ∧
        ∀ e ∈ edits, edits = [e] ∧ e.uri = doc.uri ∧ e.version = some doc.version ∧
          ((e.replacement doc.text).apply doc.text = formatText m.config.printWidth doc.text ↔
            ¬ Swallows doc.text (formatText m.config.printWidth doc.text)) := by
  obtain ⟨next, look, yields⟩ := yields_formattingKept entry
  refine ⟨next, look, fun m builtin => ⟨_, yields m builtin, ?_, ?_⟩⟩
  · rw [List.map_eq_nil_iff, Option.toList_eq_nil_iff, Replacement.between?_eq_none_iff, eq_comm]
  · cases found : Replacement.between? doc.text (formatText m.config.printWidth doc.text) with
    | none => simp
    | some r =>
      intro e mem
      obtain rfl : e = _ := by simpa using mem
      exact ⟨rfl, rfl, rfl, apply_editOf (paired_formatText · _) found⟩

/-- The one edit of a text with line breaks of all kinds. -/
theorem answer_formatting_mixed :
    let doc : SnapshotDocument := ⟨"/ws/m.quill", "== A\r\n\n  b \rc", 3, "", .memory⟩
    let s : Snapshot := ⟨.file doc.uri, [(doc.uri, doc)], [], .default, ""⟩
    s.entryDocument? = some doc ∧
      ∃ next, Question.formatting.answer s doc.uri = .look next ∧ ∀ m,
      m.config.formatterMode = .builtin →
      ∃ edits, Flow.Yields (.computed .quill) (next m) (.ok (.formatting edits)) ∧
        (edits = [] ↔ formatText m.config.printWidth doc.text = doc.text) ∧
        ∀ e ∈ edits, edits = [e] ∧ e.uri = doc.uri ∧ e.version = some doc.version ∧
          ((e.replacement doc.text).apply doc.text = formatText m.config.printWidth doc.text ↔
            ¬ Swallows doc.text (formatText m.config.printWidth doc.text)) := by
  intro doc s
  have entry : s.entryDocument? = some doc := by decide
  exact ⟨entry, answer_formatting s doc.uri doc entry⟩

/-- In front of a line break a carriage return of its own becomes part of a break, and the edit
changes nothing. -/
theorem not_answer_formatting : ¬ ∀ (s : Snapshot) (uri : Uri) (doc : SnapshotDocument),
    s.entryDocument? = some doc → ∃ next, Question.formatting.answer s uri = .look next ∧
      ∀ m, m.config.formatterMode = .builtin → 1 ≤ m.config.printWidth →
        ∃ edits, Flow.Yields (.computed .quill) (next m) (.ok (.formatting edits)) ∧
          (edits = [] ↔ formatText m.config.printWidth doc.text = doc.text) ∧
          ∀ e ∈ edits, edits = [e] ∧
            (e.replacement doc.text).apply doc.text = formatText m.config.printWidth doc.text := by
  intro all
  let doc : SnapshotDocument := ⟨"/ws/main.quill", "a\r\r\n", 1, "", .memory⟩
  let s : Snapshot := ⟨.file doc.uri, [(doc.uri, doc)], [], .default, ""⟩
  let m : Moment := ⟨.default, fun _ => none, none⟩
  have entry : s.entryDocument? = some doc := by decide
  have formatted : formatText m.config.printWidth doc.text = "a\r\n" := by decide +kernel
  obtain ⟨next, look, holds⟩ := all s doc.uri doc entry
  obtain ⟨next', look', yields⟩ := yields_formattingKept entry
  obtain rfl : next = next' := Flow.look.inj (look.symm.trans look')
  obtain ⟨edits, yields', empty, one⟩ := holds m rfl (by decide)
  have found : Replacement.between? doc.text (formatText m.config.printWidth doc.text) =
      some ⟨⟨2, 3⟩, []⟩ := by decide +kernel
  have same := (yields m rfl).ensures.of_canEnd yields'.canEnd
  rw [found] at same
  simp only [Option.toList_some, List.map_cons, List.map_nil, Except.ok.injEq,
    Answer.formatting.injEq] at same
  have applied := (one _ (same ▸ List.mem_singleton_self _)).2
  rw [formatted] at applied
  exact absurd applied (by decide +kernel)

end Formatting

end Quill
