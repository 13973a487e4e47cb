import Quill.Proofs.Markup.RenamedLines
import Quill.Proofs.Text.Places

/-!
# The places of what is read

Items and errors are where the reader says: each is on one line, and the names, values and paths of
the items stand at the places given for them. The items are in order. Those that are no headings or
bindings stand one behind the other, on the line of a heading in its title and on the line of a
binding in its value.

## Main definitions

* `Item.body?` — the part of a line that its marks stand in.
* `Item.Written` — an item stands in a text as it says.
* `Item.Before` — what holds of two items of a text, the first one read before the other.
* `Inline.Placed`, `LineRead.Placed`, `Module.Placed` — the places of what is read of a run of text,
  of a line and of lines.
* `Module.Exact` — the places of a document that has been read.

## Main statements

* `Inline.Lexed.placed_scan` — the places of what a scan finds.
* `Module.placed_readLine`, `Module.placed_readLines` — the places of what is read of a line, and of
  lines.
* `Module.within_body_of_sameLine` — what is on the line of a heading or a binding is in its title
  or value.
* `Module.exact_read` — the places of a document are exact.
-/

namespace Quill

open Identifier (isValid)
open Inline (Lexed)
open LineRead (content titled valued)
open Text (Unbroken)

/-! ## Items in a text -/

structure Mark.WrittenAs (sign : UInt16) (closing t : Text) (m : Mark) : Prop where
  valid : isValid m.name
  span : t.ReadsAt m.span (sign :: (m.name ++ closing))
  nameSpan : t.ReadsAt m.nameSpan m.name
  start : m.nameSpan.start = m.span.start + 1

namespace Item

/-- The item stands in the text as it says. -/
def Written (t : Text) : Item → Prop
  | heading h => ∃ content, t.ReadsAt h.titleSpan content ∧ h.title = Heading.titleOf content
  | label m => m.WrittenAs (Text.unit '<') [Text.unit '>'] t
  | reference m => m.WrittenAs (Text.unit '@') [] t
  | use m => m.WrittenAs (Text.unit '#') [] t
  | binding b => t.ReadsAt b.nameSpan b.name ∧ t.ReadsAt b.valueSpan b.value
  | inclusion i => t.ReadsAt i.pathSpan i.specifier

/-- The part of a line that its marks stand in: the title of a heading, the value of a binding. -/
def body? : Item → Option Span
  | heading h => some h.titleSpan
  | binding b => some b.valueSpan
  | _ => none

/-- Of two items of a text the first one is read before the other. -/
structure Before (t : Text) (a b : Item) : Prop where
  start_le : a.span.start ≤ b.span.start
  stop_le : a.body? = none → a.span.stop ≤ b.span.start
  sameLine : t.SameLine a.span.start b.span.start → b.body? = none ∧ ∀ body ∈ a.body?,
  b.span.within body

end Item

def OpenSign.span (s : OpenSign) : Span := ⟨s.offset, s.offset + 1⟩

variable {t c : Text} {lo lo' hi : Int} {o : Nat} {uri : Uri} {opened : List OpenSign}

/-! ## Scans -/

namespace Inline

variable {i : Item} {e : SyntaxError} {r : Inline} {d : Draft} {name rest : Text}

/-- What a scan finds between two offsets of a text, given the signs open before it. -/
structure Placed (t : Text) (lo hi : Int) (opened : List OpenSign) (r : Inline) : Prop where
  written : ∀ i ∈ r.items, i.Written t ∧ i.body? = none
  inside : ∀ i ∈ r.items, i.span.Inside lo hi
  apart : r.items.Pairwise fun a b => a.span.stop ≤ b.span.start
  errors : ∀ e ∈ r.errors, e.span.Inside lo hi
  opened : ∀ s ∈ r.opened, s ∈ opened ∨ s.span.Inside lo hi

theorem mem_toggle {s : OpenSign} {e : Emphasis} (mem : s ∈ toggle opened e o) :
    s ∈ opened ∨ s = ⟨e, o⟩ := by
  unfold toggle at mem
  split at mem
  · exact .inl (List.mem_reverse.1 (List.mem_of_mem_eraseP (List.mem_reverse.1 mem)))
  · simpa using mem

namespace Placed

theorem nil : Placed t lo hi opened ⟨[], [], opened⟩ :=
  ⟨by simp, by simp, .nil, by simp, fun _ mem => .inl mem⟩

theorem mono (placed : Placed t lo' hi opened r) (le : lo ≤ lo') : Placed t lo hi opened r where
  written := placed.written
  inside i mem := (placed.inside i mem).mono le (Int.le_refl _)
  apart := placed.apart
  errors e mem := (placed.errors e mem).mono le (Int.le_refl _)
  opened s mem := (placed.opened s mem).imp_right (·.mono le (Int.le_refl _))

theorem consItem (placed : Placed t lo' hi opened r) (written : i.Written t) (none : i.body? = none)
    (inside : i.span.Inside lo hi) (stop : i.span.stop ≤ lo') :
    Placed t lo hi opened (consItem i r) := by
  have later := placed.mono (Int.le_trans (Int.le_trans inside.start inside.ordered) stop)
  have behind (b : Item) (mem : b ∈ r.items) : i.span.stop ≤ b.span.start :=
    Int.le_trans stop (placed.inside b mem).start
  exact ⟨List.forall_mem_cons.2 ⟨⟨written, none⟩, placed.written⟩,
    List.forall_mem_cons.2 ⟨inside, later.inside⟩, List.pairwise_cons.2 ⟨behind, placed.apart⟩,
    later.errors, later.opened⟩

theorem consError (placed : Placed t lo hi opened r) (inside : e.span.Inside lo hi) :
    Placed t lo hi opened (consError e r) :=
  ⟨placed.written, placed.inside, placed.apart, List.forall_mem_cons.2 ⟨inside, placed.errors⟩,
    placed.opened⟩

theorem toggle {s : OpenSign} (placed : Placed t lo hi (toggle opened s.emphasis s.offset) r)
    (inside : s.span.Inside lo hi) : Placed t lo hi opened r where
  written := placed.written
  inside := placed.inside
  apart := placed.apart
  errors := placed.errors
  opened s' mem := by
    rcases placed.opened s' mem with before | inside'
    · rcases mem_toggle before with before | rfl
      · exact .inl before
      · exact .inr inside
    · exact .inr inside'

end Placed

theorem span_markAt (o : Nat) (name : Text) (closing : Nat) :
    (markAt o name closing).span = ⟨o, (o + (1 + name.length + closing) : Nat)⟩ := by
  simp [markAt, ← Nat.add_assoc]

theorem inside_markAt {closing : Nat} (stop : (o + (1 + name.length + closing) : Nat) ≤ hi) :
    (markAt o name closing).span.Inside o hi := by
  rw [span_markAt]
  exact ⟨Int.le_refl _, Int.ofNat_le.2 (Nat.le_add_right ..), stop⟩

theorem writtenAs_markAt {sign : UInt16} {closing : Text} (valid : isValid name)
    (stands : t.StandsAt o (sign :: (name ++ closing))) :
    (markAt o name closing.length).WrittenAs sign closing t where
  valid := valid
  span := ⟨o, stands, by
    rw [span_markAt, List.length_cons, List.length_append, Nat.add_comm 1, Nat.add_right_comm]
    rfl⟩
  nameSpan := ⟨o + 1, stands.tail.left, rfl⟩
  start := rfl

/-- A mark in front of what a scan finds. -/
theorem Placed.mark {sign : UInt16} (mk : Mark → Item) (closing : Text)
    (placed : Placed t (o + (1 + name.length + closing.length) : Nat) hi opened r)
    (valid : isValid name) (stands : t.StandsAt o (sign :: (name ++ (closing ++ rest))))
    (stop : (o + (1 + name.length + closing.length) : Nat) ≤ hi)
    (is : ∀ m, (m.WrittenAs sign closing t → (mk m).Written t) ∧ (mk m).body? = none ∧
      (mk m).span = m.span) :
    Placed t o hi opened (Inline.consItem (mk (markAt o name closing.length)) r) := by
  obtain ⟨written, none, span⟩ := is (markAt o name closing.length)
  have whole : t.StandsAt o (sign :: (name ++ closing)) := stands.prefix_ ⟨rest, by simp⟩
  exact placed.consItem (written (writtenAs_markAt valid whole)) none (span ▸ inside_markAt stop)
    (Int.le_of_eq (by rw [span, span_markAt]))

theorem Lexed.placed_scan (lexed : Lexed d) (stands : t.StandsAt o d.text)
    (stop : (o + d.text.length : Nat) ≤ hi) (before : Option UInt16) (opened : List OpenSign) :
    Placed t o hi opened (scan 0 o before opened d.text) := by
  induction lexed generalizing o before opened with
  | nil => exact .nil
  | last => exact .nil
  | comment starts =>
    rw [Draft.text_units, scan_comment starts]
    exact .nil
  | @hidden u d lexed ih =>
    simp only [Draft.text_unit_cons, List.length_cons] at stands stop
    have placed := ih (o := o + 2) stands.tail.tail (by omega) (some u) opened
    exact placed.mono (by omega)
  | @label name d valid lexed ih =>
    simp only [Draft.text_unit_cons, Draft.text_name_cons, scan_label valid] at stands stop ⊢
    simp only [List.length_cons, List.length_append] at stop
    have behind : t.StandsAt (o + (1 + name.length + 1)) d.text := by
      simpa [← Nat.add_assoc] using stands.tail.right.tail
    exact (ih behind (by omega) _ opened).mark .label [Text.unit '>'] valid stands
      (by simp only [List.length_singleton]; omega) fun m => ⟨id, rfl, rfl⟩
  | @reference name d valid ends lexed ih =>
    simp only [Draft.text_unit_cons, Draft.text_name_cons, scan_mark (.inl rfl) valid ends,
      if_true] at stands stop ⊢
    simp only [List.length_cons, List.length_append] at stop
    have behind : t.StandsAt (o + (1 + name.length)) d.text := by
      simpa [← Nat.add_assoc] using stands.tail.right
    exact (ih behind (by omega) _ opened).mark .reference [] valid stands
      (by simp only [List.length_nil]; omega) fun m => ⟨id, rfl, rfl⟩
  | @use name d valid free ends lexed ih =>
    have other : Text.unit '#' ≠ Text.unit '@' := by decide
    simp only [Draft.text_unit_cons, Draft.text_name_cons, scan_mark (.inr rfl) valid ends,
      if_neg other, free, Bool.false_eq_true, if_false] at stands stop ⊢
    simp only [List.length_cons, List.length_append] at stop
    have behind : t.StandsAt (o + (1 + name.length)) d.text := by
      simpa [← Nat.add_assoc] using stands.tail.right
    exact (ih behind (by omega) _ opened).mark .use [] valid stands
      (by simp only [List.length_nil]; omega) fun m => ⟨id, rfl, rfl⟩
  | @reserved name d valid reserved ends lexed ih =>
    have other : Text.unit '#' ≠ Text.unit '@' := by decide
    simp only [Draft.text_unit_cons, Draft.text_append, Draft.text_units,
      scan_mark (.inr rfl) valid ends, if_neg other, reserved, if_true] at stands stop ⊢
    simp only [List.length_cons, List.length_append] at stop
    have behind : t.StandsAt (o + (1 + name.length)) d.text := by
      simpa [← Nat.add_assoc] using stands.tail.right
    exact ((ih behind (by omega) _ opened).mono (by omega)).consError (inside_markAt (by omega))
  | @plain u d plain lexed ih =>
    simp only [Draft.text_unit_cons, List.length_cons] at stands stop
    have placed (opened : List OpenSign) := ih (o := o + 1) stands.tail (by omega) (some u) opened
    rw [Draft.text_unit_cons, scan_plain plain]
    split
    next e _ =>
      have inside : (OpenSign.span ⟨e, o⟩).Inside o hi :=
        .of_le (Int.le_refl _) (by omega) (by simp only; omega)
      exact ((placed (Inline.toggle opened e o)).mono (by omega)).toggle inside
    next => exact (placed opened).mono (by omega)

/-- The places of what a scan of any text finds. -/
theorem placed_scan (stands : t.StandsAt o c) (stop : (o + c.length : Nat) ≤ hi)
    (before : Option UInt16)
    (opened : List OpenSign) : Placed t o hi opened (scan 0 o before opened c) := by
  obtain ⟨d, lexed, rfl⟩ := exists_lexed c
  exact lexed.placed_scan stands stop before opened

/-- Of the marks that a scan finds one is before the other. -/
theorem Placed.before (placed : Placed t lo hi opened r) : r.items.Pairwise (Item.Before t) :=
  placed.apart.imp_of_mem fun {a b} mem mem' stop =>
    ⟨Int.le_trans (placed.inside a mem).ordered stop, fun _ => stop,
      fun _ => ⟨(placed.written b mem').2, by simp [(placed.written a mem).2]⟩⟩

theorem exists_of_mem_unclosed (mem : e ∈ unclosed opened) : ∃ s ∈ opened, e.span = s.span := by
  obtain ⟨s, inside, rfl⟩ := List.mem_map.1 mem
  exact ⟨s, inside, rfl⟩

end Inline

/-! ## Lines -/

namespace LineRead

variable {i : Item} {r : LineRead} {p : List Item × List SyntaxError} {x : Text} {start : Nat}

/-- What is read between two offsets of a line, given the signs open before it. -/
structure Placed (t : Text) (lo hi : Int) (opened : List OpenSign) (r : LineRead) : Prop where
  written : ∀ i ∈ r.items, i.Written t
  inside : ∀ i ∈ r.items, i.span.Inside lo hi
  before : r.items.Pairwise (Item.Before t)
  errors : ∀ e ∈ r.errors, e.span.Inside lo hi ∨ ∃ s ∈ opened, e.span = s.span
  opened : ∀ s ∈ r.opened, s ∈ opened ∨ s.span.Inside lo hi

theorem Placed.mono (placed : Placed t lo' hi opened r) (le : lo ≤ lo') :
    Placed t lo hi opened r where
  written := placed.written
  inside i mem := (placed.inside i mem).mono le (Int.le_refl _)
  before := placed.before
  errors e mem := (placed.errors e mem).imp_left (·.mono le (Int.le_refl _))
  opened s mem := (placed.opened s mem).imp_right (·.mono le (Int.le_refl _))

def alone (p : List Item × List SyntaxError) : LineRead := ⟨p.1, p.2, []⟩

theorem placed_of_fails {read : Nat → Text → List Item × List SyntaxError} (fails : Fails read c)
    (stop : (o + c.length : Nat) ≤ hi) : Placed t o hi [] (alone (read o c)) := by
  obtain ⟨n, k, problem, le, le', eq⟩ := fails
  have inside : Span.Inside o hi ⟨(o + n : Nat), (o + k : Nat)⟩ :=
    .of_le (by omega) (by omega) (by omega)
  rw [eq]
  exact ⟨by simp [alone], by simp [alone], .nil, by simpa [alone] using inside, by simp [alone]⟩

/-- A heading or a binding with the marks in its title or value. -/
theorem placed_body (stands : t.StandsAt start c) (written : i.Written t)
    (body : i.body? = some ⟨start, (start + c.length : Nat)⟩) (inside : i.span.Inside lo hi)
    (le : i.span.start ≤ start) (stop : (start + c.length : Nat) ≤ hi) {more : List SyntaxError}
    (others : ∀ e ∈ more, e.span.Inside lo hi) :
    let inline := Inline.scan 0 start none [] c
    Placed t lo hi [] (alone
      (i :: inline.items, inline.errors ++ Inline.unclosed inline.opened ++ more)) := by
  intro inline
  have tight : Inline.Placed t start (start + c.length : Nat) [] inline :=
    Inline.placed_scan stands (Int.le_refl _) none []
  have from_ : lo ≤ start := Int.le_trans inside.start le
  have behind (b : Item) (mem : b ∈ inline.items) : i.Before t b := by
    refine ⟨Int.le_trans le (tight.inside b mem).start,
      fun none => absurd (none.symm.trans body) (by simp),
      fun _ => ⟨(tight.written b mem).2, fun s eq => ?_⟩⟩
    obtain rfl := Option.some.inj (body.symm.trans eq)
    exact (tight.inside b mem).within
  refine ⟨?_, ?_, List.pairwise_cons.2 ⟨behind, tight.before⟩,
    fun e mem => .inl ?_, by simp [alone]⟩
  · exact List.forall_mem_cons.2 ⟨written, fun b mem => (tight.written b mem).1⟩
  · exact List.forall_mem_cons.2 ⟨inside, fun b mem => (tight.inside b mem).mono from_ stop⟩
  · simp only [alone, List.mem_append, or_assoc] at mem
    rcases mem with found | unclosed | other
    · exact (tight.errors e found).mono from_ stop
    · obtain ⟨s, mem, eq⟩ := Inline.exists_of_mem_unclosed unclosed
      rw [eq]
      exact ((tight.opened s mem).resolve_left (by simp)).mono from_ stop
    · exact others e other

theorem prefix_content (x : Text) : content x <+: x := by
  obtain ⟨gap, eq, -⟩ := Text.exists_trimEnd_append (Inline.beforeComment 0 x)
  exact List.IsPrefix.trans ⟨gap, eq.symm⟩ (prefix_beforeComment 0 x)

theorem placed_titled {level : Nat} {span : Span} (stands : t.StandsAt start c)
    (inside : span.Inside lo hi) (le : span.start ≤ start) (stop : (start + c.length : Nat) ≤ hi) :
    Placed t lo hi [] (alone (titled level span start c)) := by
  refine placed_body (i := .heading _) stands ⟨c, stands.readsAt, rfl⟩ rfl inside ?_ stop
    fun e mem => ?_
  · exact le
  · split at mem
    · obtain rfl := List.mem_singleton.1 mem
      exact inside
    · simp at mem

theorem placed_valued {name : Text} {nameStart : Nat} (name_ : t.StandsAt nameStart name)
    (value : t.StandsAt start c) (le : o ≤ start) (stop : (start + c.length : Nat) ≤ hi) :
    Placed t o hi [] (alone (valued name o nameStart start c)) := by
  have inside : Span.Inside o hi ⟨o, (start + c.length : Nat)⟩ :=
    .of_le (Int.le_refl _) (by omega) stop
  rw [valued, ← List.append_nil (_ ++ _)]
  refine placed_body (i := .binding _) value ⟨name_.readsAt, value.readsAt⟩ rfl inside ?_
    stop (by simp)
  exact Int.ofNat_le.2 le

/-- The title of a heading stands behind its marks and the gap, and the whole line is its place. -/
theorem placed_heading (stands : t.StandsAt o c) (stop : (o + c.length : Nat) ≤ hi) :
    Placed t o hi [] (alone (heading o c)) := by
  obtain ⟨marks, rest, rfl, marks_, ends⟩ := Text.exists_run (· == Text.unit '=') c
  obtain ⟨gap, x, rfl, spaces, solid⟩ := Text.exists_run Text.isSpaceOrTab rest
  have title := stands.right.right.prefix_ (prefix_content x)
  have shorter := (prefix_content x).length_le
  obtain ⟨behind, whole, -⟩ := Text.exists_trimEnd_append (marks ++ (gap ++ x))
  have length := congrArg List.length whole
  simp only [List.length_append] at length stop
  have inside : Span.Inside o hi ⟨o, o + (Text.trimEnd (marks ++ (gap ++ x))).length⟩ :=
    .of_le (Int.le_refl _) (by omega) (by omega)
  rw [heading_eq marks_ ends spaces solid]
  exact placed_titled title inside (by simp only; omega) (by omega)

theorem placed_binding (stands : t.StandsAt o (Directive.keyword .binding ++ x))
    (stop : (o + (Directive.keyword .binding ++ x).length : Nat) ≤ hi) :
    Placed t o hi [] (alone (binding o (Directive.keyword .binding ++ x))) := by
  by_cases shape : ∃ gap name gap' tail, x = gap ++ (name ++ (gap' ++ Text.unit '=' :: tail)) ∧
      (∀ u ∈ gap, Text.isSpaceOrTab u = true) ∧ isValid name ∧ ∀ u ∈ gap',
      Text.isSpaceOrTab u = true
  · obtain ⟨gap, name, gap', tail, rfl, spaces, valid, spaces'⟩ := shape
    obtain ⟨gap'', x, rfl, spaces'', solid⟩ := Text.exists_run Text.isSpaceOrTab tail
    have value := stands.right.right.right.right.tail.right.prefix_ (prefix_content x)
    have shorter := (prefix_content x).length_le
    simp only [List.length_append, List.length_cons] at stop
    rw [binding_eq spaces valid spaces' spaces'' solid]
    exact placed_valued stands.right.right.left value (by omega) (by omega)
  · exact placed_of_fails (fails_binding shape) stop

theorem placed_inclusion (uri : Uri) (stands : t.StandsAt o (Directive.keyword .inclusion ++ x))
    (stop : (o + (Directive.keyword .inclusion ++ x).length : Nat) ≤ hi) :
    Placed t o hi [] (alone (inclusion uri o (Directive.keyword .inclusion ++ x))) := by
  rcases inclusion_cases uri x with fails | ⟨gap, path, rest, rfl, read⟩
  · exact placed_of_fails fails stop
  · have path_ := stands.right.right.tail.left.readsAt
    simp only [List.length_append, List.length_cons] at stop
    rw [read]
    refine ⟨?_, ?_, List.pairwise_singleton _ _, by simp [alone], by simp [alone]⟩
    · exact List.forall_mem_singleton.2 path_
    · exact List.forall_mem_singleton.2 (.of_le (Int.le_refl _) (by omega) (by omega))

end LineRead

namespace Module

open LineRead (alone)

variable {indent : Text} {l : Line} {lines : List Line}

/-- What is read apart from its paragraph reports the signs that the paragraph leaves open, too. -/
theorem placed_apart {p : List Item × List SyntaxError}
    (placed : LineRead.Placed t lo hi [] (alone p))
    (opened : List OpenSign) : LineRead.Placed t lo hi opened (apart opened p) where
  written := placed.written
  inside := placed.inside
  before := placed.before
  errors e mem := by
    rcases List.mem_append.1 mem with before | own
    · exact .inr (Inline.exists_of_mem_unclosed before)
    · exact .inl ((placed.errors e own).resolve_right (by simp))
  opened := by simp [apart]

theorem placed_readAt (uri : Uri) (opened : List OpenSign) (stands : t.StandsAt o c)
    (stop : (o + c.length : Nat) ≤ hi) : LineRead.Placed t o hi opened (readAt uri opened o c) := by
  cases form c with
  | empty =>
    exact ⟨by simp [readAt], by
        simp [readAt], .nil, fun e mem => .inr (Inline.exists_of_mem_unclosed mem),
      by simp [readAt]⟩
  | comment slashes =>
    rw [readAt_comment slashes]
    exact ⟨by simp, by simp, .nil, by simp, fun s mem => .inl mem⟩
  | heading tail => exact placed_apart (LineRead.placed_heading stands stop) opened
  | binding ends =>
    rw [readAt_binding ends]
    exact placed_apart (LineRead.placed_binding stands stop) opened
  | inclusion ends =>
    rw [readAt_inclusion ends]
    exact placed_apart (LineRead.placed_inclusion uri stands stop) opened
  | text text =>
    have placed := Inline.placed_scan stands stop none opened
    rw [text.readAt_eq]
    exact ⟨fun i mem => (placed.written i mem).1, placed.inside, placed.before,
      fun e mem => .inl (placed.errors e mem), placed.opened⟩

theorem placed_readLine (uri : Uri) (opened : List OpenSign)
    (stands : t.StandsAt l.start l.content) :
    LineRead.Placed t l.start l.stop opened (readLine uri opened l) := by
  obtain ⟨start, content⟩ := l
  obtain ⟨indent, blank, eq⟩ := Text.exists_blank_append_trimStart content
  have solid : ∀ u ∈ (Text.trimStart content).head?, Text.isBlank u = false := fun u =>
    Text.not_isBlank_of_mem_head?_trimStart
  generalize Text.trimStart content = c at eq solid
  subst eq
  rw [readLine_append blank solid]
  refine (placed_readAt uri opened stands.right ?_).mono (Int.ofNat_le.2 (Nat.le_add_right ..))
  simp only [Line.stop, List.length_append]
  omega

/-! ## Documents -/

structure Placed (t : Text) (lines : List Line) (p : List Item × List SyntaxError) : Prop where
  written : ∀ i ∈ p.1, i.Written t
  inside : ∀ i ∈ p.1, ∃ l ∈ lines, i.span.Inside l.start l.stop
  before : p.1.Pairwise (Item.Before t)
  errors : ∀ e ∈ p.2, t.OnLine e.span

theorem before_of_lt {l' : Line} {a b : Item} (mem : l ∈ t.lines) (mem' : l' ∈ t.lines)
    (lt : l.stop < l'.start)
    (a_ : a.span.Inside l.start l.stop) (b_ : b.span.Inside l'.start l'.stop) : a.Before t b := by
  obtain ⟨from_, ordered, to_⟩ := a_
  obtain ⟨from_', ordered', to_'⟩ := b_
  refine ⟨by omega, fun _ => by omega, fun same => ?_⟩
  obtain rfl := (Text.sameLine_iff mem mem' ⟨from_, by omega⟩ ⟨from_', by omega⟩).1 same
  simp only [Line.stop] at lt
  omega

theorem placed_readLines (uri : Uri) (sub : ∀ l ∈ lines, l ∈ t.lines)
    (sorted : lines.Pairwise fun a b => a.stop < b.start)
    (signs : ∀ s ∈ opened, t.OnLine s.span) : Placed t lines (readLines uri opened lines) := by
  induction lines generalizing opened with
  | nil =>
    refine ⟨by simp [readLines], by simp [readLines], .nil, fun e mem => ?_⟩
    obtain ⟨s, inside, eq⟩ := Inline.exists_of_mem_unclosed mem
    exact eq ▸ signs s inside
  | cons l lines ih =>
    obtain ⟨behind, sorted⟩ := List.pairwise_cons.1 sorted
    have mem := sub l (by simp)
    have first := placed_readLine uri opened (Text.standsAt_of_mem_lines mem)
    have later : ∀ s ∈ (readLine uri opened l).opened, t.OnLine s.span := fun s inside =>
      (first.opened s inside).elim (signs s) (Text.onLine_of_inside mem)
    have others := ih (fun l inside => sub l (by simp [inside])) sorted later
    refine ⟨?_, ?_, List.pairwise_append.2 ⟨first.before, others.before, fun a a_ b b_ => ?_⟩, ?_⟩
    · exact List.forall_mem_append.2 ⟨first.written, others.written⟩
    · refine List.forall_mem_append.2 ⟨fun i inside => ⟨l, by simp, first.inside i inside⟩,
        fun i inside => ?_⟩
      obtain ⟨l, inLines, inside⟩ := others.inside i inside
      exact ⟨l, by simp [inLines], inside⟩
    · obtain ⟨l', inLines, inside⟩ := others.inside b b_
      exact before_of_lt mem (sub l' (by simp [inLines])) (behind l' inLines) (first.inside a a_)
        inside
    · refine List.forall_mem_append.2 ⟨fun e inside => ?_, others.errors⟩
      rcases first.errors e inside with own | ⟨s, open_, eq⟩
      · exact Text.onLine_of_inside mem own
      · exact eq ▸ signs s open_

theorem placed_lines (uri : Uri) (t : Text) : Placed t t.lines (readLines uri [] t.lines) :=
  placed_readLines uri (fun _ => id) (Text.pairwise_linesFrom 0 t) (by simp)

theorem pairwise_before (uri : Uri) (t : Text) : (read uri t).items.Pairwise (Item.Before t) :=
  (placed_lines uri t).before

theorem written_of_mem_items {i : Item} (mem : i ∈ (read uri t).items) : i.Written t :=
  (placed_lines uri t).written i mem

theorem onLine_of_mem_items {i : Item} (mem : i ∈ (read uri t).items) : t.OnLine i.span := by
  obtain ⟨l, inText, inside⟩ := (placed_lines uri t).inside i mem
  exact Text.onLine_of_inside inText inside

theorem onLine_of_mem_errors {e : SyntaxError} (mem : e ∈ (read uri t).errors) : t.OnLine e.span :=
  (placed_lines uri t).errors e ((sortBy_perm _ _).mem_iff.1 mem)

/-- What is on the line of a heading or a binding is in its title or value. -/
theorem within_body_of_sameLine {i j : Item} {body : Span} (mem : i ∈ (read uri t).items)
    (eq : i.body? = some body) (mem' : j ∈ (read uri t).items) (none : j.body? = none)
    (same : t.SameLine j.span.start i.span.start) :
    j.span.within body := by
  have before := pairwise_before uri t
  obtain ⟨front, behind, split⟩ := List.append_of_mem mem
  simp only [split] at mem' before
  obtain ⟨-, after, across⟩ := List.pairwise_append.1 before
  rcases List.mem_append.1 mem' with ahead | own
  · -- a heading or a binding is the first item of its line
    have other := ((across j ahead i (by simp)).sameLine same).1
    simp [other] at eq
  · rcases List.mem_cons.1 own with rfl | later
    · simp [none] at eq
    · exact (((List.pairwise_cons.1 after).1 j later).sameLine same.symm).2 body eq

/-- The places of a document that has been read. Its items are in order, each item and each error is
on a line of the text, and the items stand where they say. Labels, references, uses and inclusions
share no unit; on the line of a heading or a binding they are in its title or value. -/
structure Exact (t : Text) (m : Module) : Prop where
  ordered : m.items.Pairwise fun a b => a.span.start ≤ b.span.start
  items_onLine : ∀ i ∈ m.items, t.OnLine i.span
  errors_onLine : ∀ e ∈ m.errors, t.OnLine e.span
  written : ∀ i ∈ m.items, i.Written t
  apart : (m.items.filter fun i => i.body?.isNone).Pairwise fun a b => a.span.stop ≤ b.span.start
  enclosed : ∀ i ∈ m.items, ∀ body ∈ i.body?, ∀ j ∈ m.items, j.body? = none →
    t.SameLine j.span.start i.span.start → j.span.within body

/-- The places of a document are exact. -/
theorem exact_read (uri : Uri) (t : Text) : (read uri t).Exact t where
  ordered := (pairwise_before uri t).imp fun before => before.start_le
  items_onLine _ := onLine_of_mem_items
  errors_onLine _ := onLine_of_mem_errors
  written _ := written_of_mem_items
  apart := by
    refine List.pairwise_filter.2 ((pairwise_before uri t).imp fun before a_ _ => before.stop_le ?_)
    simpa using a_
  enclosed _ mem _ eq _ mem' none same := within_body_of_sameLine mem eq mem' none same

end Module

end Quill
