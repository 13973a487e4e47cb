import Quill.Data.Sort
import Quill.Proofs.Markup.Places
import Quill.Proofs.Markup.RenamedDocuments

/-!
# Reading across a blank line

Nothing that is read goes over a blank line: a document with one in it is read as the document in
front of it and the document behind it, which lies further back.

## Main definitions

* `Item.shift`, `SyntaxError.shift` — an item and an error further back in a text.

## Main statements

* `Module.readLines_linesFrom` — where a document starts only matters to the places.
* `Module.readLines_append_blank` — lines in front of a blank line and behind it.
* `Module.read_append_blank` — a document with a blank line in it.
-/

namespace Quill

open List (Forall₂)
open Text (Unbroken linesFrom lineFeed carriageReturn)

/-! ## Further back -/

/-- The place `n` units further back. -/
def Span.shift (n : Nat) (s : Span) : Span := ⟨s.start + n, s.stop + n⟩

def Mark.shift (n : Nat) (m : Mark) : Mark :=
  { m with span := m.span.shift n, nameSpan := m.nameSpan.shift n }

def Heading.shift (n : Nat) (h : Heading) : Heading :=
  { h with span := h.span.shift n, titleSpan := h.titleSpan.shift n }

def Binding.shift (n : Nat) (b : Binding) : Binding :=
  { b with span := b.span.shift n, nameSpan := b.nameSpan.shift n, valueSpan :=
    b.valueSpan.shift n }

def Inclusion.shift (n : Nat) (i : Inclusion) : Inclusion :=
  { i with span := i.span.shift n, pathSpan := i.pathSpan.shift n }

def Item.shift (n : Nat) : Item → Item
  | heading h => heading (h.shift n)
  | label m => label (m.shift n)
  | reference m => reference (m.shift n)
  | binding b => binding (b.shift n)
  | use m => use (m.shift n)
  | inclusion i => inclusion (i.shift n)

def SyntaxError.shift (n : Nat) (e : SyntaxError) : SyntaxError := { e with span := e.span.shift n }

def Behind (n : Nat) (x x' : Int) : Prop := x' = x + n

variable {n o : Nat} {a b t : Text} {uri : Uri} {opened : List OpenSign}

theorem Span.Moved.eq_shift {s s' : Span} (moved : s.Moved (Behind n) s') : s' = s.shift n :=
  Span.mk.injEq .. ▸ moved

theorem Mark.Renamed.eq_shift {m m' : Mark} (same : m.Renamed id (Behind n) m') :
    m' = m.shift n := by
  obtain ⟨name, span, nameSpan⟩ := m'
  obtain rfl : name = m.name := same.name
  obtain rfl := same.span.eq_shift
  obtain rfl := same.nameSpan.eq_shift
  rfl

theorem Heading.Renamed.eq_shift {h h' : Heading} (same : h.Renamed .refl (Behind n) h') :
    h' = h.shift n := by
  obtain ⟨level, title, span, titleSpan, label⟩ := h'
  obtain ⟨c, c', ⟨d, -, text, text'⟩, title_eq, title_eq'⟩ := same.title
  obtain rfl : title = h.title :=
    title_eq'.trans (by rw [title_eq, ← text, ← text', Draft.rename_refl])
  obtain rfl : level = h.level := same.level
  obtain rfl : label = h.label := same.label.trans Option.map_id'
  obtain rfl := same.span.eq_shift
  obtain rfl := same.titleSpan.eq_shift
  rfl

theorem Binding.Renamed.eq_shift {b b' : Binding}
    (same : b.Renamed .refl (Behind n) b') : b' = b.shift n := by
  obtain ⟨name, value, span, nameSpan, valueSpan⟩ := b'
  obtain ⟨d, -, text, text'⟩ := same.value
  obtain rfl : value = b.value := text'.symm.trans (by rw [Draft.rename_refl, text])
  obtain rfl : name = b.name := same.name
  obtain rfl := same.span.eq_shift
  obtain rfl := same.nameSpan.eq_shift
  obtain rfl := same.valueSpan.eq_shift
  rfl

theorem Inclusion.Moved.eq_shift {i i' : Inclusion} (moved : i.Moved (Behind n) i') :
    i' = i.shift n := by
  obtain ⟨specifier, target, span, pathSpan⟩ := i'
  obtain rfl : specifier = i.specifier := moved.specifier
  obtain rfl : target = i.target := moved.target
  obtain rfl := moved.span.eq_shift
  obtain rfl := moved.pathSpan.eq_shift
  rfl

/-- Under its own names an item is the same item, in another place. -/
theorem Item.Renamed.eq_shift {i i' : Item} (same : i.Renamed .refl (Behind n) i') :
    i' = i.shift n := by
  cases same with
  | heading same => exact congrArg Item.heading same.eq_shift
  | label same => exact congrArg Item.label same.eq_shift
  | reference same => exact congrArg Item.reference same.eq_shift
  | binding same => exact congrArg Item.binding same.eq_shift
  | use same => exact congrArg Item.use same.eq_shift
  | inclusion same => exact congrArg Item.inclusion same.eq_shift

theorem SyntaxError.Moved.eq_shift {e e' : SyntaxError} (moved : e.Moved (Behind n) e') :
    e' = e.shift n := by
  obtain ⟨problem, span⟩ := e'
  obtain rfl : problem = e.problem := moved.problem
  obtain rfl := moved.span.eq_shift
  rfl

theorem Draft.follows_behind (d : Draft) (o : Nat) :
    d.Follows .refl (Behind n) o (o + n : Nat) := by
  induction d generalizing o with
  | nil => simp [Draft.Follows, Behind]
  | cons p d ih =>
    have same : p.rename .refl = p := by cases p <;> rfl
    refine ⟨by simp [Behind], ?_⟩
    rw [same, Nat.add_right_comm]
    exact ih _

namespace Module

/-- Where a document starts only matters to the places of what is read. -/
theorem readLines_linesFrom (uri : Uri) (n : Nat) (t : Text) : readLines uri [] (linesFrom n t) =
    let own := readLines uri [] t.lines
    (own.1.map (Item.shift n), own.2.map (SyntaxError.shift n)) := by
  obtain ⟨d, rfl, draft⟩ := exists_linesDraft uri t
  have parts := draft.renamed (d.follows_behind (n := n) 0) .nil
  rw [Draft.rename_refl, Nat.zero_add] at parts
  exact Prod.ext (Related.eq_map parts.items fun _ _ => Item.Renamed.eq_shift)
    (Related.eq_map parts.errors fun _ _ => SyntaxError.Moved.eq_shift)

theorem readLine_nil (uri : Uri) (opened : List OpenSign) (start : Nat) :
    readLine uri opened ⟨start, []⟩ = ⟨[], Inline.unclosed opened, []⟩ := rfl

/-- Lines in front of a blank line are read by themselves, and so are those behind it. -/
theorem readLines_append_blank (uri : Uri) (opened : List OpenSign) (o : Nat) (a b : Text) :
    readLines uri opened (linesFrom o (a ++ lineFeed :: lineFeed :: b)) =
      let front := readLines uri opened (linesFrom o a)
      let behind := readLines uri [] (linesFrom (o + a.length + 2) b)
      (front.1 ++ behind.1, front.2 ++ behind.2) := by
  have blank (o : Nat) : linesFrom o (lineFeed :: b) = ⟨o, []⟩ :: linesFrom (o + 1) b :=
    Text.linesFrom_lineBreak .feed o
  induction a using Text.line_induction generalizing opened o with
  | last line unbroken =>
    have first : linesFrom o (line ++ lineFeed :: lineFeed :: b) =
        ⟨o, line⟩ :: linesFrom (o + line.length + 1) (lineFeed :: b) :=
      Text.linesFrom_append_lineBreak unbroken .feed o
    simp [first, blank, Text.linesFrom_unbroken unbroken, readLines, readLine_nil]
  | more line u rest unbroken break_ ih =>
    obtain ⟨br, eq, br_⟩ := Text.exists_lineBreak break_ rest
    rw [eq]
    generalize Text.behindBreak u rest = rest at *
    by_cases inside : br ≠ [carriageReturn] ∨ rest ≠ []
    · have lines := Text.linesFrom_append_lineBreak unbroken
          (br_.append inside (lineFeed :: lineFeed :: b)) o
      simp only [List.append_assoc, lines, Text.linesFrom_append_lineBreak unbroken br_,
        readLines, ih, List.length_append, Nat.add_assoc]
    · -- the carriage return and the first line feed are one line break
      obtain ⟨rfl, rfl⟩ : br = [carriageReturn] ∧ rest = [] := by simpa [not_or] using inside
      have pair : linesFrom o (line ++ carriageReturn :: lineFeed :: lineFeed :: b) =
          ⟨o, line⟩ :: linesFrom (o + line.length + 2) (lineFeed :: b) :=
        Text.linesFrom_append_lineBreak unbroken .pair o
      have alone : linesFrom o (line ++ [carriageReturn]) =
          [⟨o, line⟩, ⟨o + line.length + 1, []⟩] :=
        Text.linesFrom_append_lineBreak unbroken br_ o
      simp [pair, alone, blank, readLines, readLine_nil, Inline.unclosed, Nat.add_assoc]

/-- Errors in front of a blank line come before those behind it. -/
theorem le_shift {e e' : SyntaxError} (mem : e ∈ (readLines uri [] a.lines).2)
    (mem' : e' ∈ (readLines uri [] b.lines).2) : e.span.le (e'.shift (a.length + 2)).span := by
  obtain ⟨part, reads, -⟩ := ((placed_lines uri a).errors e mem).reads
  obtain ⟨part', reads', -⟩ := ((placed_lines uri b).errors e' mem').reads
  have := Int.le_trans reads.inside.ordered reads.inside.stop
  have := reads'.inside.start
  simp only [Span.le, Span.difference, SyntaxError.shift, Span.shift]
  grind

theorem sortBy_shift (n : Nat) (errors : List SyntaxError) :
    sortBy (fun a b => a.span.le b.span) (errors.map (SyntaxError.shift n)) =
      (sortBy (fun a b => a.span.le b.span) errors).map (SyntaxError.shift n) := by
  have same (e e' : SyntaxError) : (e.shift n).span.le (e'.shift n).span = e.span.le e'.span := by
    simp only [Span.le, Span.difference, SyntaxError.shift, Span.shift]
    grind
  simp only [sortBy_map, same]

/-- A document with a blank line in it is read as what stands in front of it, and what stands behind
it. -/
theorem read_append_blank (uri : Uri) (a b : Text) : read uri (a ++ "\n\n" ++ b) =
    ⟨uri, (read uri a).items ++ (read uri b).items.map (Item.shift (a.length + 2)),
      (read uri a).errors ++ (read uri b).errors.map (SyntaxError.shift (a.length + 2))⟩ := by
  have breaks : Text.ofString "\n\n" = [lineFeed, lineFeed] := by decide
  have lines := readLines_append_blank uri [] 0 a b
  rw [Nat.zero_add, readLines_linesFrom uri (a.length + 2) b] at lines
  have ordered : ∀ e ∈ (readLines uri [] a.lines).2,
      ∀ e' ∈ (readLines uri [] b.lines).2.map (SyntaxError.shift (a.length + 2)),
      e.span.le e'.span := by
    intro e mem e' mem'
    obtain ⟨e', inside, rfl⟩ := List.mem_map.1 mem'
    exact le_shift mem inside
  have errors := sortBy_append ordered
  rw [sortBy_shift] at errors
  rw [breaks, List.append_assoc, List.cons_append, List.singleton_append, read, Text.lines, lines]
  exact congrArg (Module.mk uri _) errors

-- The carriage return goes with the first line feed, and each side leaves its own sign open.
example :
    let m := read "/m" ("*a\r" ++ "\n\n" ++ "@b*")
    m.items.map Item.span = [⟨5, 7⟩] ∧ m.errors.map (·.span) = [⟨0, 1⟩, ⟨7, 8⟩] := by
  decide +kernel

end Module

end Quill
