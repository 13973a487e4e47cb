import Quill.Proofs.Text.Places

/-!
# Offsets and positions

An offset of a text and its position determine each other, but for the offsets inside a line break
of two units. Both conversions keep the order, and what is outside the text goes to its nearer end.

## Main definitions

* `Text.WholeLines`, `Text.HasLine` — the lines of a text, said without its table.
* `LineTable.Faithful` — what the conversions of a table do.

## Main statements

* `Text.getElem?_lines_iff` — the table holds the lines of the text.
* `LineTable.positionAt_of_line` — the position of an offset between the ends of a line.
* `LineTable.positionAt_lt`, `LineTable.offsetAt_mono` — the conversions keep the order.
* `LineTable.faithful_ofText` — the table of a text converts as it should.
-/

namespace Quill

theorem Position.lt_of_le_of_ne {p q : Position} (le : p.le q) (ne : p ≠ q) : p.lt q := by
  have := mt Position.difference_eq_zero_iff.1 ne
  simp only [Position.le, Position.lt, decide_eq_true_eq] at le ⊢
  omega

namespace Text

/-- `front` is `n` lines with their line breaks, given what stands behind them. -/
inductive WholeLines (behind : Text) : Nat → Text → Prop
  | nil : WholeLines behind 0 []
  | cons {line br front : Text} {n : Nat} (unbroken : Unbroken line)
    (br_ : LineBreak (front ++ behind) br)
      (more : WholeLines behind n front) : WholeLines behind (n + 1) (line ++ (br ++ front))

def EndsLine (behind : Text) :
    Prop := behind = [] ∨ ∃ br rest, behind = br ++ rest ∧ LineBreak rest br

/-- Line `n` of the text holds `content`, from the offset `start` on. -/
def HasLine (t : Text) (n start : Nat) (content : Text) : Prop :=
  ∃ front behind, t = front ++ (content ++ behind) ∧ front.length = start ∧
    WholeLines (content ++ behind) n front ∧ Unbroken content ∧ EndsLine behind

variable {t line front behind content br : Text} {n start base : Nat} {l : Line}

/-- Behind a line break the numbers of the lines go on. -/
theorem HasLine.after_line {rest : Text} (has : HasLine rest n start content)
    (unbroken : Unbroken line) (br_ : LineBreak rest br) :
    HasLine (line ++ (br ++ rest)) (n + 1) (line.length + br.length + start) content := by
  obtain ⟨front, behind, rfl, rfl, lines, whole, ends⟩ := has
  exact ⟨line ++ (br ++ front),
    behind, by simp, by simp [Nat.add_assoc], .cons unbroken br_ lines, whole, ends⟩

theorem getElem?_linesFrom_of_wholeLines (lines : WholeLines (content ++ behind) n front)
    (whole : Unbroken content) (ends : EndsLine behind) (base : Nat) :
    (linesFrom base (front ++ (content ++ behind)))[n]? = some ⟨base + front.length, content⟩ := by
  generalize eq : content ++ behind = rest at lines
  induction lines generalizing base with
  | nil =>
    subst eq
    rcases ends with rfl | ⟨br, rest, rfl, br_⟩
    · simp [linesFrom_unbroken whole]
    · simp [linesFrom_append_lineBreak whole br_]
  | @cons line br front n unbroken br_ more ih =>
    simp only [List.append_assoc, linesFrom_append_lineBreak unbroken br_, List.getElem?_cons_succ,
      ih, List.length_append, Nat.add_assoc]

theorem hasLine_of_getElem? (found : (linesFrom base t)[n]? = some l) :
    ∃ start, l.start = base + start ∧ t.HasLine n start l.content := by
  induction t using line_induction generalizing base n with
  | last line unbroken =>
    obtain ⟨rfl, rfl⟩ : n = 0 ∧ ⟨base, line⟩ = l := by
      rw [linesFrom_unbroken unbroken] at found
      cases n <;> simp_all
    exact ⟨0, rfl, [], [], by simp, rfl, .nil, unbroken, .inl rfl⟩
  | more line b rest unbroken break_ ih =>
    obtain ⟨br, eq, br_⟩ := exists_lineBreak break_ rest
    rw [eq, linesFrom_append_lineBreak unbroken br_] at found
    rw [eq]
    cases n with
    | zero =>
      obtain rfl : ⟨base, line⟩ = l := by simpa using found
      exact ⟨0, rfl, [], _, rfl, rfl, .nil, unbroken, .inr ⟨br, _, rfl, br_⟩⟩
    | succ n =>
      obtain ⟨start, at_start, has⟩ := ih (by simpa using found)
      exact ⟨_, by omega, has.after_line unbroken br_⟩

theorem getElem?_lines_iff : t.lines[n]? = some ⟨start, content⟩ ↔ t.HasLine n start content := by
  constructor
  · intro found
    obtain ⟨_, at_start, has⟩ := hasLine_of_getElem? found
    obtain rfl : start = _ := at_start.trans (Nat.zero_add _)
    exact has
  · rintro ⟨front, behind, rfl, rfl, lines, whole, ends⟩
    have found := getElem?_linesFrom_of_wholeLines lines whole ends 0
    rw [Nat.zero_add] at found
    exact found

end Text

namespace LineTable

open Text (SplitsBreak)

variable {t : Text} {l : Line} {i o o' : Nat} {p q : Position}

/-! ## From offsets to positions -/

/-- The position of an offset counts from the start of one of the lines. -/
theorem exists_positionAt_eq (le : o ≤ t.length) : ∃ i l, t.lines[i]? = some l ∧
    (ofText t).positionAt o = ⟨(i : Nat), (o : Int) - l.start⟩ := by
  obtain ⟨line, others, lines⟩ := List.exists_cons_of_ne_nil (Text.lines_ne_nil t)
  have split : (ofText t).lines = [] ++ line :: others := lines
  obtain ⟨i, located, found⟩ := @locate_eq _ _ _ _ o split
  have clamped : (ofText t).clamp o = o := by simp only [clamp, ofText]; omega
  have tail : (ofText t).lines.tail = others := by simp [ofText, lines]
  have start : line.start = 0 := Text.start_of_linesFrom lines
  rw [start] at located
  exact ⟨i, _, found, by rw [positionAt, clamped, tail]; exact located⟩

/-- Between the ends of a line an offset has the number of the line and the distance from its
start. -/
theorem positionAt_of_line (at_i : t.lines[i]? = some l) (start : l.start ≤ o) (stop : o ≤ l.stop) :
    (ofText t).positionAt o = ⟨(i : Nat), (o : Int) - l.start⟩ := by
  have inText : l.stop ≤ t.length :=
    (Text.standsAt_of_mem_lines (List.mem_of_getElem? at_i)).length_le
  obtain ⟨j, l', at_j, eq⟩ := exists_positionAt_eq (t := t) (Nat.le_trans stop inText)
  have number := Text.line_positionAt at_i (Int.ofNat_le.2 start) (Int.ofNat_le.2 stop)
  obtain rfl : j = i := by simpa only [eq, Int.natCast_inj] using number
  obtain rfl : l = l' := Option.some.inj (at_i.symm.trans at_j)
  exact eq

theorem positionAt_inj (le : o ≤ t.length) (le' : o' ≤ t.length)
    (same : (ofText t).positionAt o = (ofText t).positionAt o') : o = o' := by
  obtain ⟨i, l, at_i, eq⟩ := exists_positionAt_eq le
  obtain ⟨j, l', at_j, eq'⟩ := exists_positionAt_eq le'
  rw [eq, eq', Position.mk.injEq] at same
  obtain rfl : i = j := by omega
  obtain rfl : l = l' := Option.some.inj (at_i.symm.trans at_j)
  omega

theorem positionAt_lt (lt : o < o') (le : o' ≤ t.length) :
    ((ofText t).positionAt o).lt ((ofText t).positionAt o') := by
  refine Position.lt_of_le_of_ne (positionAt_le (by omega) _) fun same => ?_
  have := positionAt_inj (by omega) le same
  omega

/-- Positions are ordered as the offsets of a text are. -/
theorem positionAt_le_iff {i j : Int} (nonneg : 0 ≤ j) (le : i ≤ t.length) :
    ((ofText t).positionAt i).le ((ofText t).positionAt j) ↔ i ≤ j := by
  refine ⟨fun before => Int.not_lt.1 fun lt => ?_, fun le => positionAt_le le _⟩
  have after : ((ofText t).positionAt j.toNat).lt ((ofText t).positionAt i.toNat) :=
    positionAt_lt (by omega) (by omega)
  rw [Int.toNat_of_nonneg nonneg, Int.toNat_of_nonneg (by omega)] at after
  rw [Position.lt_eq_false_of_le before] at after
  exact Bool.noConfusion after

/-! ## From positions to offsets -/

theorem offsetAt_cases (t : Text) (p : Position) :
    (p.line < 0 ∧ (ofText t).offsetAt p = 0) ∨
    (t.lines.length ≤ p.line ∧ (ofText t).offsetAt p = t.length) ∨
    ∃ i l, p.line = (i : Nat) ∧ t.lines[i]? = some l ∧
      (ofText t).offsetAt p = min l.stop (l.start + p.character.toNat) := by
  by_cases neg : p.line < 0
  · exact .inl ⟨neg, by rw [offsetAt, if_pos neg]⟩
  obtain ⟨i, number⟩ := Int.eq_ofNat_of_zero_le (Int.not_lt.1 neg)
  rw [offsetAt, if_neg neg]
  simp only [number, Int.toNat_natCast]
  cases found : (ofText t).lines[i]? with
  | none => exact .inr (.inl ⟨Int.ofNat_le.2 (List.getElem?_eq_none_iff.1 found), rfl⟩)
  | some l => exact .inr (.inr ⟨i, l, rfl, found, rfl⟩)

theorem stop_le_length (at_i : t.lines[i]? = some l) : l.stop ≤ t.length :=
  (Text.standsAt_of_mem_lines (List.mem_of_getElem? at_i)).length_le

theorem offsetAt_le (t : Text) (p : Position) : (ofText t).offsetAt p ≤ t.length := by
  rcases offsetAt_cases t p with ⟨-, eq⟩ | ⟨-, eq⟩ | ⟨i, l, -, at_i, eq⟩
  · omega
  · omega
  · have := stop_le_length at_i
    omega

theorem not_splitsBreak_of_line (at_i : t.lines[i]? = some l) (start : l.start ≤ o)
    (stop : o ≤ l.stop) :
    ¬ SplitsBreak t o := by
  intro splits
  have back := offsetAt_positionAt_of_splitsBreak splits
  have found : (ofText t).lines[i]? = some l := at_i
  rw [positionAt_of_line at_i start stop, offsetAt, if_neg (by simp)] at back
  simp only [Int.toNat_natCast, found] at back
  omega

theorem not_splitsBreak_length : ¬ SplitsBreak t t.length := by
  rintro ⟨front, behind, rfl, eq⟩
  simp at eq

theorem not_splitsBreak_offsetAt (t : Text) (p : Position) :
    ¬ SplitsBreak t ((ofText t).offsetAt p) := by
  rcases offsetAt_cases t p with ⟨-, eq⟩ | ⟨-, eq⟩ | ⟨i, l, -, at_i, eq⟩ <;> rw [eq]
  · exact Text.not_splitsBreak_zero
  · exact not_splitsBreak_length
  · exact not_splitsBreak_of_line at_i (by simp [Line.stop]) (by omega)

/-- Of two lines of a text the one with the smaller number ends first. -/
theorem stop_lt_start {j : Nat} {l' : Line} (at_i : t.lines[i]? = some l)
    (at_j : t.lines[j]? = some l') (lt : i < j) : l.stop < l'.start := by
  obtain ⟨inside, rfl⟩ := List.getElem?_eq_some_iff.1 at_i
  obtain ⟨inside', rfl⟩ := List.getElem?_eq_some_iff.1 at_j
  exact List.pairwise_iff_getElem.1 (Text.pairwise_linesFrom 0 t) i j inside inside' lt

/-- A later position has no earlier offset. -/
theorem offsetAt_mono (le : p.le q) (t : Text) : (ofText t).offsetAt p ≤ (ofText t).offsetAt q := by
  have lines : p.line ≤ q.line ∧ (p.line = q.line → p.character ≤ q.character) := by
    simp only [Position.le, Position.difference] at le
    grind
  have inText := offsetAt_le t p
  rcases offsetAt_cases t p with ⟨-, eq⟩ | ⟨behind, eq⟩ | ⟨i, l, number, at_i, eq⟩ <;>
    rcases offsetAt_cases t q with ⟨before, eq'⟩ | ⟨-, eq'⟩ | ⟨j, l', number', at_j, eq'⟩
  any_goals omega
  · have := (List.getElem?_eq_some_iff.1 at_j).1
    omega
  · rcases Nat.lt_or_ge i j with lt | ge
    · have := stop_lt_start at_i at_j lt
      simp only [Line.stop] at *
      omega
    · obtain rfl : i = j := by omega
      obtain rfl : l = l' := Option.some.inj (at_i.symm.trans at_j)
      have := lines.2 (number.trans number'.symm)
      omega

/-! ## There and back -/

/-- The conversions of the table of a text. Offsets go to positions and back, those inside a line
break to the front of it. Positions are in the order of the offsets, and all that is outside the
text is at its nearer end. A position has an offset of the text outside its line breaks, a later
position no earlier one. On a line of the text positions go to offsets and back. -/
structure Faithful (t : Text) (table : LineTable) : Prop where
  offsetAt_positionAt : ∀ o :
  Nat, o ≤ t.length → ¬ SplitsBreak t o → table.offsetAt (table.positionAt o) = o
  offsetAt_positionAt_inside : ∀ o :
  Nat, SplitsBreak t o → table.offsetAt (table.positionAt o) = o - 1
  positionAt_lt : ∀ o o' : Int, 0 ≤ o → o < o' → o' ≤ t.length →
    (table.positionAt o).lt (table.positionAt o')
  positionAt_before : ∀ o : Int, o ≤ 0 → table.positionAt o = table.positionAt 0
  positionAt_behind : ∀ o : Int, t.length ≤ o → table.positionAt o = table.positionAt t.length
  offsetAt_le : ∀ p, table.offsetAt p ≤ t.length
  offsetAt_apart : ∀ p, ¬ SplitsBreak t (table.offsetAt p)
  offsetAt_mono : ∀ p q : Position, p.le q → table.offsetAt p ≤ table.offsetAt q
  positionAt_offsetAt : ∀ (p : Position) (n start : Nat) (content : Text),
  t.HasLine n start content →
    p.line = n → 0 ≤ p.character → p.character ≤ content.length →
    table.offsetAt p = start + p.character ∧ table.positionAt (table.offsetAt p) = p

/-- On a line of the text the offset of a position counts from its start, and leads back. -/
theorem positionAt_offsetAt {n start : Nat} {content : Text} (has : t.HasLine n start content)
    (number : p.line = n) (nonneg : 0 ≤ p.character) (le : p.character ≤ content.length) :
    (ofText t).offsetAt p = start + p.character ∧ (ofText t).positionAt ((ofText t).offsetAt p) =
      p := by
  have at_n := Text.getElem?_lines_iff.2 has
  obtain ⟨line, character⟩ := p
  obtain ⟨k, rfl⟩ : ∃ k : Nat, character = k := Int.eq_ofNat_of_zero_le nonneg
  obtain rfl : line = n := number
  have le : k ≤ content.length := Int.ofNat_le.1 le
  have found : (ofText t).lines[n]? = some ⟨start, content⟩ := at_n
  have offset : (ofText t).offsetAt ⟨(n : Nat), (k : Nat)⟩ = start + k := by
    rw [offsetAt, if_neg (by simp)]
    simp only [Int.toNat_natCast, found, Line.stop]
    omega
  refine ⟨by simp only [offset]; omega, ?_⟩
  rw [offset, positionAt_of_line at_n (Nat.le_add_right ..) (Nat.add_le_add_left le start),
    Position.mk.injEq]
  simp only [true_and]
  omega

/-- The table of a text converts between its offsets and its positions. -/
theorem faithful_ofText (t : Text) : (ofText t).Faithful t where
  offsetAt_positionAt _ le apart := LineTable.offsetAt_positionAt le apart
  offsetAt_positionAt_inside _ splits := by
    have := offsetAt_positionAt_of_splitsBreak splits
    omega
  positionAt_lt o o' nonneg lt le := by
    obtain ⟨o, rfl⟩ := Int.eq_ofNat_of_zero_le nonneg
    obtain ⟨o', rfl⟩ := Int.eq_ofNat_of_zero_le (Int.le_of_lt (Int.lt_of_le_of_lt nonneg lt))
    exact LineTable.positionAt_lt (by omega) (by omega)
  positionAt_before o le := by
    have same : (ofText t).clamp o = (ofText t).clamp 0 := by simp only [clamp]; omega
    rw [positionAt, positionAt, same]
  positionAt_behind o le := by
    have same : (ofText t).clamp o = (ofText t).clamp t.length := by
      simp only [clamp, ofText]; omega
    rw [positionAt, positionAt, same]
  offsetAt_le := LineTable.offsetAt_le t
  offsetAt_apart := not_splitsBreak_offsetAt t
  offsetAt_mono _ _ le := LineTable.offsetAt_mono le t
  positionAt_offsetAt _ _ _ _ has number nonneg le :=
    LineTable.positionAt_offsetAt has number nonneg le

end LineTable

end Quill
