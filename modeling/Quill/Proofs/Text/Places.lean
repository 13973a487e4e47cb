import Quill.Proofs.Text.Positions

/-!
# Places in a text

What stands at an offset of a text, and which places are on one line of it. The lines of a text
stand in it one behind the other, so that an offset on a line has the number of that line in its
position.

## Main definitions

* `Text.StandsAt`, `Text.ReadsAt` — what stands at an offset, and what a place reads.
* `Span.Inside` — places between two offsets.
* `Text.SameLine`, `Text.OnLine` — offsets on the same line, and places on a line.

## Main statements

* `Text.standsAt_of_mem_lines` — the contents of the lines stand where the lines start.
* `Text.sameLine_iff` — offsets on two lines are on the same line exactly when the lines are the
  same.
* `Text.onLine_of_inside` — a place between the ends of a line is on it.
-/

namespace Quill

/-- The place lies between the offsets `lo` and `hi`. -/
structure Span.Inside (lo hi : Int) (s : Span) : Prop where
  start : lo ≤ s.start
  ordered : s.start ≤ s.stop
  stop : s.stop ≤ hi

namespace Span.Inside

variable {lo lo' hi hi' : Int} {s : Span}

theorem of_le {a b : Int} (start : lo ≤ a) (ordered : a ≤ b) (stop : b ≤ hi) :
    Span.Inside lo hi ⟨a, b⟩ :=
  ⟨start, ordered, stop⟩

theorem mono (inside : s.Inside lo hi) (start : lo' ≤ lo) (stop : hi ≤ hi') : s.Inside lo' hi' :=
  ⟨Int.le_trans start inside.start, inside.ordered, Int.le_trans inside.stop stop⟩

theorem within {outer : Span} (inside : s.Inside outer.start outer.stop) : s.within outer := by
  simp [Span.within, inside.start, inside.stop]

end Span.Inside

theorem Span.within_iff {a b : Span} : a.within b ↔ b.start ≤ a.start ∧ a.stop ≤ b.stop := by
  simp [within]

namespace Text

variable {t a b c rest line br : Text} {o k base : Nat} {s : Span} {l l' : Line}

/-! ## What stands at an offset -/

/-- From the offset `o` on, the text reads `part`. -/
def StandsAt (t : Text) (o : Nat) (part : Text) : Prop :=
  ∃ front behind, t = front ++ (part ++ behind) ∧ front.length = o

def ReadsAt (t : Text) (s : Span) (part : Text) : Prop :=
  ∃ o : Nat, t.StandsAt o part ∧ s = ⟨o, (o + part.length : Nat)⟩

theorem standsAt_self (t : Text) : t.StandsAt 0 t := ⟨[], [], by simp, rfl⟩

namespace StandsAt

theorem readsAt (stands : t.StandsAt o a) : t.ReadsAt ⟨o, (o + a.length : Nat)⟩ a :=
  ⟨o, stands, rfl⟩

theorem length_le (stands : t.StandsAt o a) : o + a.length ≤ t.length := by
  obtain ⟨front, behind, rfl, rfl⟩ := stands
  simp only [List.length_append]
  omega

theorem left (stands : t.StandsAt o (a ++ b)) : t.StandsAt o a := by
  obtain ⟨front, behind, rfl, rfl⟩ := stands
  exact ⟨front, b ++ behind, by simp, rfl⟩

theorem right (stands : t.StandsAt o (a ++ b)) : t.StandsAt (o + a.length) b := by
  obtain ⟨front, behind, rfl, rfl⟩ := stands
  exact ⟨front ++ a, behind, by simp, by simp⟩

theorem tail {u : UInt16} (stands : t.StandsAt o (u :: a)) : t.StandsAt (o + 1) a :=
  stands.right (a := [u])

theorem prefix_ (stands : t.StandsAt o a) (begins : b <+: a) : t.StandsAt o b := by
  obtain ⟨c, rfl⟩ := begins
  exact stands.left

theorem trans (stands : t.StandsAt o a) (inner : a.StandsAt k b) : t.StandsAt (o + k) b := by
  obtain ⟨front, behind, rfl, rfl⟩ := inner
  exact stands.right.left

theorem exists_readsAt (stands : t.StandsAt o a) (inside : s.Inside o (o + a.length : Nat)) :
    ∃ part, t.ReadsAt s part ∧ part <:+: a := by
  obtain ⟨front, part, behind, rfl, start, stop⟩ : ∃ front part behind,
    a = front ++ (part ++ behind) ∧
      s.start = (o + front.length : Nat) ∧ s.stop = (o + front.length + part.length : Nat) := by
    obtain ⟨start, ordered, stop⟩ := inside
    refine ⟨a.take (s.start - o).toNat, (a.drop (s.start - o).toNat).take (s.stop - s.start).toNat,
      (a.drop (s.start - o).toNat).drop (s.stop - s.start).toNat, ?_, ?_, ?_⟩
    · rw [List.take_append_drop, List.take_append_drop]
    · simp only [List.length_take]
      omega
    · simp only [List.length_take, List.length_drop]
      omega
  refine ⟨part, ⟨_, stands.right.left, ?_⟩, front, behind, by simp⟩
  rw [← start, ← stop]

end StandsAt

theorem ReadsAt.inside (reads : t.ReadsAt s a) : s.Inside 0 t.length := by
  obtain ⟨o, stands, rfl⟩ := reads
  have := stands.length_le
  exact .of_le (by omega) (by omega) (by omega)

/-! ## Lines -/

theorem exists_standsAt_of_mem_linesFrom (mem : l ∈ linesFrom base t) :
    ∃ k, l.start = base + k ∧ t.StandsAt k l.content := by
  induction t using line_induction generalizing base with
  | last line unbroken =>
    obtain rfl : l = ⟨base, line⟩ := by simpa [linesFrom_unbroken unbroken] using mem
    exact ⟨0, rfl, standsAt_self line⟩
  | more line b rest unbroken break_ ih =>
    obtain ⟨br, eq, br_⟩ := exists_lineBreak break_ rest
    have whole := standsAt_self (line ++ (br ++ behindBreak b rest))
    rw [eq, linesFrom_append_lineBreak unbroken br_] at mem
    rw [eq]
    rcases List.mem_cons.1 mem with rfl | later
    · exact ⟨0, rfl, whole.left⟩
    · obtain ⟨k, start, stands⟩ := ih later
      exact ⟨_, by omega, whole.right.right.trans stands⟩

theorem standsAt_of_mem_lines (mem : l ∈ t.lines) : t.StandsAt l.start l.content := by
  obtain ⟨k, start, stands⟩ := exists_standsAt_of_mem_linesFrom mem
  rwa [start, Nat.zero_add]

theorem pairwise_linesFrom (base : Nat) (t : Text) :
    (linesFrom base t).Pairwise fun a b => a.stop < b.start := by
  induction t using line_induction generalizing base with
  | last line unbroken => simp [linesFrom_unbroken unbroken]
  | more line b rest unbroken break_ ih =>
    obtain ⟨br, eq, br_⟩ := exists_lineBreak break_ rest
    rw [eq, linesFrom_append_lineBreak unbroken br_]
    refine List.pairwise_cons.2 ⟨fun l mem => ?_, ih _⟩
    have := le_start_of_mem_linesFrom mem
    have : 0 < br.length := by cases br_ <;> simp
    simp only [Line.stop]
    omega

theorem exists_line_of_getElem? {u : UInt16} {k : Nat} (there : t[k]? = some u)
    (plain : isBreak u = false)
    (base : Nat) : ∃ l ∈ linesFrom base t, l.start ≤ base + k ∧ base + k < l.stop := by
  induction t using line_induction generalizing base k with
  | last line unbroken =>
    obtain ⟨lt, -⟩ := List.getElem?_eq_some_iff.1 there
    exact ⟨⟨base, line⟩, by simp [linesFrom_unbroken
      unbroken], Nat.le_add_right .., Nat.add_lt_add_left lt base⟩
  | more line b rest unbroken break_ ih =>
    obtain ⟨br, eq, br_⟩ := exists_lineBreak break_ rest
    rw [eq] at there ⊢
    rw [linesFrom_append_lineBreak unbroken br_]
    rcases Nat.lt_or_ge k line.length with first | behind
    · exact ⟨⟨base, line⟩, by simp, Nat.le_add_right .., Nat.add_lt_add_left first base⟩
    rw [List.getElem?_append_right behind] at there
    rcases Nat.lt_or_ge (k - line.length) br.length with inBreak | behind'
    · rw [List.getElem?_append_left inBreak] at there
      have mem := List.mem_of_getElem? there
      have breaks : isBreak u = true := by cases br_ <;> simp_all [isBreak]
      exact absurd plain (by simp [breaks])
    · rw [List.getElem?_append_right behind'] at there
      obtain ⟨l, mem, start, stop⟩ := ih there (base + line.length + br.length)
      exact ⟨l, List.mem_cons_of_mem _ mem, by omega, by omega⟩

/-! ## Line numbers -/

def SameLine (t : Text) (a b : Int) : Prop :=
  ((LineTable.ofText t).positionAt a).line = ((LineTable.ofText t).positionAt b).line

structure OnLine (t : Text) (s : Span) : Prop where
  reads : ∃ part, t.ReadsAt s part ∧ Unbroken part
  sameLine : t.SameLine s.start s.stop

/-- The walk to an offset between the ends of a line comes to that line. -/
theorem line_locate {first : Line} {others : List Line} {i : Nat}
    (sorted : (first :: others).Pairwise fun a b => a.stop < b.start)
    (at_i : (first :: others)[i]? = some l)
    (start : l.start ≤ o) (stop : o ≤ l.stop) (index : Nat) :
    (LineTable.locate o index first.start others).line = (index + i : Nat) := by
  induction others generalizing first i index with
  | nil =>
    obtain ⟨rfl, -⟩ : i = 0 ∧ first = l := by cases i <;> simp_all
    rfl
  | cons next others ih =>
    obtain ⟨behind, sorted⟩ := List.pairwise_cons.1 sorted
    unfold LineTable.locate
    split
    next reaches =>
      cases i with
      | zero =>
        obtain rfl : first = l := by simpa using at_i
        have := behind next (by simp)
        omega
      | succ i =>
        rw [ih sorted (by simpa using at_i)]
        omega
    next later =>
      cases i with
      | zero => rfl
      | succ i =>
        have mem : l ∈ next :: others := List.mem_of_getElem? (by simpa using at_i)
        rcases List.mem_cons.1 mem with rfl | mem
        · exact absurd start later
        · have := (List.pairwise_cons.1 sorted).1 l mem
          simp only [Line.stop] at this
          omega

/-- The number of the line in the position of an offset between its ends. -/
theorem line_positionAt {i : Nat} {o : Int} (at_i : t.lines[i]? = some l) (start : l.start ≤ o)
    (stop : o ≤ l.stop) : ((LineTable.ofText t).positionAt o).line = i := by
  obtain ⟨first, others, lines⟩ := List.exists_cons_of_ne_nil (lines_ne_nil t)
  obtain ⟨o, rfl⟩ := Int.eq_ofNat_of_zero_le (Int.le_trans (Int.natCast_nonneg _) start)
  have inText : l.stop ≤ t.length := (standsAt_of_mem_lines (List.mem_of_getElem? at_i)).length_le
  have clamped : (LineTable.ofText t).clamp o = o := by
    simp only [LineTable.clamp, LineTable.ofText]
    omega
  have sorted := pairwise_linesFrom 0 t
  have zero : first.start = 0 := start_of_linesFrom lines
  have walk := line_locate (lines ▸ sorted) (lines ▸ at_i) (Int.ofNat_le.1 start)
      (Int.ofNat_le.1 stop) 0
  rw [zero] at walk
  rw [LineTable.positionAt, clamped]
  simpa [LineTable.ofText, lines] using walk

theorem sameLine_iff (mem : l ∈ t.lines) (mem' : l' ∈ t.lines)
    {a b : Int} (a_ : l.start ≤ a ∧ a ≤ l.stop)
    (b_ : l'.start ≤ b ∧ b ≤ l'.stop) : t.SameLine a b ↔ l = l' := by
  obtain ⟨i, at_i⟩ := List.mem_iff_getElem?.1 mem
  obtain ⟨j, at_j⟩ := List.mem_iff_getElem?.1 mem'
  have number := line_positionAt at_i a_.1 a_.2
  constructor
  · intro same
    obtain rfl : i = j := by
      exact_mod_cast number.symm.trans (same.trans (line_positionAt at_j b_.1 b_.2))
    exact Option.some.inj (at_i.symm.trans at_j)
  · rintro rfl
    exact number.trans (line_positionAt at_i b_.1 b_.2).symm

theorem onLine_of_inside (mem : l ∈ t.lines) (inside : s.Inside l.start l.stop) : t.OnLine s where
  reads := by
    obtain ⟨part, reads, within⟩ := (standsAt_of_mem_lines mem).exists_readsAt inside
    exact ⟨part, reads, fun u mem' => unbroken_of_mem_linesFrom mem u (within.subset mem')⟩
  sameLine := (sameLine_iff mem mem ⟨inside.start, Int.le_trans inside.ordered inside.stop⟩
    ⟨Int.le_trans inside.start inside.ordered, inside.stop⟩).2 rfl

end Text

end Quill
