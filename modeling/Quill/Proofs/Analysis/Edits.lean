import Quill.Proofs.Data.Lists
import Quill.Proofs.Text.Positions
import Quill.Proofs.Value.Canonical
import Quill.Query.Edit
import Quill.Text.Lines
import Quill.Text.Replacement

/-!
# Lists of edits

Edits are sorted by document and start, and every two neighbours are checked. That is enough for all
pairs, since what is apart from an edit is apart from all in front of that edit too. Edits that
begin at one place stay in the order in which they were given, and there an insertion is only
accepted in front of a replacement. Edits that stand one behind the other can be made in one go:
each of them is a replacement, and from the last to the first none moves the range of another.

## Main definitions

* `DocumentEdit.replacement` — what an edit replaces in a text.
* `EditList.carryOut` — a document once the edits of it have been made.
* `EditList.Before` — one edit stands before another one.
* `DocumentEdit.Forward` — the range of an edit does not stop before it starts.
* `DocumentEdit.Overlaps` — each of two edits of a document starts before the other one stops.
* `DocumentEdit.InsertsAtStart` — an insertion at the place where a replacement starts.
* `EditList.Consistent` — one version for each document, and no two edits that overlap.
* `EditList.InsertsFirst` — no insertion is behind a replacement at whose start it is.
* `EditList.Accepted` — the list is not refused.

## Main statements

* `EditList.validate_eq_ok` — edits that stand one behind the other are not refused.
* `EditList.checkPairs_eq_ok_iff` — what neighbours are checked for holds of all pairs.
* `EditList.validate_accepts` — the lists that are accepted, and what comes out.
-/

namespace Quill

def DocumentEdit.replacement (t : Text) (e : DocumentEdit) : Replacement :=
  ⟨⟨(LineTable.ofText t).offsetAt e.range.start, (LineTable.ofText t).offsetAt e.range.stop⟩,
    e.newText⟩

namespace EditList

section inOrder

variable {edits : List DocumentEdit} {uri : Uri}

/-- The text of a document once the edits of it have been made, from the last to the first. -/
def carryOut (edits : List DocumentEdit) (uri : Uri) (t : Text) : Text :=
  ((edits.filter (·.uri = uri)).map (DocumentEdit.replacement t)).foldr Replacement.apply t

/-- `a` stands before `b`, which may follow it. -/
structure Before (a b : DocumentEdit) : Prop where
  ordered : le a b
  allowed : checkPair a b = .ok ()

theorem checkPairs_eq_ok (ordered : edits.Pairwise Before) : checkPairs edits = .ok () := by
  induction ordered with
  | nil => rfl
  | @cons a edits first ordered ih =>
    cases edits with
    | nil => rfl
    | cons b edits => rw [checkPairs, (first b (by simp)).allowed, ih]

/-- Edits that stand one behind the other are not refused. -/
theorem validate_eq_ok (ordered : edits.Pairwise Before) : validate edits = .ok edits := by
  have sorted : sortBy le edits = edits := sortBy_eq_self (ordered.imp Before.ordered)
  simp only [validate, sorted, checkPairs_eq_ok ordered]

/-- Of what is filed by document, that of one document is left. -/
theorem filter_flatMap {α : Type} {uriOf : α → Uri} {uris : List Uri} {f : Uri → List α}
    (filed : ∀ u, ∀ e ∈ f u, uriOf e = u) (nodup : uris.Nodup) (uri : Uri) :
    (uris.flatMap f).filter (uriOf · = uri) = if uri ∈ uris then f uri else [] := by
  induction uris with
  | nil => rfl
  | cons u uris ih =>
    obtain ⟨new, nodup⟩ := List.nodup_cons.1 nodup
    rw [List.flatMap_cons, List.filter_append, ih nodup]
    by_cases eq : uri = u
    · subst eq
      have own : (f uri).filter (uriOf · = uri) = f uri :=
        List.filter_eq_self.2 fun e mem => decide_eq_true (filed uri e mem)
      simp [own, new]
    · have none : (f u).filter (uriOf · = uri) = [] :=
        List.filter_eq_nil_iff.2 fun e mem => by simpa [filed u e mem] using Ne.symm eq
      simp [none, eq]

end inOrder

end EditList

/-! ## Two edits -/

namespace DocumentEdit

def Forward (e : DocumentEdit) : Prop := e.range.start.le e.range.stop

instance (e : DocumentEdit) : Decidable e.Forward := inferInstanceAs (Decidable (_ = true))

def Overlaps (a b : DocumentEdit) : Prop :=
  a.uri = b.uri ∧ a.range.start.lt b.range.stop ∧ b.range.start.lt a.range.stop

def InsertsAtStart (b a : DocumentEdit) : Prop :=
  a.uri = b.uri ∧ b.range.start = a.range.start ∧ b.range.stop = b.range.start ∧
  a.range.start.lt a.range.stop

theorem Overlaps.symm {a b : DocumentEdit} (overlaps : a.Overlaps b) : b.Overlaps a :=
  ⟨overlaps.1.symm, overlaps.2.2, overlaps.2.1⟩

end DocumentEdit

/-- Of two ranges the first one stops in front of the other unless they overlap, or that one is
empty and where the first one starts. -/
theorem Range.stop_le_start_iff {a b : Range} (first : a.start.le a.stop)
    (second : b.start.le b.stop)
    (ordered : a.start.le b.start) : a.stop.le b.start ↔ ¬ (a.start.lt b.stop ∧ b.start.lt a.stop) ∧
      ¬ (b.start = a.start ∧ b.stop = b.start ∧ a.start.lt a.stop) := by
  obtain ⟨⟨l1, c1⟩, l2, c2⟩ := a
  obtain ⟨⟨l3, c3⟩, l4, c4⟩ := b
  simp only [Position.le_iff, Position.lt_iff, Position.mk.injEq] at *
  omega

namespace EditList

variable {a b c : DocumentEdit} {edits edits' sorted : List DocumentEdit}

structure Consistent (edits : List DocumentEdit) : Prop where
  oneVersion : ∀ a ∈ edits, ∀ b ∈ edits, a.uri = b.uri → a.version = b.version
  apart : edits.Pairwise fun a b => ¬ a.Overlaps b

def InsertsFirst (edits : List DocumentEdit) :
    Prop := edits.Pairwise fun a b => ¬ b.InsertsAtStart a

def Accepted (edits : List DocumentEdit) : Prop := ∃ sorted, validate edits = .ok sorted

theorem consistent_perm_iff (perm : edits'.Perm edits) : Consistent edits' ↔ Consistent edits := by
  have of_perm {edits edits' : List DocumentEdit} (perm : edits'.Perm edits)
      (consistent : Consistent edits) :
      Consistent edits' :=
    ⟨fun a mem b mem' => consistent.oneVersion a (perm.mem_iff.1 mem) b (perm.mem_iff.1 mem'),
      (perm.pairwise_iff fun apart overlaps => apart overlaps.symm).2 consistent.apart⟩
  exact ⟨of_perm perm.symm, of_perm perm⟩

/-! ## Neighbours -/

theorem le_trans (a b c : DocumentEdit) (h : le a b) (h' : le b c) : le a c :=
  ite_le_trans Text.compare_trans_le Text.le_antisymm Position.le_trans h h'

theorem le_total (a b : DocumentEdit) : le a b || le b a :=
  ite_le_total (Text.le_total _ _) (Position.le_total _ _)

theorem le_iff : le a b ↔ Text.le a.uri b.uri ∧
    (a.uri = b.uri → a.range.start.le b.range.start) := by
  by_cases same : a.uri = b.uri <;> simp [le, same, Text.le]

theorem checkPair_eq_ok_iff : checkPair a b = .ok () ↔
    (a.uri = b.uri → a.version = b.version ∧ a.range.stop.le b.range.start) := by
  rw [Position.le_iff_not_lt]
  by_cases uri : a.uri = b.uri <;> by_cases version : a.version = b.version <;>
    by_cases overlap : b.range.start.lt a.range.stop <;> simp [checkPair, uri, version, overlap]

/-- What an edit stands before, all in front of that edit stand before too. -/
theorem Before.trans (forward : b.Forward) (h : Before a b) (h' : Before b c) : Before a c := by
  refine ⟨le_trans a b c h.ordered h'.ordered, checkPair_eq_ok_iff.2 fun same => ?_⟩
  have uri : a.uri = b.uri :=
    Text.le_antisymm (le_iff.1 h.ordered).1 (same ▸ (le_iff.1 h'.ordered).1)
  obtain ⟨version, apart⟩ := checkPair_eq_ok_iff.1 h.allowed uri
  obtain ⟨version', apart'⟩ := checkPair_eq_ok_iff.1 h'.allowed (uri.symm.trans same)
  exact ⟨version.trans version', Position.le_trans (Position.le_trans apart forward) apart'⟩

theorem checkPairs_eq_ok_iff (forward : ∀ e ∈ sorted, e.Forward)
    (ordered : sorted.Pairwise fun a b => le a b) :
    checkPairs sorted = .ok () ↔ sorted.Pairwise Before := by
  refine ⟨fun checked => ?_, checkPairs_eq_ok⟩
  induction sorted with
  | nil => exact .nil
  | cons a sorted ih =>
    cases sorted with
    | nil => exact List.pairwise_singleton _ _
    | cons b sorted =>
      obtain ⟨first, ordered⟩ := List.pairwise_cons.1 ordered
      have allowed : checkPair a b = .ok () ∧ checkPairs (b :: sorted) = .ok () := by
        rw [checkPairs] at checked
        split at checked
        next ok => exact ⟨ok, checked⟩
        next => cases checked
      have later := ih (fun e mem => forward e (by simp [mem])) ordered allowed.2
      have next : Before a b := ⟨first b (by simp), allowed.1⟩
      refine List.pairwise_cons.2 ⟨fun c mem => ?_, later⟩
      rcases List.mem_cons.1 mem with rfl | mem
      · exact next
      · exact next.trans (forward b (by simp)) ((List.pairwise_cons.1 later).1 c mem)

/-! ## Lists that are accepted -/

theorem before_iff (uri : a.uri = b.uri) (ordered : le a b) :
    Before a b ↔ a.version = b.version ∧ a.range.stop.le b.range.start :=
  ⟨fun before => checkPair_eq_ok_iff.1 before.allowed uri,
    fun apart => ⟨ordered, checkPair_eq_ok_iff.2 fun _ => apart⟩⟩

/-- Two edits, the first one given in front of the other, stand one before the other once they are
sorted. -/
theorem before_sorted_iff (first : a.Forward) (second : b.Forward) :
    (if le a b then Before a b else Before b a) ↔
      (a.uri = b.uri → a.version = b.version) ∧ ¬ a.Overlaps b ∧ ¬ b.InsertsAtStart a := by
  have total : ¬ le a b → le b a := by simpa [or_iff_not_imp_left] using le_total a b
  by_cases uri : a.uri = b.uri
  · simp only [DocumentEdit.Overlaps, DocumentEdit.InsertsAtStart, uri, true_and, true_implies]
    split
    next ordered =>
      rw [before_iff uri ordered, Range.stop_le_start_iff first second ((le_iff.1 ordered).2 uri)]
    next behind =>
      -- edits that begin at one place have not changed places
      have apart : b.range.start ≠ a.range.start := fun same =>
        behind (le_iff.2 ⟨by simp [uri, Text.le], fun _ => same ▸ Position.le_iff.2 (by simp)⟩)
      rw [before_iff uri.symm (total behind),
        Range.stop_le_start_iff second first ((le_iff.1 (total behind)).2 uri.symm)]
      simp [apart, apart.symm, and_comm, eq_comm (a := b.version)]
  · have overlaps : ¬ a.Overlaps b := fun overlaps => uri overlaps.1
    have inserts : ¬ b.InsertsAtStart a := fun inserts => uri inserts.1
    refine iff_of_true ?_ ⟨fun same => absurd same uri, overlaps, inserts⟩
    split
    next ordered => exact ⟨ordered, checkPair_eq_ok_iff.2 fun same => absurd same uri⟩
    next behind => exact ⟨total behind, checkPair_eq_ok_iff.2 fun same => absurd same.symm uri⟩

theorem consistent_iff :
    Consistent edits ↔ edits.Pairwise (fun a b => a.uri = b.uri → a.version = b.version) ∧
    edits.Pairwise fun a b => ¬ a.Overlaps b := by
  have symm : Std.Symm fun a b : DocumentEdit => a.uri = b.uri → a.version = b.version :=
    ⟨fun _ _ same uri => (same uri.symm).symm⟩
  constructor
  · intro consistent
    exact ⟨List.pairwise_of_forall_mem_list consistent.oneVersion, consistent.apart⟩
  · rintro ⟨versions, apart⟩
    exact ⟨fun a mem b mem' => versions.forall_of_forall (fun _ _ _ => rfl) mem mem', apart⟩

theorem accepted_iff (forward : ∀ e ∈ edits, e.Forward) :
    Accepted edits ↔ Consistent edits ∧ InsertsFirst edits := by
  have sorted := pairwise_sortBy le le_trans le_total edits
  have forward' : ∀ e ∈ sortBy le edits, e.Forward :=
    fun e mem => forward e ((sortBy_perm le edits).mem_iff.1 mem)
  have checked : Accepted edits ↔ checkPairs (sortBy le edits) = .ok () := by
    simp only [Accepted, validate]
    cases checkPairs (sortBy le edits) <;> simp
  rw [checked, checkPairs_eq_ok_iff forward' sorted, pairwise_sortBy_iff le_trans le_total,
    consistent_iff, and_assoc, InsertsFirst, ← List.pairwise_and_iff, ← List.pairwise_and_iff]
  exact List.Pairwise.iff_of_mem fun mem mem' => before_sorted_iff (forward _ mem) (forward _ mem')

/-- What comes out has the edits in order. -/
theorem validate_sorted (accepted : validate edits = .ok sorted) : sorted.Perm edits ∧
    sorted.Pairwise fun a b =>
      Text.le a.uri b.uri ∧ (a.uri = b.uri → a.range.start.le b.range.start) := by
  have eq : sorted = sortBy le edits := by
    simp only [validate] at accepted
    split at accepted <;> simp_all
  exact eq ▸ ⟨sortBy_perm le edits, (pairwise_sortBy le le_trans le_total edits).imp le_iff.1⟩

/-- A list is accepted exactly if each document has one version, no two edits overlap, and no
insertion is behind a replacement at whose start it is. Of lists with the insertions in front the
order does not matter. -/
theorem validate_accepts (edits : List DocumentEdit) (forward : ∀ e ∈ edits, e.Forward) :
    (Accepted edits ↔ Consistent edits ∧ InsertsFirst edits) ∧
    (∀ edits', edits'.Perm edits → InsertsFirst edits → InsertsFirst edits' →
      (Accepted edits' ↔ Accepted edits)) ∧
    ∀ sorted, validate edits = .ok sorted → sorted.Perm edits ∧
      sorted.Pairwise fun a b =>
        Text.le a.uri b.uri ∧ (a.uri = b.uri → a.range.start.le b.range.start) := by
  refine ⟨accepted_iff forward, fun edits' perm inserts inserts' => ?_,
    fun sorted => validate_sorted⟩
  have forward' : ∀ e ∈ edits', e.Forward := fun e mem => forward e (perm.mem_iff.1 mem)
  rw [accepted_iff forward, accepted_iff forward', consistent_perm_iff perm, and_iff_left inserts,
    and_iff_left inserts']

/-- An insertion at the end of a replacement and in front of another one, given from the last to the
first. -/
theorem validate_accepts_adjacent :
    let edit (line start stop : Int) (newText : Text) : DocumentEdit :=
      ⟨"/ws/a.quill", some 1, ⟨⟨line, start⟩, ⟨line, stop⟩⟩, newText⟩
    let edits := [edit 1 0 4 "c", edit 0 2 2 "b", edit 0 2 4 "c", edit 0 0 2 "a"]
    (∀ e ∈ edits, e.Forward) ∧
    (Accepted edits ↔ Consistent edits ∧ InsertsFirst edits) ∧
    (∀ edits', edits'.Perm edits → InsertsFirst edits → InsertsFirst edits' →
      (Accepted edits' ↔ Accepted edits)) ∧
    ∀ sorted, validate edits = .ok sorted → sorted.Perm edits ∧
      sorted.Pairwise fun a b =>
        Text.le a.uri b.uri ∧ (a.uri = b.uri → a.range.start.le b.range.start) := by
  intro edit edits
  have forward : ∀ e ∈ edits, e.Forward := by decide
  exact ⟨forward, validate_accepts edits forward⟩

/-- An insertion is refused if it is given behind the replacement at whose start it is. -/
theorem not_validate_accepts : ¬ ∀ edits : List DocumentEdit, (∀ e ∈ edits, e.Forward) →
    (∀ edits', edits'.Perm edits → (Accepted edits' ↔ Accepted edits)) ∧
    (Accepted edits ↔ Consistent edits) ∧
    ∀ sorted, validate edits = .ok sorted → sorted.Perm edits ∧
      sorted.Pairwise fun a b =>
        Text.le a.uri b.uri ∧ (a.uri = b.uri → a.range.start.le b.range.start) := by
  intro all
  let replacement : DocumentEdit := ⟨"/ws/a.quill", some 1, ⟨⟨0, 0⟩, ⟨0, 2⟩⟩, "x"⟩
  let insertion : DocumentEdit := ⟨"/ws/a.quill", some 1, ⟨⟨0, 0⟩, ⟨0, 0⟩⟩, "y"⟩
  have refused : validate [replacement, insertion] =
      .error (.editConflict "/ws/a.quill" "overlapping edits") := by
    decide
  have accepted : validate [insertion, replacement] = .ok [insertion, replacement] := by decide
  have same := (all [replacement, insertion] (by decide)).1 [insertion, replacement] (.swap ..)
  obtain ⟨sorted, eq⟩ := same.1 ⟨_, accepted⟩
  cases refused.symm.trans eq

end EditList

end Quill
