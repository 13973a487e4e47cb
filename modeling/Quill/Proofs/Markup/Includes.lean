import Quill.Markup.Includes
import Quill.Markup.Reader
import Quill.Proofs.Text.Lines

/-!
# The scan for includes and the reader

The scan finds what the reader reads, as long as include lines are spelled plainly: indented by
spaces and tabs, with a blank behind the directive, and never in the middle of a line behind one of
the line separators of Unicode, where only the scan starts a line.

## Main definitions

* `Includes.IsOpening` — an include line up to the closing quotation mark, for the scan;
  `match?_eq_some_iff` says that the scan matches nothing else.
* `Includes.quoted?`, `Includes.read?` — the quoted path of an include line, for the reader.
* `Includes.Agrees` — the scan finds in a line what the reader reads.
* `Includes.IsPlain` — a line that is spelled plainly.

## Main statements

* `Includes.specifiers_eq_flatMap` — the scan goes line by line.
* `Includes.targets_eq_of_agrees` — a document with such lines has the targets that the reader
  reads.
* `Includes.targets_eq_inclusions` — plain lines are such lines.
-/

namespace Quill

/-! ## Runs of units -/

namespace Text

variable {p : UInt16 → Bool} {run t : Text} {u : UInt16}

/-- A run of units of a class ends at the first unit outside it. -/
theorem takeWhile_append_cons (inside : ∀ v ∈ run, p v) (outside : p u = false) (t : Text) :
    (run ++ u :: t).takeWhile p = run := by
  rw [List.takeWhile_append_of_pos inside, List.takeWhile_cons, outside]
  simp

theorem takeWhile_append (inside : ∀ v ∈ run, p v) (outside : ∀ v ∈ t.head?, p v = false) :
    (run ++ t).takeWhile p = run := by
  cases t with
  | nil => rw [List.takeWhile_append_of_pos inside, List.takeWhile_nil, List.append_nil]
  | cons v t => exact takeWhile_append_cons inside (outside v rfl) t

theorem dropWhile_append_cons (inside : ∀ v ∈ run, p v) (outside : p u = false) (t : Text) :
    (run ++ u :: t).dropWhile p = u :: t := by
  rw [List.dropWhile_append_of_pos inside, List.dropWhile_cons, outside]
  simp

theorem drop_length_takeWhile (p : UInt16 → Bool) (t : Text) :
    t.drop (t.takeWhile p).length = t.dropWhile p := by
  induction t with
  | nil => rfl
  | cons u t ih => by_cases h : p u <;> simp [h, ih]

theorem of_mem_takeWhile (h : u ∈ t.takeWhile p) : p u :=
  List.all_eq_true.1 List.all_takeWhile u h

/-- Behind a run of units of a class stands a unit outside it. -/
theorem not_of_mem_head?_dropWhile (h : u ∈ (t.dropWhile p).head?) : p u = false := by
  have := List.head?_dropWhile_not p t
  rw [h] at this
  simpa using this

/-- A text begins with a run of units of a class. -/
theorem exists_run (p : UInt16 → Bool) (t : Text) : ∃ run rest, t = run ++ rest ∧
    (∀ u ∈ run, p u = true) ∧
    ∀ u ∈ rest.head?, p u = false :=
  ⟨t.takeWhile p, t.dropWhile p, List.takeWhile_append_dropWhile.symm, fun _ => of_mem_takeWhile,
    fun _ => not_of_mem_head?_dropWhile⟩

end Text

namespace Includes

open Directive (keyword)

variable {t line path head : Text} {u : UInt16} {n skip : Nat} {fresh : Bool} {uri : Uri}

/-- The quotation mark around a path. -/
abbrev mark : UInt16 := 34

theorem unit_mark : Text.unit '"' = mark := by decide

/-- The directive of an include line, unit by unit. -/
theorem keyword_inclusion :
    keyword .inclusion = [35, 105, 110, 99, 108, 117, 100, 101] := by decide

/-! ## Include lines, for the scan -/

/-- The start of an include line, as the scan knows it: spaces and tabs, the directive, at least one
space or tab, and a quoted path. -/
def IsOpening (head path : Text) : Prop :=
  ∃ indent gap, head = indent ++ (keyword .inclusion ++ (gap ++ mark :: (path ++ [mark]))) ∧
    (∀ u ∈ indent, Text.isSpaceOrTab u) ∧ gap ≠ [] ∧ (∀ u ∈ gap, Text.isSpaceOrTab u) ∧
      ∀ u ∈ path, inPath u

theorem IsOpening.ne_nil (opening : IsOpening head path) : head ≠ [] := by
  obtain ⟨indent, gap, rfl, -⟩ := opening
  simp

/-- An include line holds no line break up to the end of its path. -/
theorem IsOpening.unbroken (opening : IsOpening head path) : Text.Unbroken head := by
  obtain ⟨indent, gap, rfl, blank, -, gap_blank, within⟩ := opening
  have of_blank {u} (h : Text.isSpaceOrTab u) : Text.isBreak u = false := by
    have : u = Text.unit ' ' ∨ u = Text.unit '\t' := by simpa [Text.isSpaceOrTab] using h
    rcases this with rfl | rfl <;> decide
  have of_word : (keyword .inclusion).all fun u => !Text.isBreak u := by decide
  have of_path {u} (h : inPath u) : Text.isBreak u = false := by
    simp only [inPath, Bool.and_eq_true, bne_iff_ne] at h
    simp [Text.isBreak, h]
  intro u hu
  simp only [List.mem_append, List.mem_cons, List.not_mem_nil, or_false] at hu
  rcases hu with h | h | h | rfl | h | rfl
  · exact of_blank (blank u h)
  · simpa using List.all_eq_true.1 of_word u h
  · exact of_blank (gap_blank u h)
  · decide
  · exact of_path (within u h)
  · decide

/-- The scan finds the path of an include line. -/
theorem match?_append (opening : IsOpening head path) (rest : Text) :
    match? (head ++ rest) = some (path, head.length) := by
  obtain ⟨indent, gap, rfl, blank, some_gap, gap_blank, within⟩ := opening
  obtain ⟨g, gap, rfl⟩ := List.exists_cons_of_ne_nil some_gap
  have shape : indent ++ (keyword .inclusion ++ (g :: gap ++ mark :: (path ++ [mark]))) ++ rest =
      indent ++ 35 :: ((keyword .inclusion).tail ++
        (g :: gap ++ mark :: (path ++ mark :: rest))) := by
    simp [keyword_inclusion]
  have starts (x : Text) : Text.startsWith (35 :: ((keyword .inclusion).tail ++ x))
      (keyword .inclusion) := List.isPrefixOf_iff_prefix.2 ⟨x, rfl⟩
  have behind (x : Text) :
      (35 :: ((keyword .inclusion).tail ++ x)).drop (keyword .inclusion).length = x :=
    show (keyword .inclusion ++ x).drop _ = x from List.drop_left
  have outside : Text.isSpaceOrTab 35 = false := by decide
  have closing : Text.isSpaceOrTab mark = false := by decide
  have ends : inPath mark = false := by decide
  rw [shape]
  simp only [match?, unit_mark, Text.takeWhile_append_cons blank outside, List.drop_left,
    starts, if_true, behind, Text.takeWhile_append_cons gap_blank closing, beq_self_eq_true,
    Text.takeWhile_append_cons within ends, List.head?_cons]
  simp
  omega

/-- The scan finds nothing but the paths of include lines. -/
theorem exists_of_match? (found : match? t = some (path, n)) :
    ∃ head rest, IsOpening head path ∧ t = head ++ rest ∧ n = head.length := by
  unfold match? at found
  simp only [Text.drop_length_takeWhile, unit_mark] at found
  split at found
  next opens =>
    obtain ⟨tail, start⟩ := List.isPrefixOf_iff_prefix.1 opens
    have behind : (t.dropWhile Text.isSpaceOrTab).drop (keyword .inclusion).length = tail := by
      rw [← start, List.drop_left]
    simp only [behind] at found
    split at found
    next g gap u rest gap_eq rest_eq =>
      split at found
      next quoted =>
        obtain rfl : u = mark := by simpa using quoted
        split at found
        next closed =>
          obtain ⟨rfl, rfl⟩ : rest.takeWhile inPath = path ∧ _ := by simpa using found
          obtain ⟨behind, closing⟩ : ∃ behind, rest.dropWhile inPath = mark :: behind := by
            cases eq : rest.dropWhile inPath with
            | nil => simp [eq] at closed
            | cons v behind => exact ⟨behind, by simpa [eq] using closed⟩
          refine ⟨_, behind, ⟨t.takeWhile Text.isSpaceOrTab, g :: gap, rfl,
            fun u => Text.of_mem_takeWhile, by simp, gap_eq ▸ fun u => Text.of_mem_takeWhile,
            fun u => Text.of_mem_takeWhile⟩, ?_, ?_⟩
          · calc t = t.takeWhile Text.isSpaceOrTab ++ t.dropWhile Text.isSpaceOrTab :=
                  List.takeWhile_append_dropWhile.symm
              _ = t.takeWhile Text.isSpaceOrTab ++
                (keyword .inclusion ++ (g :: gap ++ mark :: rest)) := by
                  rw [← start, ← gap_eq, ← rest_eq, List.takeWhile_append_dropWhile]
              _ = _ := by
                  conv => lhs; rw [← List.takeWhile_append_dropWhile (p := inPath) (l := rest),
                    closing]
                  simp
          · simp [gap_eq]
            omega
        next => simp at found
      next => simp at found
    next => simp at found
  next => simp at found

theorem match?_eq_some_iff : match? t = some (path, n) ↔
    ∃ head rest, IsOpening head path ∧ t = head ++ rest ∧ n = head.length := by
  refine ⟨exists_of_match?, ?_⟩
  rintro ⟨head, rest, opening, rfl, rfl⟩
  exact match?_append opening rest

/-! ## The scan line by line -/

/-- Whether a line is an include line is seen from the line alone. -/
theorem match?_append_break (break_ : Text.isBreak u) (line rest : Text) :
    match? (line ++ u :: rest) = match? line := by
  refine Option.ext fun ⟨path, n⟩ => ?_
  rw [match?_eq_some_iff, match?_eq_some_iff]
  constructor
  · rintro ⟨head, tail, opening, eq, rfl⟩
    rcases List.append_eq_append_iff.1 eq with ⟨within, rfl, tail_eq⟩ | ⟨behind, rfl, -⟩
    · -- the include line would go on over the break
      cases within with
      | nil => exact ⟨_, [], opening, by simp, rfl⟩
      | cons v within =>
        obtain rfl : u = v := (List.cons.inj tail_eq).1
        have inner := opening.unbroken u (by simp)
        simp [break_] at inner
    · exact ⟨head, behind, opening, rfl, rfl⟩
  · rintro ⟨head, tail, opening, rfl, rfl⟩
    exact ⟨head, tail ++ u :: rest, opening, by simp, rfl⟩

theorem specifiersAux_break (break_ : Text.isBreak u) (fresh : Bool) (rest : Text) :
    specifiersAux 0 fresh (u :: rest) = specifiersAux 0 true rest := by
  have none : match? (u :: rest) = none := match?_append_break break_ [] rest
  have starts : startsLine u = true := by
    simp only [Text.isBreak, Bool.or_eq_true, beq_iff_eq] at break_
    simp [startsLine, break_]
  simp [specifiersAux, none, starts]

/-- Behind a line break the scan starts anew. -/
theorem specifiersAux_append_break (break_ : Text.isBreak u) (le : skip ≤ line.length)
    (rest : Text) :
    specifiersAux skip fresh (line ++ u :: rest) =
      specifiersAux skip fresh line ++ specifiersAux 0 true (Text.behindBreak u rest) := by
  induction line generalizing skip fresh with
  | nil =>
    obtain rfl : skip = 0 := by simpa using le
    have feed (tail : Text) : specifiersAux 0 true (Text.lineFeed :: tail) =
        specifiersAux 0 true tail :=
      specifiersAux_break (by decide) _ _
    rw [List.nil_append, specifiersAux_break break_, Text.behindBreak]
    split
    next pair =>
      cases rest with
      | nil => rfl
      | cons v tail =>
        obtain rfl : v = Text.lineFeed := by simp_all
        rw [feed]
        rfl
    next => simp [specifiersAux]
  | cons v line ih =>
    cases skip with
    | succ skip =>
      simp only [List.cons_append, specifiersAux]
      exact ih (by simpa using le)
    | zero =>
      have same : match? (v :: (line ++ u :: rest)) = match? (v :: line) :=
        match?_append_break break_ (v :: line) rest
      simp only [List.cons_append, specifiersAux, same]
      cases found : if fresh then match? (v :: line) else none with
      | none => exact ih (Nat.zero_le _)
      | some found' =>
        obtain ⟨path, n⟩ := found'
        obtain ⟨head, tail, -, eq, rfl⟩ :=
          exists_of_match? (Option.ite_none_right_eq_some.1 found).2
        have := congrArg List.length eq
        simp only [List.length_cons, List.length_append] at this
        exact congrArg (path :: ·) (ih (by omega))

theorem specifiersAux_eq_flatMap (t : Text) (offset : Nat) : specifiersAux 0 true t =
    (Text.linesFrom offset t).flatMap fun l => specifiersAux 0 true l.content := by
  induction t using Text.line_induction generalizing offset with
  | last line unbroken => simp [Text.linesFrom_unbroken unbroken]
  | more line b rest unbroken break_ ih =>
    obtain ⟨offset', eq⟩ := Text.linesFrom_append_break unbroken break_ offset rest
    rw [eq, specifiersAux_append_break break_ (Nat.zero_le _), ih offset', List.flatMap_cons]

/-- The scan goes line by line. -/
theorem specifiers_eq_flatMap (offset : Nat) (t : Text) :
    specifiers t = (Text.linesFrom offset t).flatMap fun l => specifiers l.content := by
  rw [specifiers, specifiersAux_eq_flatMap t offset, List.filter_flatMap]
  rfl

theorem specifiers_append_lineBreak {br rest : Text} (unbroken : Text.Unbroken line)
    (br_ : Text.LineBreak rest br) :
    specifiers (line ++ (br ++ rest)) = specifiers line ++ specifiers rest := by
  rw [specifiers_eq_flatMap 0, Text.linesFrom_append_lineBreak unbroken br_, List.flatMap_cons,
    ← specifiers_eq_flatMap]

/-! ## The reader line by line -/

theorem inclusion?_scan (skip offset : Nat) (before : Option UInt16) (opened : List OpenSign)
    (t : Text) : ∀ i ∈ (Inline.scan skip offset before opened t).items, i.inclusion? = none := by
  fun_induction Inline.scan skip offset before opened t <;>
    grind [Inline.consItem, Inline.consError, Item.inclusion?]

/-- The quoted path behind the directive, for the reader: up to the next quotation mark. -/
def quoted? (t : Text) : Option Text :=
  match t.dropWhile Text.isSpaceOrTab with
  | [] => none
  | u :: rest =>
    if u == mark then
      let path := rest.takeWhile (· != mark)
      if path.length = rest.length then none else some path
    else none

def read? (line : Text) : Option Text :=
  let t := Text.trimStart line
  if LineRead.opens .inclusion t then
    (quoted? (t.drop (keyword .inclusion).length)).filter fun path => !(Text.trim path).isEmpty
  else none

def targetsOf (items : List Item) : List Uri :=
  (items.filterMap Item.inclusion?).map Inclusion.target

theorem targetsOf_append (a b : List Item) : targetsOf (a ++ b) = targetsOf a ++ targetsOf b := by
  simp [targetsOf]

theorem targetsOf_eq_nil {items : List Item} (none : ∀ i ∈ items, i.inclusion? = none) :
    targetsOf items = [] := by
  rw [targetsOf, List.filterMap_eq_nil_iff.2 none, List.map_nil]

theorem targetsOf_heading (offset : Nat) (t : Text) :
    targetsOf (LineRead.heading offset t).1 = [] := by
  refine targetsOf_eq_nil fun i hi => ?_
  rcases List.mem_cons.1 hi with rfl | inline
  · rfl
  · exact inclusion?_scan _ _ _ _ _ i inline

theorem targetsOf_binding (offset : Nat) (t : Text) :
    targetsOf (LineRead.binding offset t).1 = [] := by
  refine targetsOf_eq_nil fun i hi => ?_
  unfold LineRead.binding at hi
  dsimp only at hi
  split at hi
  · simp at hi
  · split at hi
    · simp at hi
    · split at hi
      · rcases List.mem_cons.1 hi with rfl | inline
        · rfl
        · exact inclusion?_scan _ _ _ _ _ i inline
      · simp at hi

theorem targetsOf_inclusion (uri : Uri) (offset : Nat) (t : Text) :
    targetsOf (LineRead.inclusion uri offset t).1 =
      ((quoted? (t.drop (keyword .inclusion).length)).filter
        fun path => !(Text.trim path).isEmpty).toList.map uri.include := by
  unfold LineRead.inclusion quoted?
  simp only [Text.drop_length_takeWhile, unit_mark]
  cases (t.drop (keyword .inclusion).length).dropWhile Text.isSpaceOrTab with
  | nil => simp [targetsOf]
  | cons u rest =>
    dsimp only
    split
    · split
      · rfl
      · by_cases blank : (Text.trim (rest.takeWhile (· != mark))).isEmpty <;>
          simp [blank, targetsOf, Item.inclusion?, Option.filter]
    · rfl

theorem opens_inclusion_iff : LineRead.opens .inclusion t ↔
    ∃ tail, t = keyword .inclusion ++ tail ∧ tail.head?.any Identifier.isPart = false := by
  simp only [LineRead.opens, Text.startsWith, Bool.and_eq_true, List.isPrefixOf_iff_prefix,
    Bool.not_eq_true']
  constructor
  · rintro ⟨⟨tail, rfl⟩, whole⟩
    exact ⟨tail, rfl, by simpa using whole⟩
  · rintro ⟨tail, rfl, whole⟩
    exact ⟨⟨tail, rfl⟩, by simpa using whole⟩

/-- A line that opens with the directive is of no other kind. -/
theorem not_other_of_opens (opens : LineRead.opens .inclusion t) :
    t.isEmpty = false ∧ t.startsWith "//" = false ∧ (t.head? == some (Text.unit '=')) = false ∧
      LineRead.opens .binding t = false := by
  obtain ⟨tail, rfl, -⟩ := opens_inclusion_iff.1 opens
  have slashes : Text.ofString "//" = [47, 47] := by decide
  have binding : keyword .binding = [35, 108, 101, 116] := by decide
  have equals : Text.unit '=' = 61 := by decide
  simp [keyword_inclusion, LineRead.opens, Text.startsWith, List.isPrefixOf, slashes,
    binding, equals]

/-- The reader takes from a line the document that its include line names. -/
theorem targetsOf_readLine (uri : Uri) (opened : List OpenSign) (l : Line) :
    targetsOf (Module.readLine uri opened l).items = (read? l.content).toList.map uri.include := by
  unfold Module.readLine read?
  dsimp only
  by_cases opens : LineRead.opens .inclusion (Text.trimStart l.content)
  · obtain ⟨some_, slashes, equals, binding⟩ := not_other_of_opens opens
    simp only [some_, slashes, equals, binding, opens, if_true, Bool.false_eq_true, if_false]
    exact targetsOf_inclusion _ _ _
  · simp only [opens, if_false, Bool.false_eq_true]
    split
    · rfl
    · split
      · rfl
      · split
        · exact targetsOf_heading _ _
        · split
          · exact targetsOf_binding _ _
          · exact targetsOf_eq_nil fun i hi => inclusion?_scan _ _ _ _ _ i hi

theorem targetsOf_readLines (uri : Uri) (opened : List OpenSign) (lines : List Line) :
    targetsOf (Module.readLines uri opened lines).1 =
      lines.flatMap fun l => (read? l.content).toList.map uri.include := by
  induction lines generalizing opened with
  | nil => rfl
  | cons l others ih =>
    rw [Module.readLines, List.flatMap_cons, targetsOf_append, targetsOf_readLine, ih]

/-! ## Lines that both take alike -/

/-- The scan finds in the line what the reader reads. -/
def Agrees (line : Text) : Prop := specifiers line = (read? line).toList

instance (line : Text) : Decidable (Agrees line) :=
  inferInstanceAs (Decidable (specifiers line = (read? line).toList))

/-- If the scan and the reader take all lines of a document alike, the scan finds exactly the
documents that it includes when it is read, in order, each once. -/
theorem targets_eq_of_agrees (uri : Uri) {t : Text} (agrees : ∀ l ∈ t.lines, Agrees l.content) :
    targets uri t = ((Module.read uri t).inclusions.map Inclusion.target).eraseDups := by
  have read : (Module.read uri t).inclusions.map Inclusion.target =
      t.lines.flatMap fun l => (read? l.content).toList.map uri.include :=
    targetsOf_readLines uri [] t.lines
  have scanned : specifiers t = t.lines.flatMap fun l => specifiers l.content :=
    specifiers_eq_flatMap 0 t
  rw [read, targets, scanned, List.map_flatMap, List.flatMap_def, List.flatMap_def,
    List.map_congr_left fun l mem => congrArg (List.map uri.include) (agrees l mem)]

/-! ## Plain lines -/

def startsNoneWithin : Text → Bool
  | [] => true
  | u :: rest => (!startsLine u || (match? rest).isNone) && startsNoneWithin rest

/-- What the scan has not read of a line after the include line at its start. -/
def behindOpening (line : Text) : Text :=
  match match? line with
  | some (_, n) => line.drop n
  | none => line

/-- A line that is spelled as the scan expects it. -/
structure IsPlain (line : Text) : Prop where
  /-- A line that opens with the directive is indented by spaces and tabs alone. -/
  indent : LineRead.opens .inclusion (Text.trimStart line) →
    ∀ u ∈ line.takeWhile Text.isBlank, Text.isSpaceOrTab u
  /-- The path does not follow the directive at once. -/
  gap : Text.startsWith (Text.trimStart line) (keyword .inclusion ++ [mark]) = false
  within : startsNoneWithin (behindOpening line)

instance (line : Text) : Decidable (IsPlain line) :=
  decidable_of_iff ((LineRead.opens .inclusion (Text.trimStart line) →
      (line.takeWhile Text.isBlank).all Text.isSpaceOrTab) ∧
    Text.startsWith (Text.trimStart line) (keyword .inclusion ++ [mark]) = false ∧
    startsNoneWithin (behindOpening line))
    ⟨fun ⟨indent, gap, within⟩ => ⟨fun opens => List.all_eq_true.1 (indent opens), gap, within⟩,
      fun ⟨indent, gap, within⟩ => ⟨fun opens => List.all_eq_true.2 (indent opens), gap, within⟩⟩

theorem specifiersAux_eq_drop (skip : Nat) (t : Text) :
    specifiersAux skip false t = specifiersAux 0 false (t.drop skip) := by
  induction skip generalizing t with
  | zero => rfl
  | succ skip ih =>
    cases t with
    | nil => rfl
    | cons u rest => simpa [specifiersAux] using ih rest

/-- Behind the path of an include line the scan goes on. -/
theorem specifiersAux_opening (opening : IsOpening head path) (rest : Text) :
    specifiersAux 0 true (head ++ rest) = path :: specifiersAux 0 false rest := by
  have found := match?_append opening rest
  obtain ⟨u, tail, rfl⟩ := List.exists_cons_of_ne_nil opening.ne_nil
  rw [List.cons_append] at found ⊢
  have skipped : specifiersAux tail.length false (tail ++ rest) = specifiersAux 0 false rest := by
    rw [specifiersAux_eq_drop, List.drop_left]
  simp [specifiersAux, found, skipped]

theorem specifiersAux_eq_nil (within : startsNoneWithin t) (first : fresh → match? t = none) :
    specifiersAux 0 fresh t = [] := by
  induction t generalizing fresh with
  | nil => rfl
  | cons u rest ih =>
    simp only [startsNoneWithin, Bool.and_eq_true, Bool.or_eq_true, Bool.not_eq_true',
      Option.isNone_iff_eq_none] at within
    have start : (if fresh then match? (u :: rest) else none) = none := by
      split
      next h => exact first h
      next => rfl
    simp only [specifiersAux, start]
    exact ih within.2 fun h => within.1.resolve_left (by simp [h])

/-- On a plain line the scan finds at most the path at its start. -/
theorem specifiersAux_eq_match? (plain : IsPlain line) :
    specifiersAux 0 true line = ((match? line).map Prod.fst).toList := by
  have within := plain.within
  unfold behindOpening at within
  cases found : match? line with
  | none =>
    simp only [found] at within
    exact specifiersAux_eq_nil within fun _ => found
  | some found' =>
    obtain ⟨path, n⟩ := found'
    simp only [found] at within
    obtain ⟨head, tail, opening, rfl, rfl⟩ := exists_of_match? found
    rw [specifiersAux_opening opening,
      specifiersAux_eq_nil (by simpa using within) (by simp : false → match? tail = none)]
    rfl

theorem quoted?_eq_some_iff : quoted? t = some path ↔ ∃ gap rest,
    t = gap ++ mark :: (path ++ mark :: rest) ∧ (∀ u ∈ gap, Text.isSpaceOrTab u) ∧
      ∀ u ∈ path, (u != mark) = true := by
  have closing : Text.isSpaceOrTab mark = false := by decide
  constructor
  · intro found
    unfold quoted? at found
    split at found
    · simp at found
    next u rest eq =>
      split at found
      next quoted =>
        obtain rfl : u = mark := by simpa using quoted
        dsimp only at found
        split at found
        · simp at found
        next more =>
          obtain rfl := Option.some.inj found
          obtain ⟨behind, eq'⟩ : ∃ behind, rest.dropWhile (· != mark) = mark :: behind := by
            cases eq' : rest.dropWhile (· != mark) with
            | nil =>
              have whole := List.takeWhile_append_dropWhile (p := (· != mark)) (l := rest)
              rw [eq', List.append_nil] at whole
              exact absurd (congrArg List.length whole) more
            | cons v behind =>
              have stops := List.head?_dropWhile_not (· != mark) rest
              exact ⟨behind, by simpa [eq'] using stops⟩
          refine ⟨t.takeWhile Text.isSpaceOrTab, behind, ?_, fun u => Text.of_mem_takeWhile,
            fun u => Text.of_mem_takeWhile⟩
          rw [← eq', List.takeWhile_append_dropWhile, ← eq, List.takeWhile_append_dropWhile]
      next => simp at found
  · rintro ⟨gap, rest, rfl, blank, plain⟩
    unfold quoted?
    rw [Text.dropWhile_append_cons blank closing]
    simp only [beq_self_eq_true, if_true]
    rw [Text.takeWhile_append_cons plain (by decide)]
    simp

/-- On a plain line the scan finds the path that the reader reads. -/
theorem filter_match?_eq_read? (plain : IsPlain line) (unbroken : Text.Unbroken line) :
    ((match? line).map Prod.fst).filter (fun path => !(Text.trim path).isEmpty) = read? line := by
  have blank_of {u} (h : Text.isSpaceOrTab u) : Text.isBlank u := by
    have : u = Text.unit ' ' ∨ u = Text.unit '\t' := by simpa [Text.isSpaceOrTab] using h
    rcases this with rfl | rfl <;> decide
  have no_part {u} (h : Text.isSpaceOrTab u) : Identifier.isPart u = false := by
    have : u = Text.unit ' ' ∨ u = Text.unit '\t' := by simpa [Text.isSpaceOrTab] using h
    rcases this with rfl | rfl <;> decide
  have scan_iff (path) : (match? line).map Prod.fst = some path ↔
      ∃ tail, Text.trimStart line = keyword .inclusion ++ tail ∧
        tail.head?.any Identifier.isPart = false ∧ quoted? tail = some path := by
    simp only [Option.map_eq_some_iff, Prod.exists, exists_and_right, exists_eq_right]
    constructor
    · rintro ⟨n, found⟩
      obtain ⟨-, rest, ⟨indent, gap, rfl, blank, some_gap, gap_blank, within⟩, rfl, -⟩ :=
        exists_of_match? found
      obtain ⟨g, gap, rfl⟩ := List.exists_cons_of_ne_nil some_gap
      refine ⟨g :: gap ++ mark :: (path ++ mark :: rest), ?_, ?_, ?_⟩
      · have := Text.dropWhile_append_cons (u := 35) (fun u hu => blank_of (blank u hu)) (by decide)
          ((keyword .inclusion).tail ++ (g :: gap ++ mark :: (path ++ mark :: rest)))
        rw [Text.trimStart]
        simpa [keyword_inclusion] using this
      · simpa using no_part (gap_blank g (by simp))
      · refine quoted?_eq_some_iff.2 ⟨g :: gap, rest, rfl, gap_blank, fun u hu => ?_⟩
        have := within u hu
        simp only [inPath, Bool.and_eq_true] at this
        exact this.1.1
    · rintro ⟨tail, start, whole, found⟩
      obtain ⟨gap, rest, rfl, gap_blank, inner⟩ := quoted?_eq_some_iff.1 found
      have eq : line = line.takeWhile Text.isBlank ++ Text.trimStart line :=
        List.takeWhile_append_dropWhile.symm
      have indent := plain.indent (opens_inclusion_iff.2 ⟨_, start, whole⟩)
      have some_gap : gap ≠ [] := by
        rintro rfl
        have := plain.gap
        rw [start] at this
        simp [Text.startsWith, keyword_inclusion, List.isPrefixOf] at this
      have within : ∀ u ∈ path, inPath u := by
        intro u hu
        have mem : u ∈ line := by
          rw [eq, start]
          simp [hu]
        have outer : u ≠ Text.lineFeed ∧ u ≠ Text.carriageReturn := by
          simpa [Text.isBreak] using unbroken u mem
        have other : u ≠ mark := bne_iff_ne.1 (inner u hu)
        simp [inPath, unit_mark, outer, other]
      refine ⟨_, match?_eq_some_iff.2
        ⟨_, rest, ⟨line.takeWhile Text.isBlank, gap, rfl, indent, some_gap,
        gap_blank, within⟩, ?_, rfl⟩⟩
      conv => lhs; rw [eq, start]
      simp
  refine Option.ext fun path => ?_
  simp only [Option.filter_eq_some_iff, scan_iff, read?]
  constructor
  · rintro ⟨⟨tail, start, whole, found⟩, some_⟩
    rw [if_pos (opens_inclusion_iff.2 ⟨tail, start, whole⟩), start, List.drop_left]
    simp [found, some_, Option.filter_eq_some_iff]
  · intro found
    split at found
    next opens =>
      obtain ⟨tail, start, whole⟩ := opens_inclusion_iff.1 opens
      rw [start, List.drop_left, Option.filter_eq_some_iff] at found
      exact ⟨⟨tail, start, whole, found.1⟩, found.2⟩
    next => simp at found

theorem agrees_of_isPlain (plain : IsPlain line) (unbroken : Text.Unbroken line) : Agrees line := by
  rw [Agrees, specifiers, specifiersAux_eq_match? plain, ← filter_match?_eq_read? plain unbroken,
    Option.toList_filter]

/-- A document all of whose lines are plain names, for the scan, exactly the documents that it
includes when it is read, in order, each once. -/
theorem targets_eq_inclusions (uri : Uri) (t : Text) (plain : ∀ l ∈ t.lines, IsPlain l.content) :
    targets uri t = ((Module.read uri t).inclusions.map Inclusion.target).eraseDups :=
  targets_eq_of_agrees uri fun l mem =>
    agrees_of_isPlain (plain l mem) (Text.unbroken_of_mem_linesFrom mem)

/-- An include line behind another one, indented and repeated. -/
theorem targets_eq_inclusions_repeated :
    let t : Text := "#include \"a\"\n \t#include  \"b\" // \"c\"\n= T\n#include \"a\""
    (∀ l ∈ t.lines, IsPlain l.content) ∧
      targets "/m" t = ((Module.read "/m" t).inclusions.map Inclusion.target).eraseDups :=
  ⟨by decide +kernel, targets_eq_inclusions "/m" _ (by decide +kernel)⟩

/-- The reader includes a document whose path follows the directive at once, and the scan misses
it. -/
theorem not_targets_eq_inclusions : ¬ ∀ (uri : Uri) (t : Text),
    targets uri t = ((Module.read uri t).inclusions.map Inclusion.target).eraseDups := by
  intro same
  have found : ((Module.read "/m" "#include\"a\"").inclusions.map Inclusion.target).eraseDups =
      [Text.ofString "/a"] := by decide +kernel
  have missed : targets "/m" "#include\"a\"" = [] := by decide +kernel
  simpa [found, missed] using same "/m" "#include\"a\""

end Includes

end Quill
