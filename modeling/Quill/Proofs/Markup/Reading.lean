import Quill.Markup.Reader
import Quill.Proofs.Markup.Identifier

/-!
# Reading without places

Where a text stands does not matter to what it says. A reading is what a scan finds, without the
places. Text without a comment is read word by word.

## Main definitions

* `Item.bare` — an item without its place.
* `Reading` — items, problems, and the emphasis signs left open.
* `Inline.reading`, `Inline.readWords` — the reading of a text, and of words one after another.

## Main statements

* `Inline.bare_scan_congr` — a scan finds the same everywhere.
* `Inline.reading_append` — two texts that stand apart are read one after the other.
* `Inline.reading_eq_readWords` — text without a comment is read as its words are.
-/

namespace Quill

/-! ## Items and readings -/

def Span.nowhere : Span := ⟨0, 0⟩

def Mark.bare (m : Mark) : Mark := ⟨m.name, .nowhere, .nowhere⟩

def Item.bare : Item → Item
  | .heading h => .heading { h with span := .nowhere, titleSpan := .nowhere }
  | .label m => .label m.bare
  | .reference m => .reference m.bare
  | .binding b => .binding { b with span := .nowhere, nameSpan := .nowhere, valueSpan := .nowhere }
  | .use m => .use m.bare
  | .inclusion i => .inclusion { i with span := .nowhere, pathSpan := .nowhere }

/-- What is taken from some text, without places. -/
@[ext] structure Reading where
  items : List Item
  problems : List SyntaxProblem
  opened : List Emphasis

namespace Reading

/-- Nothing is taken; the signs stay open. -/
def nothing (opened : List Emphasis) : Reading := ⟨[], [], opened⟩

def andThen (r : Reading) (next : List Emphasis → Reading) : Reading :=
  ⟨r.items ++ (next r.opened).items, r.problems ++ (next r.opened).problems, (next r.opened).opened⟩

def unclosed (opened : List Emphasis) : List SyntaxProblem := opened.map .unclosedDelimiter

/-- What is read apart from a paragraph ends the paragraph. -/
def apart (opened : List Emphasis) (items : List Item) (problems : List SyntaxProblem) : Reading :=
  ⟨items, unclosed opened ++ problems, []⟩

variable {opened : List Emphasis}

@[simp] theorem nothing_andThen (next : List Emphasis → Reading) :
    (nothing opened).andThen next = next opened := by
  simp [nothing, andThen]

@[simp] theorem andThen_nothing (r : Reading) : r.andThen nothing = r := by
  simp [nothing, andThen]

theorem andThen_assoc (r : Reading) (f g : List Emphasis → Reading) :
    (r.andThen f).andThen g = r.andThen fun opened => (f opened).andThen g := by
  simp [andThen]

@[simp] theorem unclosed_eq_nil_iff : unclosed opened = [] ↔ opened = [] := by
  simp [unclosed]

end Reading

def Inline.bare (r : Inline) : Reading :=
  ⟨r.items.map Item.bare, r.errors.map SyntaxError.problem, r.opened.map OpenSign.emphasis⟩

def LineRead.bare (r : LineRead) : Reading :=
  ⟨r.items.map Item.bare, r.errors.map SyntaxError.problem, r.opened.map OpenSign.emphasis⟩

def Emphasis.signs (es : List Emphasis) : List OpenSign := es.map (⟨·, 0⟩)

@[simp] theorem Emphasis.map_signs (es : List Emphasis) :
    (Emphasis.signs es).map OpenSign.emphasis = es := by
  simp [Emphasis.signs, Function.comp_def]

/-! ## Scans -/

namespace Inline

open Text (Blank IsWord Apart)

variable {skip offset offset' : Nat} {before before' : Option UInt16}
  {opened opened' : List OpenSign} {t w a rest : Text} {u : UInt16} {e : Emphasis}

theorem map_toggle (same : opened.map OpenSign.emphasis = opened'.map OpenSign.emphasis) :
    (toggle opened e offset).map OpenSign.emphasis =
      (toggle opened' e offset').map OpenSign.emphasis := by
  have closes (o : List OpenSign) : (o.any (·.emphasis == e)) =
      (o.map OpenSign.emphasis).any (· == e) := by
    simp [List.any_map, Function.comp_def]
  have closed (o : List OpenSign) :
      (o.reverse.eraseP (·.emphasis == e)).reverse.map OpenSign.emphasis =
      ((o.map OpenSign.emphasis).reverse.eraseP (· == e)).reverse := by
    rw [← List.map_reverse, List.eraseP_map, List.map_reverse]
    rfl
  unfold toggle
  rw [closes opened, closes opened', same]
  split
  · rw [closed, closed, same]
  · simp [same]

theorem bare_consItem (i : Item) (r : Inline) :
    (consItem i r).bare = ⟨i.bare :: r.bare.items, r.bare.problems, r.bare.opened⟩ := rfl

theorem bare_consError (x : SyntaxError) (r : Inline) :
    (consError x r).bare = ⟨r.bare.items, x.problem :: r.bare.problems, r.bare.opened⟩ := rfl

/-- A scan finds the same everywhere, and only of a word before it takes notice. -/
theorem bare_scan_congr (same : opened.map OpenSign.emphasis = opened'.map OpenSign.emphasis)
    (word : before.any Identifier.isWord = before'.any Identifier.isWord) :
    (scan skip offset before opened t).bare = (scan skip offset' before' opened' t).bare := by
  induction t generalizing skip offset offset' before before' opened opened' with
  | nil => simp [scan, bare, same]
  | cons u rest ih =>
    have on {skip} {o o' : List OpenSign}
        (same : o.map OpenSign.emphasis = o'.map OpenSign.emphasis) :
        (scan skip (offset + 1) (some u) o rest).bare =
          (scan skip (offset' + 1) (some u) o' rest).bare :=
      ih same rfl
    cases skip with
    | succ skip => exact on same
    | zero =>
      have sign : emphasis? before u rest = emphasis? before' u rest := by
        simp only [emphasis?, word]
      simp only [scan, sign]
      split
      · exact on same
      · split
        · simp [bare, same]
        · split
          · split
            · rw [bare_consItem, bare_consItem, on same]
              rfl
            · exact on same
          · split
            · split
              · rw [bare_consItem, bare_consItem, on same]
                rfl
              · exact on same
            · split
              · split
                · split
                  · rw [bare_consError, bare_consError, on same]
                  · rw [bare_consItem, bare_consItem, on same]
                    rfl
                · exact on same
              · split
                · exact on (map_toggle same)
                · exact on same

def reading (es : List Emphasis) (t : Text) : Reading := (scan 0 0 none (Emphasis.signs es) t).bare

theorem bare_scan_eq (word : before.any Identifier.isWord = false) :
    (scan 0 offset before opened t).bare = reading (opened.map OpenSign.emphasis) t :=
  bare_scan_congr (by simp) (by simpa using word)

/-! ## Scans word by word -/

theorem not_isWord_of_isBlank (blank : Text.isBlank u = true) : Identifier.isWord u = false := by
  refine Bool.eq_false_iff.2 fun word => ?_
  have := Identifier.not_isBlank_of_isPart (Identifier.isPart_of_isWord word)
  simp [this] at blank

theorem scan_cons_blank (blank : Text.isBlank u = true) (skip : Nat) (hs : skip ≤ 1) :
    scan skip offset before opened (u :: rest) = scan 0 (offset + 1) (some u) opened rest := by
  have other {c : UInt16} (solid : Text.isBlank c = false) : (u == c) = false :=
    beq_eq_false_iff_ne.2 fun eq => by simp [eq, solid] at blank
  cases skip with
  | succ skip =>
    obtain rfl : skip = 0 := by omega
    rfl
  | zero =>
    have slash : startsComment u rest = false := by
      simp [startsComment, other (c := Posix.slash) (by decide)]
    have sign : emphasis? before u rest = none := by
      simp [emphasis?, other (c := Text.unit '*') (by decide),
        other (c := Text.unit '_') (by decide)]
    simp [scan, slash, sign, other (c := backslash) (by decide),
      other (c := Text.unit '<') (by decide),
      other (c := Text.unit '@') (by decide), other (c := Text.unit '#') (by decide)]

theorem bare_scan_blank (blank : Blank t) (hs : skip ≤ 1) :
    (scan skip offset before opened t).bare = .nothing (opened.map OpenSign.emphasis) := by
  induction t generalizing skip offset before with
  | nil => rfl
  | cons u rest ih =>
    rw [Text.blank_cons] at blank
    rw [scan_cons_blank blank.1 skip hs]
    exact ih blank.2 (by omega)

theorem reading_blank (blank : Blank t) (es : List Emphasis) : reading es t = .nothing es := by
  rw [reading, bare_scan_blank blank (by omega), Emphasis.map_signs]

/-- Right behind a word, a scan starts anew, even if the last sign of the word hides a unit. -/
theorem bare_scan_apart (apart : Apart rest) (hs : skip ≤ 1) :
    (scan skip offset before opened rest).bare = reading (opened.map OpenSign.emphasis) rest := by
  cases rest with
  | nil => simp [scan, bare, reading]
  | cons u rest =>
    have blank := Text.apart_cons.1 apart
    rw [scan_cons_blank blank skip hs, reading, scan_cons_blank blank 0 (by omega)]
    exact bare_scan_congr (by simp) rfl

theorem labelName?_append (apart : Apart rest) (t : Text) :
    labelName? (t ++ rest) = labelName? t := by
  unfold labelName?
  rw [Identifier.leading?_append_apart apart]
  cases found : Identifier.leading? t with
  | none => rfl
  | some name =>
    obtain ⟨behind, rfl⟩ := Identifier.isPrefixOf_of_leading? found
    have closing : ∀ u, Text.isBlank u = true → (u == Text.unit '>') = false := by
      intro u blank
      refine beq_eq_false_iff_ne.2 fun eq => ?_
      rw [eq] at blank
      revert blank
      decide
    have head (t : Text) : (t.head? == some (Text.unit '>')) =
        t.head?.any (· == Text.unit '>') := by
      cases t <;> simp
    dsimp only
    rw [List.append_assoc, List.drop_left, List.drop_left, head, head,
      Text.head?_append_apart apart closing]

theorem length_le_of_leading? {name : Text} (found : Identifier.leading? t = some name) :
    name.length ≤ t.length :=
  (Identifier.isPrefixOf_of_leading? found).length_le

theorem length_lt_of_labelName? {name : Text} (found : labelName? t = some name) :
    name.length < t.length := by
  unfold labelName? at found
  split at found
  next n leads =>
    obtain ⟨behind, rfl⟩ := Identifier.isPrefixOf_of_leading? leads
    split at found
    next closed =>
      obtain rfl : n = name := by simpa using found
      cases behind <;> simp at closed ⊢
    next => simp at found
  next => simp at found

theorem startsComment_append (apart : Apart rest) (u : UInt16) (t : Text) :
    startsComment u (t ++ rest) = startsComment u t := by
  cases t with
  | cons v t => rfl
  | nil =>
    cases rest with
    | nil => rfl
    | cons v rest =>
      have other : v ≠ Posix.slash := by
        rintro rfl
        exact absurd (Text.apart_cons.1 apart) (by decide)
      simp [startsComment, other]

theorem emphasis?_append (apart : Apart rest) (before : Option UInt16) (u : UInt16) (t : Text) :
    emphasis? before u (t ++ rest) = emphasis? before u t := by
  simp only [emphasis?, Text.head?_append_apart apart fun _ => not_isWord_of_isBlank]

theorem bare_consItem_andThen {r r' : Inline} {next : List Emphasis → Reading} (i : Item)
    (same : r.bare = r'.bare.andThen next) :
    (consItem i r).bare = (consItem i r').bare.andThen next := by
  rw [bare_consItem, same]
  rfl

theorem bare_consError_andThen {r r' : Inline} {next : List Emphasis → Reading} (x : SyntaxError)
    (same : r.bare = r'.bare.andThen next) :
    (consError x r).bare = (consError x r').bare.andThen next := by
  rw [bare_consError, same]
  rfl

theorem not_startsComment (quiet : Text.occursIn "//" (u :: t) = false) :
    startsComment u t = false := by
  refine Bool.eq_false_iff.2 fun starts => Bool.eq_false_iff.1 quiet ?_
  obtain ⟨rfl, first⟩ : u = Posix.slash ∧ t.head? = some Posix.slash := by
    simpa [startsComment] using starts
  cases t with
  | nil => simp at first
  | cons v t =>
    obtain rfl : v = Posix.slash := by simpa using first
    exact Text.occursIn_iff.2 ⟨[], t, rfl⟩

/-- A text and something apart from it are scanned one after the other. A comment goes on to the
end, so that there must be none, or nothing behind it. -/
theorem bare_scan_append (apart : Apart rest) (quiet : Text.occursIn "//" w = false ∨ Blank rest)
    (le : skip ≤ w.length + 1) : (scan skip offset before opened (w ++ rest)).bare =
      (scan skip offset before opened w).bare.andThen fun es => reading es rest := by
  induction w generalizing skip offset before opened with
  | nil =>
    rw [List.nil_append, bare_scan_apart apart (by simpa using le)]
    simp [scan, bare, Reading.andThen]
  | cons u w ih =>
    have quiet' : Text.occursIn "//" w = false ∨ Blank rest := by
      refine quiet.imp_left fun quiet => Bool.eq_false_iff.2 fun occurs =>
        Bool.eq_false_iff.1 quiet ?_
      obtain ⟨a, b, eq⟩ := Text.occursIn_iff.1 occurs
      exact Text.occursIn_iff.2 ⟨u :: a, b, by simp [← eq]⟩
    have on {skip opened} (le : skip ≤ w.length + 1) :=
      @ih skip (offset + 1) (some u) opened quiet' le
    cases skip with
    | succ skip => exact on (by simpa using le)
    | zero =>
      rw [List.cons_append, scan, scan, startsComment_append apart, labelName?_append apart,
        Identifier.leading?_append_apart apart, emphasis?_append apart]
      dsimp only
      split
      next => exact on (by omega)
      split
      next comment =>
        rcases quiet with quiet | blank
        · simp [not_startsComment quiet] at comment
        · simp [Reading.andThen, reading_blank blank, Reading.nothing, bare]
      split
      next =>
        split
        next name found =>
          exact bare_consItem_andThen _ (on (by have := length_lt_of_labelName? found; omega))
        next => exact on (by omega)
      split
      next =>
        split
        next name found =>
          exact bare_consItem_andThen _ (on (by have := length_le_of_leading? found; omega))
        next => exact on (by omega)
      split
      next =>
        split
        next name found =>
          have le : name.length ≤ w.length + 1 := by have := length_le_of_leading? found; omega
          split
          · exact bare_consError_andThen _ (on le)
          · exact bare_consItem_andThen _ (on le)
        next => exact on (by omega)
      split
      · exact on (by omega)
      · exact on (by omega)

/-- Blanks in front of a text are nothing to its reading. -/
theorem reading_blank_append (blank : Blank a) (es : List Emphasis) (t : Text) :
    reading es (a ++ t) = reading es t := by
  induction a with
  | nil => rfl
  | cons u a ih =>
    rw [Text.blank_cons] at blank
    rw [List.cons_append, reading, scan_cons_blank blank.1 0 (by omega), bare_scan_eq (by
      simpa using not_isWord_of_isBlank blank.1), Emphasis.map_signs, ih blank.2]

theorem reading_append (apart : Apart rest) (quiet : Text.occursIn "//" t = false ∨ Blank rest)
    (es : List Emphasis) : reading es (t ++ rest) = (reading es t).andThen fun es =>
      reading es rest :=
  bare_scan_append apart quiet (by omega)

theorem reading_append_blank (blank : Blank a) (es : List Emphasis) (t : Text) :
    reading es (t ++ a) = reading es t := by
  have last : (fun es => reading es a) = Reading.nothing := funext (reading_blank blank)
  rw [reading_append blank.apart (.inr blank), last, Reading.andThen_nothing]

theorem reading_trimStart (es : List Emphasis) (t : Text) :
    reading es (Text.trimStart t) = reading es t := by
  obtain ⟨gap, blank, eq⟩ := Text.exists_blank_append_trimStart t
  conv => rhs; rw [eq, reading_blank_append blank]

def readWords (es : List Emphasis) : List Text → Reading
  | [] => .nothing es
  | w :: ws => (reading es w).andThen fun es => readWords es ws

theorem readWords_append (es : List Emphasis) (ws vs : List Text) :
    readWords es (ws ++ vs) = (readWords es ws).andThen fun es => readWords es vs := by
  induction ws generalizing es with
  | nil => simp [readWords]
  | cons w ws ih => simp only [List.cons_append, readWords, Reading.andThen_assoc, ih]

theorem reading_eq_readWords (quiet : ∀ w ∈ Text.words t, Text.occursIn "//" w = false)
    (es : List Emphasis) : reading es t = readWords es (Text.words t) := by
  induction t using Text.word_induction generalizing es with
  | blank t blank => rw [reading_blank blank, blank.words, readWords]
  | word indent w rest indented word apart ih =>
    rw [Text.words_blank_append indented, Text.words_word_append word apart] at quiet ⊢
    rw [reading_blank_append indented, reading_append apart (.inl (quiet w (by simp))), readWords]
    exact congrArg _ (funext fun es => ih (fun w mem => quiet w (by simp [mem])) es)

end Inline

end Quill
