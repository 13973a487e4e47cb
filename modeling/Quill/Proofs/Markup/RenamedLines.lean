import Quill.Proofs.Markup.Renamed

/-!
# Lines with other names

A line with other names is of the same kind, and its parts are those of the line with the other
names in them.

## Main definitions

* `LineRead.Renamed` — what is read from a line, before and after.
* `Module.Form` — what kinds of lines there are.
* `Module.LineDraft` — a draft of a line: with other names it is read as before.

## Main statements

* `LineRead.inclusion_cases` — an include line is an error or names a document.
* `Module.form` — every line is of one of the kinds.
* `Module.exists_lineDraft` — every line has a draft.
-/

namespace Quill

open List (Forall₂)
open Draft (units)
open Text (Blank isSpaceOrTab)
open Identifier (isPart isValid leading?)
open Inline (Lexed Ends beforeComment)
open Directive (keyword)
open Includes (mark unit_mark)

variable {ρ : Renaming} {R : Int → Int → Prop} {d : Draft} {o o' : Nat} {t x : Text} {u : UInt16}

namespace LineRead

/-! ## Parts of lines -/

structure PartsRenamed (ρ : Renaming) (R : Int → Int → Prop) (p p' : List Item × List SyntaxError) :
    Prop where
  items : Forall₂ (Item.Renamed ρ R) p.1 p'.1
  errors : Forall₂ (SyntaxError.Moved R) p.2 p'.2

structure Renamed (ρ : Renaming) (R : Int → Int → Prop) (r r' : LineRead) : Prop where
  items : Forall₂ (Item.Renamed ρ R) r.items r'.items
  errors : Forall₂ (SyntaxError.Moved R) r.errors r'.errors
  opened : Forall₂ (OpenSign.Moved R) r.opened r'.opened

theorem forall₂_unclosed {opened opened' : List OpenSign}
    (h : Forall₂ (OpenSign.Moved R) opened opened') :
    Forall₂ (SyntaxError.Moved R) (Inline.unclosed opened) (Inline.unclosed opened') := by
  induction h with
  | nil => exact .nil
  | cons first rest ih =>
    exact .cons ⟨congrArg SyntaxProblem.unclosedDelimiter first.emphasis, first.start, first.stop⟩
      ih

/-- The text of a heading or a value begins behind a gap, and ends in front of a comment and the
blanks before it. -/
def content (x : Text) : Text := Text.trimEnd (beforeComment 0 x)

/-- A content is scanned text, and what follows it follows it under other names, too. -/
theorem exists_content (x : Text) : ∃ d more, Lexed d ∧ x = d.text ++ more ∧ Ends more ∧
    ∀ ρ, content ((d.rename ρ).text ++ more) = (d.rename ρ).text := by
  obtain ⟨comment, comment_eq, slash⟩ := exists_beforeComment_append 0 x
  obtain ⟨gap, gap_eq, blank⟩ := Text.exists_trimEnd_append (beforeComment 0 x)
  obtain ⟨d, lexed, d_eq⟩ := Inline.exists_lexed (content x)
  have blank : Blank gap := List.all_eq_true.1 blank
  have before : beforeComment 0 x = d.text ++ gap := by rw [gap_eq, d_eq]; rfl
  have whole : x = d.text ++ (gap ++ comment) := by rw [← List.append_assoc, ← before, comment_eq]
  have trimmed : Text.trimEnd d.text = d.text := by rw [d_eq, content, Text.trimEnd_trimEnd]
  refine ⟨d, gap ++ comment, lexed, whole, ?_, fun ρ => ?_⟩
  · cases gap with
    | nil => exact fun u first => slash u first ▸ by decide
    | cons v gap =>
      have blank := Identifier.not_isPart_of_isBlank (blank v (by simp))
      exact fun u first => Option.some.inj first ▸ blank
  rw [whole] at before
  rw [content, lexed.beforeComment_rename before ρ, Text.trimEnd_append_of_blank blank,
    Draft.trimEnd_text_rename lexed.valid trimmed]

/-! ## Headings -/

def titled (level : Nat) (span : Span) (start : Nat) (content : Text) :
    List Item × List SyntaxError :=
  let inline := Inline.scan 0 start none [] content
  let title := Heading.titleOf content
  let heading : Heading :=
    { level, title, span, titleSpan := ⟨start, start + content.length⟩
      label := (inline.items.findSome? Item.label?).map Mark.name }
  (.heading heading :: inline.items,
    inline.errors ++ Inline.unclosed inline.opened ++
      if title.isEmpty then [⟨.emptyHeading, span⟩] else [])

theorem heading_eq {marks gap : Text} (marks_ : ∀ u ∈ marks, (u == Text.unit '=') = true)
    (ends : ∀ u ∈ (gap ++ x).head?, (u == Text.unit '=') = false)
    (spaces : ∀ u ∈ gap, isSpaceOrTab u = true) (solid : ∀ u ∈ x.head?, isSpaceOrTab u = false)
    (offset : Nat) : heading offset (marks ++ (gap ++ x)) =
      titled marks.length ⟨offset, offset + (Text.trimEnd (marks ++ (gap ++ x))).length⟩
        (offset + marks.length + gap.length) (content x) := by
  simp only [heading, Text.takeWhile_append marks_ ends, List.drop_left,
    Text.takeWhile_append spaces solid]
  rfl

theorem blank_collapseBlanks_iff (inside : Bool) (t : Text) :
    Blank (Text.collapseBlanks inside t) ↔ Blank t := by
  induction t generalizing inside with
  | nil => rfl
  | cons u t ih => cases inside <;> simp only [Text.collapseBlanks] <;> split <;>
    simp_all [Text.isBlank_space]

theorem titleOf_eq_nil_iff (content : Text) :
    Heading.titleOf content = [] ↔ Blank (Inline.withoutLabels 0 content) := by
  rw [Heading.titleOf, Text.trim_eq_nil_iff, blank_collapseBlanks_iff]

theorem findSome?_label? {items items' : List Item} (h : Forall₂ (Item.Renamed ρ R) items items') :
    (items'.findSome? Item.label?).map Mark.name =
      ((items.findSome? Item.label?).map Mark.name).map (ρ.apply .label) := by
  induction h with
  | nil => rfl
  | cons first rest ih =>
    cases first with
    | label same => exact congrArg some same.name
    | heading | reference | binding | use | inclusion => exact ih

theorem renamed_titled (lexed : Lexed d) (follows : d.Follows ρ R o o') {span span' : Span}
    (moved : span.Moved R span') (level : Nat) :
    PartsRenamed ρ R (titled level span o d.text) (titled level span' o' (d.rename ρ).text) := by
  have scan := lexed.renamed_scan_start follows
  refine ⟨.cons (.heading ?_) scan.items, ?_⟩
  · exact ⟨rfl, ⟨_, _, ⟨d, lexed, rfl, rfl⟩, rfl, rfl⟩, moved, ⟨follows.start, follows.stop⟩,
      findSome?_label? scan.items⟩
  · refine List.rel_append (List.rel_append scan.errors (forall₂_unclosed scan.opened)) ?_
    have same : (Heading.titleOf (d.rename ρ).text).isEmpty = (Heading.titleOf d.text).isEmpty := by
      rw [Bool.eq_iff_iff, List.isEmpty_iff, List.isEmpty_iff, titleOf_eq_nil_iff,
        titleOf_eq_nil_iff, lexed.blank_withoutLabels_iff]
    simp only [same]
    split
    · exact .cons ⟨rfl, moved⟩ .nil
    · exact .nil

theorem names_titled (lexed : Lexed d) (level : Nat) (span : Span) (start : Nat) :
    (titled level span start d.text).1.filterMap Name.ofItem? = d.names start :=
  (List.filterMap_cons_none rfl).trans (lexed.names_eq start none [])

/-! ## Drafts of lines -/

/-- A draft of a line that `read` reads: its names are those of the items, and with other names the
line is read as before. -/
structure Drafted (read : Nat → Text → List Item × List SyntaxError) (d : Draft) : Prop where
  valid : d.Valid
  names_eq : ∀ o, (read o d.text).1.filterMap Name.ofItem? = d.names o
  renamed : ∀ {ρ R o o'}, d.Follows ρ R o o' →
  PartsRenamed ρ R (read o d.text) (read o' (d.rename ρ).text)

theorem head?_append_rename (lexed : Lexed d) (more : Text) :
    ((d.rename ρ).text ++ more).head? = (d.text ++ more).head? := by
  simp only [List.head?_append, (lexed.sameLead ρ).head?_eq]

theorem drafted_heading {marks gap more : Text} (marks_ : ∀ u ∈ marks, (u == Text.unit '=') = true)
    (ends : ∀ u ∈ (gap ++ (d.text ++ more)).head?, (u == Text.unit '=') = false)
    (spaces : ∀ u ∈ gap, isSpaceOrTab u = true) (lexed : Lexed d)
    (solid : ∀ u ∈ (d.text ++ more).head?, isSpaceOrTab u = false)
    (content_eq : ∀ ρ, content ((d.rename ρ).text ++ more) = (d.rename ρ).text) :
    Drafted heading (units marks ++ (units gap ++ (d ++ units more))) := by
  have valid :
      Draft.Valid (units marks ++ (units gap ++ (d ++ units more))) := by simpa using lexed.valid
  have read (ρ : Renaming) (o : Nat) := heading_eq (x := (d.rename ρ).text ++ more) marks_
    (by rwa [List.head?_append, head?_append_rename lexed, ← List.head?_append]) spaces
    (by rwa [head?_append_rename lexed]) o
  simp only [content_eq] at read
  have read' (o : Nat) := read .refl o
  simp only [Draft.rename_refl] at read'
  refine ⟨valid, fun o => ?_, fun {ρ R o o'} follows => ?_⟩
  · simp only [Draft.text_append, Draft.text_units]
    rw [read', names_titled lexed]
    simp
  · -- the heading goes up to the blanks at the end of the line
    obtain ⟨kept, gap', eq, trimmed⟩ := Draft.exists_trimEnd valid
    have trimmed' := trimmed .refl
    have stop := (eq ▸ follows).left.stop
    simp only [Draft.rename_refl] at trimmed'
    rw [← trimmed, ← trimmed'] at stop
    simp only [Draft.rename_append, Draft.rename_units, Draft.text_append,
      Draft.text_units] at stop ⊢
    rw [read', read]
    have inner :
        d.Follows ρ R (o + marks.length + gap.length) (o' + marks.length + gap.length) := by
      simpa using follows.right.right.left
    exact renamed_titled lexed inner ⟨follows.start, stop⟩ _

theorem exists_headingDraft (tail : Text) : ∃ d, Draft.text d = tail ∧
    Drafted heading (.unit (Text.unit '=') :: d) ∧
    Draft.Isolated none (.unit (Text.unit '=') :: d) := by
  obtain ⟨marks, rest, rfl, marks_, ends⟩ := Text.exists_run (· == Text.unit '=') tail
  obtain ⟨gap, x, rfl, spaces, solid⟩ := Text.exists_run isSpaceOrTab rest
  obtain ⟨d, more, lexed, rfl, ends_, content_eq⟩ := exists_content x
  have marks_ : ∀ u ∈ Text.unit '=' :: marks, (u == Text.unit '=') = true :=
    List.forall_mem_cons.2 ⟨beq_self_eq_true _, marks_⟩
  exact ⟨units marks ++ (units gap ++ (d ++ units more)), by simp,
    drafted_heading marks_ ends spaces lexed solid content_eq,
    Draft.isolated_units_append.2 (Draft.isolated_units_append.2
      ((lexed.isolated.append_units ends_).of_none _))⟩

/-! ## Bindings -/

def valued (name : Text) (offset nameStart start : Nat) (value : Text) :
    List Item × List SyntaxError :=
  let inline := Inline.scan 0 start none [] value
  let stop := start + value.length
  (.binding ⟨name, value, ⟨offset, stop⟩, ⟨nameStart, nameStart + name.length⟩, ⟨start, stop⟩⟩ ::
      inline.items,
    inline.errors ++ Inline.unclosed inline.opened)

theorem binding_eq {gap gap' gap'' name : Text} (spaces : ∀ u ∈ gap, isSpaceOrTab u = true)
    (valid : isValid name) (spaces' : ∀ u ∈ gap', isSpaceOrTab u = true)
    (spaces'' : ∀ u ∈ gap'', isSpaceOrTab u = true) (solid : ∀ u ∈ x.head?, isSpaceOrTab u = false)
    (offset : Nat) :
    binding offset (keyword .binding ++
      (gap ++ (name ++ (gap' ++ Text.unit '=' :: (gap'' ++ x))))) =
      valued name offset (offset + (keyword .binding).length + gap.length)
        (offset + (keyword .binding).length + gap.length + name.length + gap'.length +
          1 + gap''.length)
        (content x) := by
  have leads : leading? (name ++ (gap' ++ Text.unit '=' :: (gap'' ++ x))) = some name :=
    Identifier.leading?_append valid (not_isPart_of_gap spaces' (by decide) _)
  have name_solid : ∀ u ∈ (name ++ (gap' ++ Text.unit '=' :: (gap'' ++ x))).head?,
      isSpaceOrTab u = false := by
    obtain ⟨v, name, rfl⟩ := List.exists_cons_of_ne_nil (Draft.ne_nil_of_isValid valid)
    have part := Identifier.isPart_of_isValid valid v (by simp)
    intro u first
    obtain rfl : v = u := by simpa using first
    refine Bool.eq_false_iff.2 fun space => ?_
    have blank := isBlank_of_isSpaceOrTab space
    simp [Identifier.not_isBlank_of_isPart part] at blank
  have sign : (gap' ++ Text.unit '=' :: (gap'' ++ x)).takeWhile isSpaceOrTab = gap' :=
    Text.takeWhile_append_cons spaces' (by decide) _
  simp only [binding, List.drop_left, Text.takeWhile_append spaces name_solid, leads, sign,
    Text.takeWhile_append spaces'' solid, beq_self_eq_true, if_true]
  rfl

theorem names_valued (lexed : Lexed d) (name : Text) (offset nameStart start : Nat) :
    (valued name offset nameStart start d.text).1.filterMap Name.ofItem? =
      ⟨.binding, name, ⟨nameStart, nameStart + name.length⟩⟩ :: d.names start :=
  congrArg _ (lexed.names_eq start none [])

theorem renamed_valued (lexed : Lexed d) (follows : d.Follows ρ R o o') {name : Text}
    {offset offset' nameStart nameStart' : Nat} (start : R offset offset')
    (name_ : R nameStart nameStart')
    (stop : R (nameStart + name.length : Nat) (nameStart' + (ρ.apply .binding name).length : Nat)) :
    PartsRenamed ρ R (valued name offset nameStart o d.text)
      (valued (ρ.apply .binding name) offset' nameStart' o' (d.rename ρ).text) := by
  have scan := lexed.renamed_scan_start follows
  refine ⟨.cons (.binding ⟨rfl, ⟨d, lexed, rfl, rfl⟩, ⟨start, follows.stop⟩, ⟨name_, stop⟩,
    follows.start, follows.stop⟩) scan.items, ?_⟩
  exact List.rel_append scan.errors (forall₂_unclosed scan.opened)

theorem drafted_binding {gap gap' gap'' name more : Text}
    (spaces : ∀ u ∈ gap, isSpaceOrTab u = true)
    (valid : isValid name) (spaces' : ∀ u ∈ gap', isSpaceOrTab u = true)
    (spaces'' : ∀ u ∈ gap'', isSpaceOrTab u = true) (lexed : Lexed d)
    (solid : ∀ u ∈ (d.text ++ more).head?, isSpaceOrTab u = false)
    (content_eq : ∀ ρ, content ((d.rename ρ).text ++ more) = (d.rename ρ).text) :
    Drafted binding (units (keyword .binding) ++ (units gap ++ (.name .binding name ::
      (units gap' ++ (.unit (Text.unit '=') :: (units gap'' ++ (d ++ units more))))))) := by
  have read (ρ : Renaming) (o : Nat) := binding_eq spaces (ρ.valid .binding valid) spaces' spaces''
    (x := (d.rename ρ).text ++ more) (by rwa [head?_append_rename lexed]) o
  simp only [content_eq] at read
  have read' (o : Nat) := read .refl o
  simp only [Draft.rename_refl, Renaming.refl_apply] at read'
  refine ⟨by simpa [valid] using lexed.valid, fun o => ?_, fun {ρ R o o'} follows => ?_⟩
  · simp only [Draft.text_append, Draft.text_units, Draft.text_name_cons, Draft.text_unit_cons]
    rw [read', names_valued lexed]
    simp [Draft.names, Nat.add_assoc]
  · simp only [Draft.rename_append, Draft.rename_units, Draft.rename_cons, Draft.rename_name,
      Draft.rename_unit,
      Draft.text_append, Draft.text_units, Draft.text_name_cons, Draft.text_unit_cons]
    rw [read', read]
    -- the places in front of the name, behind it, and in front of the value
    have at_name := follows.right.right
    have behind := at_name.2.right.2.right
    refine renamed_valued lexed ?_ follows.start ?_ ?_
    · simpa [Nat.add_assoc] using behind.left
    · simpa [Nat.add_assoc] using at_name.start
    · simpa [Nat.add_assoc] using at_name.2.start

/-! ## Lines without names -/

/-- A line without names is read alike in another place. -/
theorem drafted_units {read : Nat → Text → List Item × List SyntaxError}
    (none : ∀ o, (read o t).1.filterMap Name.ofItem? = [])
    (shift : ∀ {ρ R o o'}, (∀ {k : Nat}, k ≤ t.length → R (o + k : Nat) (o' + k : Nat)) →
      PartsRenamed ρ R (read o t) (read o' t)) : Drafted read (units t) where
  valid := Draft.valid_units t
  names_eq o := by rw [Draft.text_units, none, Draft.names_units]
  renamed follows := by
    rw [Draft.rename_units, Draft.text_units]
    exact shift follows.within

/-- The line is an error between two of its units, wherever it stands. -/
def Fails (read : Nat → Text → List Item × List SyntaxError) (t : Text) : Prop :=
  ∃ n k problem, n ≤ k ∧ k ≤ t.length ∧
    ∀ o, read o t = ([], [⟨problem, ⟨(o + n : Nat), (o + k : Nat)⟩⟩])

theorem Fails.drafted {read : Nat → Text → List Item × List SyntaxError} (fails : Fails read t) :
    Drafted read (units t) := by
  obtain ⟨n, k, problem, le, le', read⟩ := fails
  exact drafted_units (fun o => by simp [read]) fun within => by
    rw [read, read]
    exact ⟨.nil, .cons ⟨rfl, within (Nat.le_trans le le'), within le'⟩ .nil⟩

/-- A directive without a name or an equals sign is an error. -/
theorem fails_binding (other : ¬ ∃ gap name gap' tail,
    x = gap ++ (name ++ (gap' ++ Text.unit '=' :: tail)) ∧ (∀ u ∈ gap, isSpaceOrTab u = true) ∧
      isValid name ∧ ∀ u ∈ gap', isSpaceOrTab u = true) : Fails binding
        (keyword .binding ++ x) := by
  have x_eq := List.takeWhile_append_dropWhile (p := isSpaceOrTab) (l := x)
  have length := congrArg List.length x_eq
  generalize gap_eq : x.takeWhile isSpaceOrTab = gap at x_eq length
  cases leads : leading? (x.dropWhile isSpaceOrTab) with
  | none =>
    refine ⟨0, (keyword .binding).length, .expectedName, Nat.zero_le _, by simp, fun o => ?_⟩
    simp [binding, Text.drop_length_takeWhile, leads]
  | some name =>
    obtain ⟨behind, eq⟩ := Identifier.isPrefixOf_of_leading? leads
    simp only [← eq, List.length_append] at length
    refine ⟨(keyword .binding).length + gap.length,
      (keyword .binding).length + (gap.length + name.length),
      .expectedEquals name, by omega, by rw [List.length_append]; omega, fun o => ?_⟩
    simp only [binding, List.drop_left, Text.drop_length_takeWhile, leads]
    rw [← eq, List.drop_left]
    split
    next => simp [gap_eq, Int.add_assoc]
    next u tail behind_eq =>
      split
      next sign =>
        obtain rfl : u = Text.unit '=' := by simpa using sign
        refine absurd ⟨gap, name, behind.takeWhile isSpaceOrTab, tail, ?_, fun u mem => ?_,
          Identifier.isValid_of_leading? leads, fun u => Text.of_mem_takeWhile⟩ other
        · rw [← behind_eq, List.takeWhile_append_dropWhile, eq, x_eq]
        · exact Text.of_mem_takeWhile (p := isSpaceOrTab) (gap_eq ▸ mem)
      next => simp [gap_eq, Int.add_assoc]

/-- A directive is an error, or names a document between quotation marks. -/
theorem inclusion_cases (uri : Uri) (x : Text) : Fails (inclusion uri) (keyword .inclusion ++ x) ∨
    ∃ gap path rest, x = gap ++ mark :: (path ++ mark :: rest) ∧ ∀ o : Nat,
      let start := o + (keyword .inclusion).length + gap.length + 1
      inclusion uri o (keyword .inclusion ++ x) = ([.inclusion ⟨path, uri.include path,
        ⟨o, (start + path.length + 1 : Nat)⟩, ⟨start, (start + path.length : Nat)⟩⟩], []) := by
  obtain ⟨gap, behind, rfl, spaces, solid⟩ := Text.exists_run isSpaceOrTab x
  have gap_eq := Text.takeWhile_append spaces solid
  cases behind with
  | nil =>
    refine .inl ⟨0, (keyword .inclusion).length, .expectedPath, Nat.zero_le _, by simp, fun o => ?_⟩
    simp only [inclusion, List.drop_left, gap_eq]
    rfl
  | cons u tail =>
    by_cases quote : u = mark
    · subst quote
      by_cases closed : mark ∈ tail
      · obtain ⟨path, rest, rfl, inner⟩ := List.eq_append_cons_of_mem closed
        have inner' : ∀ u ∈ path, (u != mark) = true :=
          fun u mem => bne_iff_ne.2 fun eq => inner (eq ▸ mem)
        have path_eq : (path ++ mark :: rest).takeWhile (· != mark) = path :=
          Text.takeWhile_append_cons inner' (by simp) rest
        have longer : path.length ≠ (path ++ mark :: rest).length := by simp
        by_cases empty : (Text.trim path).isEmpty
        · refine .inl ⟨(keyword .inclusion).length + gap.length,
            (keyword .inclusion).length + gap.length + 1 + path.length + 1, .emptyPath, by
              omega, ?_, fun o => ?_⟩
          · simp only [List.length_append, List.length_cons]
            omega
          · simp only [inclusion, List.drop_left, gap_eq, unit_mark, beq_self_eq_true,
              if_true, path_eq, if_neg longer, empty]
            simp [Int.add_assoc]
        · refine .inr ⟨gap, path, rest, rfl, fun o => ?_⟩
          simp only [inclusion, List.drop_left, gap_eq, unit_mark, beq_self_eq_true,
            if_true, path_eq, if_neg longer, empty]
          rfl
      · have whole : tail.takeWhile (· != mark) = tail :=
          Text.takeWhile_eq_self fun u mem => bne_iff_ne.2 fun eq => closed (eq ▸ mem)
        refine .inl ⟨(keyword .inclusion).length + gap.length, _, .unterminatedString, ?_,
          Nat.le_refl _, fun o => ?_⟩
        · simp
        · simp only [inclusion, List.drop_left, gap_eq, unit_mark, beq_self_eq_true, if_true, whole]
          simp [Int.add_assoc]
    · refine .inl ⟨0, (keyword .inclusion).length, .expectedPath,
        Nat.zero_le _, by simp, fun o => ?_⟩
      simp only [inclusion, List.drop_left, gap_eq]
      simp [quote, unit_mark]

/-- Behind the word of the directive, the drafts of binding lines begin as the lines do. -/
theorem exists_bindingDraft (x : Text) : ∃ d, Draft.text d = x ∧
    Drafted binding (units (keyword .binding) ++ d) ∧
    (Ends x → Draft.Isolated none (units (keyword .binding) ++ d)) := by
  by_cases shape : ∃ gap name gap' tail, x = gap ++ (name ++ (gap' ++ Text.unit '=' :: tail)) ∧
      (∀ u ∈ gap, isSpaceOrTab u = true) ∧ isValid name ∧ ∀ u ∈ gap', isSpaceOrTab u = true
  · obtain ⟨gap, name, gap', tail, rfl, spaces, valid, spaces'⟩ := shape
    obtain ⟨d, more, lexed, tail_eq, ends_, content_eq⟩ :=
      exists_content (tail.dropWhile isSpaceOrTab)
    have solid : ∀ u ∈ (d.text ++ more).head?, isSpaceOrTab u = false := by
      rw [← tail_eq]
      exact fun u => Text.not_of_mem_head?_dropWhile
    have spaces'' : ∀ u ∈ tail.takeWhile isSpaceOrTab, isSpaceOrTab u = true :=
      fun u => Text.of_mem_takeWhile
    refine ⟨_, ?_, drafted_binding spaces valid spaces' spaces'' lexed solid content_eq,
      fun ends => ?_⟩
    · simp [← tail_eq, List.takeWhile_append_dropWhile]
    · obtain ⟨u, last⟩ : ∃ u, gap.getLast? = some u := by
        cases gap with
        | cons u gap => simp [List.getLast?_cons]
        | nil =>
          obtain ⟨u, name, rfl⟩ := List.exists_cons_of_ne_nil (Draft.ne_nil_of_isValid valid)
          have part := Identifier.isPart_of_isValid valid u (by simp)
          simp [ends u (by simp)] at part
      have space := spaces u (List.mem_of_getLast? last)
      have other := Identifier.not_isPart_of_isBlank (isBlank_of_isSpaceOrTab space)
      rw [Draft.isolated_units_append, Draft.isolated_units_append, last]
      refine ⟨⟨u, rfl, other, ?_⟩, ?_, ?_⟩
      · rintro rfl
        exact absurd space (by decide)
      · rw [Draft.text_append, Draft.text_units]
        exact not_isPart_of_gap spaces' (u := Text.unit '=') (by decide) _
      · rw [Draft.isolated_units_append]
        exact Draft.isolated_units_append.2 ((lexed.isolated.append_units ends_).of_none _)
  · have drafted := (fails_binding shape).drafted
    refine ⟨units x, by simp, by simpa [units] using drafted, fun _ => ?_⟩
    exact Draft.isolated_units_append.2 (Draft.isolated_units _ _)

theorem drafted_inclusion (uri : Uri) (x : Text) :
    Drafted (inclusion uri) (units (keyword .inclusion ++ x)) := by
  rcases inclusion_cases uri x with fails | ⟨gap, path, rest, rfl, read⟩
  · exact fails.drafted
  refine drafted_units (fun o => by rw [read]; rfl) fun {ρ R o o'} within => ?_
  simp only [List.length_append, List.length_cons] at within
  have place (k : Nat) (le : k ≤ gap.length + path.length + 2) :
      R (o + (keyword .inclusion).length + k : Nat)
        (o' + (keyword .inclusion).length + k : Nat) := by
    simp only [Nat.add_assoc]
    exact within (by omega)
  rw [read, read]
  have sign := within (Nat.zero_le _)
  have start := place (gap.length + 1) (by omega)
  have stop := place (gap.length + 1 + path.length) (by omega)
  have close := place (gap.length + 1 + path.length + 1) (by omega)
  simp only [← Nat.add_assoc] at start stop close
  exact ⟨.cons (.inclusion ⟨rfl, rfl, ⟨sign, close⟩, start, stop⟩) .nil, .nil⟩

end LineRead

namespace Module

open LineRead (Drafted opens)

variable {uri : Uri} {opened opened' : List OpenSign}

/-! ## Kinds of lines -/

def apart (opened : List OpenSign) (read : List Item × List SyntaxError) : LineRead :=
  ⟨read.1, Inline.unclosed opened ++ read.2, []⟩

def readAt (uri : Uri) (opened : List OpenSign) (offset : Nat) (t : Text) : LineRead :=
  if t.isEmpty then ⟨[], Inline.unclosed opened, []⟩
  else if t.startsWith "//" then ⟨[], [], opened⟩
  else if t.head? == some (Text.unit '=') then apart opened (LineRead.heading offset t)
  else if opens .binding t then apart opened (LineRead.binding offset t)
  else if opens .inclusion t then apart opened (LineRead.inclusion uri offset t)
  else
    let inline := Inline.scan 0 offset none opened t
    ⟨inline.items, inline.errors, inline.opened⟩

theorem readLine_append {indent : Text} (blank : Blank indent)
    (solid : ∀ u ∈ t.head?, Text.isBlank u = false)
    (uri : Uri) (opened : List OpenSign) (start : Nat) :
    readLine uri opened ⟨start, indent ++ t⟩ = readAt uri opened (start + indent.length) t := by
  have trimmed : Text.trimStart (indent ++ t) = t := by
    rw [Text.trimStart_append blank]
    cases t with
    | nil => rfl
    | cons u t => exact Text.trimStart_of_solid (solid u rfl) t
  have length : (indent ++ t).length - t.length = indent.length := by
    rw [List.length_append]
    omega
  simp only [readLine, trimmed, length]
  rfl

theorem readAt_heading (tail : Text) (offset : Nat) :
    readAt uri opened offset (Text.unit '=' :: tail) =
    apart opened (LineRead.heading offset (Text.unit '=' :: tail)) := rfl

theorem readAt_binding (other : ∀ u ∈ x.head?, isPart u = false) (offset : Nat) :
    readAt uri opened offset (keyword .binding ++ x) =
      apart opened (LineRead.binding offset (keyword .binding ++ x)) := by
  have opens_ : opens .binding (keyword .binding ++ x) = true :=
    LineRead.opens_iff.2 ⟨x, rfl, other⟩
  have slashes : (keyword .binding ++ x).startsWith "//" = false := rfl
  have sign : ((keyword .binding ++ x).head? == some (Text.unit '=')) = false := rfl
  have some_ : (keyword .binding ++ x).isEmpty = false := rfl
  simp only [readAt, some_, slashes, sign, opens_, Bool.false_eq_true, if_false, if_true]

theorem readAt_inclusion (other : ∀ u ∈ x.head?, isPart u = false) (offset : Nat) :
    readAt uri opened offset (keyword .inclusion ++ x) =
      apart opened (LineRead.inclusion uri offset (keyword .inclusion ++ x)) := by
  have opens_ : opens .inclusion (keyword .inclusion ++ x) = true :=
    LineRead.opens_iff.2 ⟨x, rfl, other⟩
  have other : opens .binding (keyword .inclusion ++ x) = false := rfl
  have slashes : (keyword .inclusion ++ x).startsWith "//" = false := rfl
  have sign : ((keyword .inclusion ++ x).head? == some (Text.unit '=')) = false := rfl
  have some_ : (keyword .inclusion ++ x).isEmpty = false := rfl
  simp only [readAt, some_, slashes, sign, opens_, other, Bool.false_eq_true, if_false, if_true]

structure IsText (t : Text) : Prop where
  ne_nil : t ≠ []
  quiet : t.startsWith "//" = false
  plain : t.head? ≠ some (Text.unit '=')
  closed : ∀ k, opens k t = false

/-- What a line without blanks in front is. -/
inductive Form : Text → Prop
  | empty : Form []
  | comment {t : Text} (slashes : t.startsWith "//" = true) : Form t
  | heading (tail : Text) : Form (Text.unit '=' :: tail)
  | binding {x : Text} (ends : Ends x) : Form (keyword .binding ++ x)
  | inclusion {x : Text} (ends : Ends x) : Form (keyword .inclusion ++ x)
  | text {t : Text} (text : IsText t) : Form t

theorem form (t : Text) : Form t := by
  cases t with
  | nil => exact .empty
  | cons u tail =>
    by_cases slashes : Text.startsWith (u :: tail) "//" = true
    · exact .comment slashes
    by_cases sign : u = Text.unit '='
    · exact sign ▸ .heading tail
    by_cases binding : opens .binding (u :: tail) = true
    · obtain ⟨x, eq, ends⟩ := LineRead.opens_iff.1 binding
      exact eq ▸ .binding ends
    by_cases inclusion : opens .inclusion (u :: tail) = true
    · obtain ⟨x, eq, ends⟩ := LineRead.opens_iff.1 inclusion
      exact eq ▸ .inclusion ends
    refine .text ⟨by simp, by simpa using slashes, by simpa using sign, fun k => ?_⟩
    cases k with
    | binding => simpa using binding
    | inclusion => simpa using inclusion

theorem readAt_comment (slashes : t.startsWith "//" = true) (offset : Nat) :
    readAt uri opened offset t = ⟨[], [], opened⟩ := by
  cases t with
  | nil => exact absurd slashes (by decide)
  | cons u tail => simp [readAt, slashes]

theorem IsText.readAt_eq (h : IsText t) (offset : Nat) : readAt uri opened offset t =
    let inline := Inline.scan 0 offset none opened t
    ⟨inline.items, inline.errors, inline.opened⟩ := by
  simp [readAt, h.ne_nil, h.quiet, h.plain, h.closed]

theorem startsWith_slashes (u : UInt16) (rest : Text) :
    Text.startsWith (u :: rest) "//" = Inline.startsComment u rest := by
  have slashes : Text.ofString "//" = [Posix.slash, Posix.slash] := by decide
  cases rest <;> simp [slashes, Text.startsWith, List.isPrefixOf, Inline.startsComment,
    Bool.beq_comm]

/-- A directive is a hash sign with the word of the directive behind it. -/
theorem opens_cons {k : Directive} {rest : Text} : opens k (u :: rest) = true ↔
    u = Text.unit '#' ∧ leading? rest = some k.word := by
  rw [LineRead.opens_iff]
  constructor
  · rintro ⟨x, eq, other⟩
    obtain ⟨rfl, rfl⟩ : u = Text.unit '#' ∧ rest = k.word ++ x := by simpa [keyword] using eq
    exact ⟨rfl, Identifier.leading?_append (by cases k <;> decide) other⟩
  · rintro ⟨rfl, leads⟩
    obtain ⟨x, rfl⟩ := Identifier.isPrefixOf_of_leading? leads
    exact ⟨x, rfl, Inline.ends_of_leading? leads⟩

theorem not_opens_of_ne {k : Directive} {rest : Text} (other : u ≠ Text.unit '#') :
    opens k (u :: rest) = false :=
  Bool.eq_false_iff.2 fun opens_ => other (opens_cons.1 opens_).1

theorem isReserved_word (k : Directive) : Directive.isReserved k.word = true := by
  cases k <;> decide

theorem startsWith_slashes_rename (lexed : Lexed d) (quiet : d.text.startsWith "//" = false)
    (ρ : Renaming) :
    (d.rename ρ).text.startsWith "//" = false := by
  cases lexed with
  | nil => exact quiet
  | last | comment => simpa using quiet
  | hidden | label | reference | use | reserved => rfl
  | plain plain lexed => exact (startsWith_slashes _ _).trans (lexed.plain_rename plain).quiet

/-- A reserved word behind a hash sign opens its directive. -/
theorem exists_opens {name : Text} (valid : isValid name)
    (reserved : Directive.isReserved name = true)
    (ends : Ends x) : ∃ k, opens k (Text.unit '#' :: (name ++ x)) = true := by
  obtain ⟨k, -, eq⟩ := List.any_eq_true.1 reserved
  obtain rfl : k.word = name := by simpa using eq
  exact ⟨k, opens_cons.2 ⟨rfl, Identifier.leading?_append valid ends⟩⟩

theorem opens_rename (lexed : Lexed d) (closed : ∀ k, opens k d.text = false) (ρ : Renaming)
    (k : Directive) :
    opens k (d.rename ρ).text = false := by
  cases lexed with
  | nil => exact closed k
  | last | comment => simpa using closed k
  | hidden | label | reference => exact not_opens_of_ne (by decide)
  | use valid free ends lexed =>
    refine Bool.eq_false_iff.2 fun opens_ => ?_
    rw [Draft.rename_cons, Draft.rename_cons, Draft.rename_unit, Draft.text_unit_cons,
      opens_cons] at opens_
    have leads := opens_.2
    rw [Draft.rename_name, Draft.text_name_cons,
      Identifier.leading?_append (ρ.valid _ valid) (lexed.ends_rename ends)] at leads
    have reserved := isReserved_word k
    rw [← Option.some.inj leads, ρ.free free] at reserved
    exact Bool.false_ne_true reserved
  | reserved valid reserved ends lexed =>
    obtain ⟨k, opens_⟩ := exists_opens valid reserved ends
    have closed := closed k
    rw [Draft.text_unit_cons, Draft.text_append, Draft.text_units, opens_] at closed
    exact absurd closed (by simp)
  | @plain u d plain lexed =>
    refine Bool.eq_false_iff.2 fun opens_ => ?_
    obtain ⟨rfl, leads⟩ := opens_cons.1 opens_
    have none : leading? (d.rename ρ).text = none := (lexed.plain_rename plain).mark (.inr rfl)
    exact absurd (none.symm.trans leads) (by simp)

theorem IsText.rename (lexed : Lexed d) (h : IsText d.text) (ρ : Renaming) :
    IsText (d.rename ρ).text := by
  have first := (lexed.sameLead ρ).head?_eq
  refine ⟨fun none => ?_, startsWith_slashes_rename lexed h.quiet ρ, first ▸ h.plain,
    opens_rename lexed h.closed ρ⟩
  rw [none] at first
  exact h.ne_nil (List.head?_eq_none_iff.1 first)

/-! ## Drafts of lines -/

/-- A draft of a line that is read by `read`, given the emphasis signs open before it. -/
structure LineDraft (read : List OpenSign → Nat → Text → LineRead) (d : Draft) : Prop where
  valid : d.Valid
  isolated : d.Isolated none
  names_eq : ∀ opened o, (read opened o d.text).items.filterMap Name.ofItem? = d.names o
  renamed :
  ∀ {ρ R o o' opened opened'}, d.Follows ρ R o o' → Forall₂ (OpenSign.Moved R) opened opened' →
    LineRead.Renamed ρ R (read opened o d.text) (read opened' o' (d.rename ρ).text)

/-- What is read apart from its paragraph has the drafts of what is read by itself. -/
theorem LineDraft.of_drafted {read : Nat → Text → List Item × List SyntaxError}
    (drafted : Drafted read d) (isolated : d.Isolated none)
    (eq : ∀ ρ opened o, readAt uri opened o (d.rename ρ).text =
      apart opened (read o (d.rename ρ).text)) :
    LineDraft (readAt uri) d := by
  have eq' (opened : List OpenSign) (o : Nat) : readAt uri opened o d.text =
      apart opened (read o d.text) := by
    simpa using eq .refl opened o
  refine ⟨drafted.valid, isolated, fun opened o => ?_,
    fun {ρ R o o' opened opened'} follows signs => ?_⟩
  · rw [eq']
    exact drafted.names_eq o
  · rw [eq', eq]
    have parts := drafted.renamed follows
    exact ⟨parts.items, List.rel_append (LineRead.forall₂_unclosed signs) parts.errors, .nil⟩

/-- A line that says the same everywhere. -/
theorem LineDraft.of_units (t : Text)
    (eq : ∃ keeps : Bool, ∀ opened o, readAt uri opened o t =
      ⟨[], if keeps then [] else Inline.unclosed opened, if keeps then opened else []⟩) :
    LineDraft (readAt uri) (units t) := by
  obtain ⟨keeps, eq⟩ := eq
  refine ⟨Draft.valid_units t, Draft.isolated_units none t, fun opened o => ?_,
    fun {ρ R o o' opened opened'} follows signs => ?_⟩
  · rw [Draft.text_units, eq, Draft.names_units]
    rfl
  · rw [Draft.rename_units, Draft.text_units, eq, eq]
    cases keeps with
    | true => exact ⟨.nil, .nil, signs⟩
    | false => exact ⟨.nil, LineRead.forall₂_unclosed signs, .nil⟩

/-- Every line without blanks in front has a draft, which begins as the line does. -/
theorem exists_readAt_draft (uri : Uri) (t : Text) :
    ∃ d, Draft.text d = t ∧ LineDraft (readAt uri) d ∧
    ∀ ρ, (d.rename ρ).text.head? = t.head? := by
  cases form t with
  | empty => exact ⟨[], rfl, .of_units [] ⟨false, fun opened o => rfl⟩, fun ρ => rfl⟩
  | comment slashes =>
    exact ⟨units t, by simp, .of_units t ⟨true, fun opened o => readAt_comment slashes o⟩, by simp⟩
  | heading tail =>
    obtain ⟨d, rfl, drafted, isolated⟩ := LineRead.exists_headingDraft tail
    exact ⟨_, rfl, .of_drafted drafted isolated fun ρ opened o => readAt_heading _ o, fun ρ => rfl⟩
  | @binding x ends =>
    obtain ⟨d, rfl, drafted, isolated⟩ := LineRead.exists_bindingDraft x
    refine ⟨_, by simp, .of_drafted drafted (isolated ends) fun ρ opened o => ?_, fun ρ => ?_⟩
    · rw [Draft.rename_append, Draft.rename_units, Draft.text_append, Draft.text_units]
      exact readAt_binding (Draft.ends_rename (Draft.valid_append.1 drafted.valid).2 ends) o
    · rw [Draft.rename_append, Draft.rename_units, Draft.text_append, Draft.text_units]
      rfl
  | @inclusion x ends =>
    refine ⟨_, by simp, .of_drafted (LineRead.drafted_inclusion uri x) (Draft.isolated_units none _)
      fun ρ opened o => ?_, by simp⟩
    rw [Draft.rename_units, Draft.text_units]
    exact readAt_inclusion ends o
  | text text =>
    obtain ⟨d, lexed, rfl⟩ := Inline.exists_lexed t
    refine ⟨d, rfl, ⟨lexed.valid, lexed.isolated, fun opened o => ?_,
      fun {ρ R o o' opened opened'} follows signs => ?_⟩,
      fun ρ => (lexed.sameLead ρ).head?_eq.symm⟩
    · rw [text.readAt_eq]
      exact lexed.names_eq o none opened
    · rw [text.readAt_eq, (text.rename lexed ρ).readAt_eq]
      have scan : Inline.Renamed ρ R (Inline.scan 0 o none opened d.text)
          (Inline.scan 0 o' none opened' (d.rename ρ).text) :=
            lexed.renamed_scan follows signs fun _ => rfl
      exact ⟨scan.items, scan.errors, scan.opened⟩

theorem exists_lineDraft (uri : Uri) (c : Text) : ∃ d, Draft.text d = c ∧
    LineDraft (fun opened start c => readLine uri opened ⟨start, c⟩) d := by
  obtain ⟨indent, blank, eq⟩ := Text.exists_blank_append_trimStart c
  obtain ⟨d, d_eq, drafted, first⟩ := exists_readAt_draft uri (Text.trimStart c)
  have solid (ρ : Renaming) : ∀ u ∈ (d.rename ρ).text.head?, Text.isBlank u = false := by
    rw [first]
    exact fun u => Text.not_isBlank_of_mem_head?_trimStart
  have solid' : ∀ u ∈ d.text.head?, Text.isBlank u = false := by simpa using solid .refl
  refine ⟨units indent ++ d, by simpa [d_eq] using eq.symm, by simpa using drafted.valid,
    Draft.isolated_units_append.2 (drafted.isolated.of_none _), fun opened o => ?_,
    fun {ρ R o o' opened opened'} follows signs => ?_⟩
  · rw [Draft.text_append, Draft.text_units]
    rw [readLine_append blank solid', drafted.names_eq]
    simp
  · rw [Draft.rename_append, Draft.rename_units, Draft.text_append, Draft.text_append,
      Draft.text_units]
    rw [readLine_append blank solid', readLine_append blank (solid ρ)]
    exact drafted.renamed (by simpa using follows.right) signs

end Module

end Quill
