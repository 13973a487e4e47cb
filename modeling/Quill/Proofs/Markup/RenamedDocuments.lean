import Quill.Proofs.Markup.RenamedLines

/-!
# Documents with other names

A document in which the names of symbols are replaced has the items and the errors of the document,
with the other names and in other places. It includes the same documents, also for the scan that
looks for include lines only, if that takes all its lines as the reader does.

## Main definitions

* `Module.Renamed` — a document that has been read, before and after.

## Main statements

* `Includes.exists_specifiersAux` — the scan finds the same paths, with other names in them.
* `Module.exists_draft` — every document has a draft, and with other names it is read as before.
-/

namespace Quill

open List (Forall₂)
open Draft (units)
open Text (linesFrom isBreak carriageReturn lineFeed)

variable {ρ : Renaming} {R S : Int → Int → Prop}

/-! ## Places -/

section mono

variable (sub : ∀ x x', R x x' → S x x')
include sub

theorem Span.Moved.mono {s s' : Span} (h : s.Moved R s') : s.Moved S s' :=
  ⟨sub _ _ h.1, sub _ _ h.2⟩

theorem Mark.Renamed.mono {f : Text → Text} {m m' : Mark} (h : m.Renamed f R m') :
    m.Renamed f S m' :=
  ⟨h.name, h.span.mono sub, h.nameSpan.mono sub⟩

theorem Item.Renamed.mono {i i' : Item} (h : i.Renamed ρ R i') : i.Renamed ρ S i' := by
  cases h with
  | heading h => exact .heading ⟨h.level, h.title, h.span.mono sub, h.titleSpan.mono sub, h.label⟩
  | label h => exact .label (h.mono sub)
  | reference h => exact .reference (h.mono sub)
  | binding h => exact .binding ⟨h.name, h.value, h.span.mono sub, h.nameSpan.mono sub,
    h.valueSpan.mono sub⟩
  | use h => exact .use (h.mono sub)
  | inclusion h => exact .inclusion ⟨h.specifier, h.target, h.span.mono sub, h.pathSpan.mono sub⟩

theorem SyntaxError.Moved.mono {e e' : SyntaxError} (h : e.Moved R e') : e.Moved S e' :=
  ⟨h.problem, h.span.mono sub⟩

end mono

/-! ## Line breaks -/

namespace Draft

variable {d : Draft} {br : Text}

theorem not_isPart_of_isBreak {u : UInt16} (break_ : isBreak u) : Identifier.isPart u = false := by
  rcases (by simpa [isBreak] using break_ : u = lineFeed ∨ u = carriageReturn) with rfl | rfl <;>
    decide

theorem unbroken_rename (valid : d.Valid) (unbroken : Text.Unbroken d.text) (ρ : Renaming) :
    Text.Unbroken (d.rename ρ).text := fun u mem =>
  Bool.eq_false_iff.2 fun break_ => Bool.eq_false_iff.1
    (unbroken u (mem_text_of_mem_rename valid (not_isPart_of_isBreak break_) mem)) break_

theorem lineBreak_rename (valid : d.Valid) (br_ : Text.LineBreak d.text br) (ρ : Renaming) :
    Text.LineBreak (d.rename ρ).text br := by
  cases br_ with
  | feed => exact .feed
  | return_ alone => exact .return_ (mt (head?_text_rename valid (by decide)).1 alone)
  | pair => exact .pair

end Draft

/-! ## The scan for includes -/

namespace Draft

open Identifier (isPart isValid)

variable {d : Draft} {before : Option UInt16} {t run word : Text}

structure Reads (before : Option UInt16) (d : Draft) (t : Text) : Prop where
  text_eq : d.text = t
  valid : d.Valid
  isolated : d.Isolated before

theorem Reads.rename (h : Reads before d t) (ρ : Renaming) :
    Reads before (d.rename ρ) (d.rename ρ).text :=
  ⟨rfl, h.valid.rename ρ, h.isolated.rename h.valid ρ⟩

theorem Reads.exists_run (h : Reads before d (run ++ t)) (other : ∀ u ∈ run, isPart u = false) :
    ∃ e, d = units run ++ e ∧ Reads (run.getLast?.or before) e t := by
  obtain ⟨text_eq, valid, isolated⟩ := h
  obtain ⟨e, rfl, rfl⟩ := exists_of_text_eq_append valid other text_eq
  exact ⟨e, rfl, rfl, (valid_append.1 valid).2, isolated_units_append.1 isolated⟩

theorem Reads.exists_unit {u : UInt16} (h : Reads before d (u :: t)) (other : isPart u = false) :
    ∃ e, d = .unit u :: e ∧ Reads (some u) e t :=
  exists_run (show Reads before d ([u] ++ t) from h) (by simpa using other)

theorem Reads.exists_word (h : Reads (some (Text.unit '#')) d (word ++ t))
    (word_valid : isValid word) (reserved : Directive.isReserved word) (ends : Inline.Ends t) :
    ∃ e, d = units word ++ e ∧ Reads (word.getLast?.or (some (Text.unit '#'))) e t := by
  obtain ⟨text_eq, valid, isolated⟩ := h
  obtain ⟨e, rfl, rfl⟩ := isolated.exists_directive valid word_valid reserved ends text_eq
  exact ⟨e, rfl, rfl, (valid_append.1 valid).2, isolated_units_append.1 isolated⟩

end Draft

namespace Includes

open Draft (Reads)
open Directive (keyword)
open Text (isSpaceOrTab)
open Identifier (isPart)

variable {d p behind : Draft} {t start head path rest : Text} {before : Option UInt16}

/-- The draft begins with an include line up to its closing quotation mark, and so it does with
other names, which can only be names in the path. -/
structure Opens (d : Draft) (start : Text) (p behind : Draft) : Prop where
  eq : d = units start ++ (p ++ .unit mark :: behind)
  opening : ∀ ρ, IsOpening (start ++ ((p.rename ρ).text ++ [mark])) (p.rename ρ).text

theorem inPath_of_isPart {u : UInt16} (part : isPart u) : inPath u := by
  have other {v : UInt16} (not : isPart v = false) : u ≠ v := by
    rintro rfl
    simp [part] at not
  simp [inPath, other (v := Text.unit '"') (by decide),
    other (v := Text.carriageReturn) (by decide), other (v := Text.lineFeed) (by decide)]

theorem inPath_of_mem_rename (valid : p.Valid) {ρ ρ' : Renaming}
    (within : ∀ u ∈ (p.rename ρ).text, inPath u) : ∀ u ∈ (p.rename ρ').text, inPath u := by
  intro u mem
  rcases Draft.mem_text mem (valid.rename ρ') with mem | part
  · obtain ⟨piece, inside, eq⟩ := List.mem_map.1 mem
    cases piece with
    | name kind name => cases eq
    | unit v =>
      obtain rfl : v = u := by simpa using eq
      exact within v (List.mem_flatMap.2 ⟨.unit v, List.mem_map.2 ⟨_, inside, rfl⟩, by simp⟩)
  · exact inPath_of_isPart part

/-- An include line under other names is one: no name can become a part of it but in its path. -/
theorem exists_opens (reads : Reads before d t) {ρ : Renaming} (opening : IsOpening head path)
    (eq : (d.rename ρ).text = head ++ rest) : ∃ start p behind, Opens d start p behind := by
  obtain ⟨indent, gap, rfl, blank, some_gap, gap_blank, within⟩ := opening
  have other_of_blank {run : Text} (blank : ∀ u ∈ run, isSpaceOrTab u) : ∀ u ∈ run,
      isPart u = false :=
    fun u mem => Identifier.not_isPart_of_isBlank (LineRead.isBlank_of_isSpaceOrTab (blank u mem))
  have quote : isPart mark = false := by decide
  -- the renamed draft, piece by piece
  have whole := reads.rename ρ
  simp only [eq, keyword, List.append_assoc, List.cons_append, List.nil_append] at whole
  obtain ⟨_, whole_eq, line⟩ := whole.exists_run (other_of_blank blank)
  obtain ⟨_, rfl, named⟩ := line.exists_unit (by decide)
  have ends : Inline.Ends (gap ++ mark :: (path ++ mark :: rest)) := by
    obtain ⟨g, gap, rfl⟩ := List.exists_cons_of_ne_nil some_gap
    exact fun u first => Option.some.inj first ▸ other_of_blank gap_blank g (by simp)
  obtain ⟨_, rfl, gapped⟩ := Reads.exists_word
    (show Reads _ _ (Directive.inclusion.word ++ _) from named) (by decide) (by decide) ends
  obtain ⟨_, rfl, quoted⟩ := gapped.exists_run (other_of_blank gap_blank)
  obtain ⟨_, rfl, inner⟩ := quoted.exists_unit quote
  obtain ⟨path', behind', rfl, rfl, -⟩ := Draft.exists_of_text_eq inner.valid quote inner.text_eq
  -- the same pieces of the draft
  have opened : d.rename ρ = units (indent ++ (keyword .inclusion ++ (gap ++ [mark]))) ++
      (path' ++ (units [mark] ++ behind')) := by simpa [units, keyword] using whole_eq
  obtain ⟨e, d_eq, e_eq⟩ := Draft.exists_of_rename_eq_append opened
  obtain ⟨p, _, rfl, rfl, behind_eq⟩ := List.map_eq_append_iff.1 e_eq
  obtain ⟨behind, rfl, -⟩ := Draft.exists_of_rename_eq_append behind_eq
  have valid : Draft.Valid p := by
    have valid := reads.valid
    rw [d_eq] at valid
    exact (Draft.valid_append.1 (Draft.valid_append.1 valid).2).1
  exact ⟨_, p, behind, d_eq, fun ρ' => ⟨indent, gap, by simp, blank, some_gap, gap_blank,
    inPath_of_mem_rename valid within⟩⟩

theorem specifiersAux_append_name {name : Text} (valid : Identifier.isValid name) (fresh : Bool)
    (t : Text) : specifiersAux 0 fresh (name ++ t) = specifiersAux 0 false t := by
  have inner {run : Text} (part : ∀ u ∈ run, isPart u) :
      specifiersAux 0 false (run ++ t) = specifiersAux 0 false t := by
    induction run with
    | nil => rfl
    | cons u run ih =>
      have continues : startsLine u = false := by
        refine Bool.eq_false_iff.2 fun starts => ?_
        simp only [startsLine, Bool.or_eq_true, beq_iff_eq] at starts
        have own := part u (by simp)
        rcases starts with ((rfl | rfl) | rfl) | rfl <;> exact absurd own (by decide)
      simpa [specifiersAux, continues] using ih fun v mem => part v (List.mem_cons_of_mem u mem)
  have part := Identifier.isPart_of_isValid valid
  rw [← inner part]
  cases fresh with
  | false => rfl
  | true =>
    obtain ⟨u, name, rfl⟩ := List.exists_cons_of_ne_nil (Draft.ne_nil_of_isValid valid)
    have none : match? (u :: (name ++ t)) = none := by
      refine Option.eq_none_iff_forall_ne_some.2 ?_
      rintro ⟨path, n⟩ found
      obtain ⟨head, rest, ⟨indent, gap, rfl, blank, -⟩, eq, -⟩ := exists_of_match? found
      have own := part u (by simp)
      cases indent with
      | nil =>
        obtain rfl := (List.cons.inj eq).1
        exact absurd own (by decide)
      | cons v indent =>
        obtain rfl := (List.cons.inj eq).1
        have solid := Identifier.not_isBlank_of_isPart own
        simp [LineRead.isBlank_of_isSpaceOrTab (blank u (by simp))] at solid
    simp [specifiersAux, none]

/-- With other names, the scan finds the same paths, with the other names in them. -/
theorem exists_specifiersAux (reads : Reads before d t) (fresh : Bool) : ∃ paths : List Draft,
    (∀ p ∈ paths, p.Valid) ∧
      ∀ ρ, specifiersAux 0 fresh (d.rename ρ).text = paths.map fun p => (p.rename ρ).text := by
  induction h : d.length using Nat.strongRecOn generalizing d before t fresh with
  | ind n ih =>
    subst h
    by_cases opens : fresh ∧ ∃ start p behind, Opens d start p behind
    · obtain ⟨rfl, start, p, behind, rfl, opening⟩ := opens
      have valid := Draft.valid_append.1 (Draft.valid_append.1 reads.valid).2
      obtain ⟨before', isolated⟩ := reads.isolated.right
      obtain ⟨_, isolated'⟩ := isolated.right
      obtain ⟨paths, paths_valid, later⟩ := ih behind.length (by simp; omega)
        ⟨rfl, Draft.valid_unit_cons.1 valid.2, isolated'⟩ false rfl
      refine ⟨p :: paths, List.forall_mem_cons.2 ⟨valid.1, paths_valid⟩, fun ρ => ?_⟩
      have found := specifiersAux_opening (opening ρ) (behind.rename ρ).text
      simpa [later] using found
    have none (ρ : Renaming) : (if fresh then match? (d.rename ρ).text else none) = none := by
      cases fresh with
      | false => rfl
      | true =>
        refine Option.eq_none_iff_forall_ne_some.2 fun ⟨path, n⟩ found => opens ⟨rfl, ?_⟩
        obtain ⟨head, rest, opening, eq, -⟩ := exists_of_match? found
        exact exists_opens reads opening eq
    cases d with
    | nil => exact ⟨[], by simp, fun ρ => rfl⟩
    | cons piece d =>
      have valid := reads.valid
      cases piece with
      | unit u =>
        obtain ⟨paths, paths_valid, later⟩ := ih d.length (by simp)
          ⟨rfl, Draft.valid_unit_cons.1 valid, reads.isolated⟩ (startsLine u) rfl
        refine ⟨paths, paths_valid, fun ρ => ?_⟩
        have none := none ρ
        simp only [Draft.rename_cons, Draft.rename_unit, Draft.text_unit_cons] at none ⊢
        rw [specifiersAux, none, ← later ρ]
      | name kind name =>
        obtain ⟨own, valid⟩ := Draft.valid_name_cons.1 valid
        obtain ⟨paths, paths_valid, later⟩ := ih d.length (by simp)
          ⟨rfl, valid, reads.isolated.2.2⟩ false rfl
        refine ⟨paths, paths_valid, fun ρ => ?_⟩
        rw [Draft.rename_cons, Draft.rename_name, Draft.text_name_cons,
          specifiersAux_append_name (ρ.valid kind own), later]

theorem specifiers_rename_eq_nil (reads : Reads before d t) (none : specifiers d.text = [])
    (ρ : Renaming) : specifiers (d.rename ρ).text = [] := by
  obtain ⟨paths, valid, found⟩ := exists_specifiersAux reads true
  have blank (ρ : Renaming) : specifiers (d.rename ρ).text = [] ↔
      ∀ p ∈ paths, Text.Blank (p.rename ρ).text := by
    simp [specifiers, found, Text.trim_eq_nil_iff]
  have none := (blank .refl).1 (by simpa using none)
  refine (blank ρ).2 fun p mem => (Draft.blank_text_rename (valid p mem)).2 ?_
  simpa using none p mem

end Includes

/-! ## Documents -/

namespace Module

open LineRead (PartsRenamed)

variable {uri : Uri}

theorem names_readLine_of_read? (uri : Uri) {l : Line} (opened : List OpenSign)
    (found : (Includes.read? l.content).isSome) :
    (readLine uri opened l).items.filterMap Name.ofItem? = [] := by
  by_cases opens : LineRead.opens .inclusion (Text.trimStart l.content)
  · obtain ⟨some_, slashes, equals, binding⟩ := Includes.not_other_of_opens opens
    obtain ⟨tail, eq, -⟩ := Includes.opens_inclusion_iff.1 opens
    have none (o : Nat) := (LineRead.drafted_inclusion uri tail).names_eq o
    simp only [Draft.text_units, Draft.names_units, ← eq] at none
    simp only [readLine, some_, slashes, equals, binding, opens, if_true, Bool.false_eq_true,
      if_false, none]
  · simp [Includes.read?, opens] at found

/-- If the scan and the reader take a line alike, the scan finds the same with other names. -/
theorem LineDraft.specifiers_rename {d : Draft}
    (draft : LineDraft (fun opened start c => readLine uri opened ⟨start, c⟩) d)
    (agrees : Includes.Agrees d.text) (ρ : Renaming) :
    Includes.specifiers (d.rename ρ).text = Includes.specifiers d.text := by
  cases found : Includes.read? d.text with
  | none =>
    have none : Includes.specifiers d.text = [] := by simpa [Includes.Agrees, found] using agrees
    rw [none, Includes.specifiers_rename_eq_nil ⟨rfl, draft.valid, draft.isolated⟩ none]
  | some path =>
    have none := names_readLine_of_read? uri (l := ⟨0, d.text⟩) [] (by simp [found])
    rw [Draft.rename_of_names_eq_nil ((draft.names_eq [] 0).symm.trans none)]

structure LinesDraft (uri : Uri) (d : Draft) : Prop where
  valid : d.Valid
  specifiers_eq : ∀ {o}, (∀ l ∈ linesFrom o d.text, Includes.Agrees l.content) →
    ∀ ρ, Includes.specifiers (d.rename ρ).text = Includes.specifiers d.text
  names_eq :
  ∀ opened o, (readLines uri opened (linesFrom o d.text)).1.filterMap Name.ofItem? = d.names o
  renamed :
  ∀ {ρ R o o' opened opened'}, d.Follows ρ R o o' → Forall₂ (OpenSign.Moved R) opened opened' →
    PartsRenamed ρ R (readLines uri opened (linesFrom o d.text))
      (readLines uri opened' (linesFrom o' (d.rename ρ).text))

theorem exists_linesDraft (uri : Uri) (t : Text) : ∃ d, Draft.text d = t ∧ LinesDraft uri d := by
  induction t using Text.line_induction with
  | last line unbroken =>
    obtain ⟨d, rfl, draft⟩ := exists_lineDraft uri line
    refine ⟨d, rfl, draft.valid, fun {o} agrees => ?_, fun opened o => ?_,
      fun {ρ R o o' opened opened'} follows signs => ?_⟩
    · rw [Text.linesFrom_unbroken unbroken] at agrees
      exact draft.specifiers_rename (agrees _ List.mem_cons_self)
    · simpa [Text.linesFrom_unbroken unbroken, readLines] using draft.names_eq opened o
    · have read := draft.renamed follows signs
      rw [Text.linesFrom_unbroken unbroken,
        Text.linesFrom_unbroken (Draft.unbroken_rename draft.valid unbroken ρ)]
      exact ⟨by simpa [readLines] using read.items,
        List.rel_append read.errors (LineRead.forall₂_unclosed read.opened)⟩
  | more line b rest unbroken break_ ih =>
    obtain ⟨br, eq, br_⟩ := Text.exists_lineBreak break_ rest
    obtain ⟨d, rfl, draft⟩ := exists_lineDraft uri line
    obtain ⟨e, text_eq, others⟩ := ih
    rw [← text_eq] at eq br_
    refine ⟨d ++ (units br ++ e), by simp [eq], by simpa using ⟨draft.valid, others.valid⟩,
      fun {o} agrees ρ => ?_, fun opened o => ?_, fun {ρ R o o' opened opened'} follows signs => ?_⟩
    · simp only [Draft.text_append, Draft.text_units, Draft.rename_append,
        Draft.rename_units] at agrees ⊢
      rw [Text.linesFrom_append_lineBreak unbroken br_] at agrees
      obtain ⟨first, behind⟩ := List.forall_mem_cons.1 agrees
      rw [Includes.specifiers_append_lineBreak unbroken br_, Includes.specifiers_append_lineBreak
        (Draft.unbroken_rename draft.valid unbroken ρ) (Draft.lineBreak_rename others.valid br_ ρ),
        draft.specifiers_rename first, others.specifiers_eq behind]
    · simp only [Draft.text_append, Draft.text_units, Text.linesFrom_append_lineBreak unbroken br_,
        readLines, List.filterMap_append, draft.names_eq, others.names_eq, Draft.names_append,
        Draft.names_units,
        List.nil_append]
    · have first := draft.renamed follows.left signs
      have behind := others.renamed (by simpa using follows.right.right) first.opened
      simp only [Draft.rename_append, Draft.rename_units, Draft.text_append, Draft.text_units,
        readLines, Text.linesFrom_append_lineBreak unbroken br_,
        Text.linesFrom_append_lineBreak (Draft.unbroken_rename draft.valid unbroken ρ)
          (Draft.lineBreak_rename others.valid br_ ρ)]
      exact ⟨List.rel_append first.items behind.items, List.rel_append first.errors behind.errors⟩

structure Renamed (ρ : Renaming) (R : Int → Int → Prop) (m m' : Module) : Prop where
  uri : m'.uri = m.uri
  items : Forall₂ (Item.Renamed ρ R) m.items m'.items
  errors : Forall₂ (SyntaxError.Moved R) m.errors m'.errors

theorem Renamed.mono {m m' : Module} (sub : ∀ x x', R x x' → S x x') (h : m.Renamed ρ R m') :
    m.Renamed ρ S m' :=
  ⟨h.uri, h.items.imp fun _ _ => Item.Renamed.mono sub,
    h.errors.imp fun _ _ => SyntaxError.Moved.mono sub⟩

theorem le_moved {d : Draft} (valid : d.Valid) {s s' t t' : Span} (h : s.Moved (d.Place ρ) s')
    (k : t.Moved (d.Place ρ) t') : s.le t = s'.le t' := by
  have start_eq := h.1.eq_iff valid k.1
  have start_le := h.1.le_iff valid k.1
  have stop_le := h.2.le_iff valid k.2
  simp only [Span.le, Span.difference, start_eq]
  split <;> grind

/-- Every document has a draft: its names are those of the items, with other names the document is
read as before, and it has the same targets if the scan and the reader take its lines alike. -/
theorem exists_draft (uri : Uri) (t : Text) : ∃ d, Draft.text d = t ∧ d.Valid ∧
    (read uri t).items.filterMap Name.ofItem? = d.names 0 ∧
    (∀ ρ, (read uri t).Renamed ρ (d.Place ρ) (read uri (d.rename ρ).text)) ∧
    ((∀ l ∈ t.lines, Includes.Agrees l.content) →
      ∀ ρ, Includes.targets uri (d.rename ρ).text = Includes.targets uri t) := by
  obtain ⟨d, rfl, draft⟩ := exists_linesDraft uri t
  refine ⟨d, rfl, draft.valid, draft.names_eq [] 0, fun ρ => ?_, fun agrees ρ => ?_⟩
  · have parts := draft.renamed (by simpa using Draft.follows_place (ρ := ρ) [] d []) .nil
    exact ⟨rfl, parts.items,
      Related.sortBy parts.errors fun a a' b b' h k => le_moved draft.valid h.span k.span⟩
  · rw [Includes.targets, Includes.targets, draft.specifiers_eq agrees]

end Module

end Quill
