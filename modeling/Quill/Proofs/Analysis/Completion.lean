import Quill.Proofs.Analysis.Connected
import Quill.Proofs.Compile.Findings
import Quill.Proofs.Flow.Computed
import Quill.Proofs.Markup.RenamedDocuments

/-!
# Names that are offered

Behind a sign the labels, or the directives, bindings and inputs are offered that begin with what is
written there. Labels and bindings are those of the closure, or of the document by itself when its
closure cannot be compiled. They are written in documents, so their names are identifiers. The
settings may give inputs any names, and nothing keeps a binding or an input from having the name of
a directive.

## Main definitions

* `Completion.Sign.Admits` — the names that may stand behind a sign.
* `Completion.Usable` — a sign and a name by themselves are read as one item of this name.
* `Completion.Site.At` — the cursor stands behind a sign and a part of a name.
* `World.HasItem`, `Completion.Seen` — the items of a closure, and those that a document can refer
  to.
* `Completion.Available` — the names there are behind a sign.
* `Completion.Offers` — what is offered behind a sign.

## Main statements

* `Completion.usable_iff` — the usable names are those that the sign admits.
* `Completion.Site.find?_eq_some_iff` — the sign behind which a cursor stands is found.
* `Completion.nodup_labels_iff` — the candidates have different names exactly if none has that of a
  directive.
* `World.exists_label_iff`, `World.exists_binding_iff` — an artifact has the names of the closure.
* `Completion.answer_completion` — what is offered at a position.
-/

namespace Quill

open Identifier (isPart isValid)

variable {uri : Uri}

/-! ## A name behind a sign -/

theorem Identifier.not_isBreak_of_isPart {u : UInt16} (part : isPart u) :
    Text.isBreak u = false := by
  refine Bool.eq_false_iff.2 fun break_ => ?_
  simp only [Text.isBreak, Bool.or_eq_true, beq_iff_eq] at break_
  rcases break_ with rfl | rfl <;> exact absurd part (by decide)

namespace Module

/-- A text on one line that begins with something to be seen is read as it is. -/
theorem read_of_unbroken {t : Text} (unbroken : Text.Unbroken t)
    (solid : ∀ u ∈ t.head?, Text.isBlank u = false) : read uri t =
      let line := readAt uri [] 0 t
      ⟨uri, line.items, sortBy (fun a b => a.span.le b.span)
        (line.errors ++ Inline.unclosed line.opened)⟩ := by
  have blank : Text.Blank [] := by simp [Text.Blank]
  have line : readLine uri [] ⟨0, t⟩ = readAt uri [] 0 t := readLine_append blank solid uri [] 0
  simp only [read, Text.lines, Text.linesFrom_unbroken unbroken, readLines, line, List.append_nil]

/-- The labels and bindings of a document, and what refers to them, have names. -/
theorem isValid_of_mem_items {item : Item} {n : Name} {t : Text} (mem : item ∈ (read uri t).items)
    (names : Name.ofItem? item = some n) : isValid n.name := by
  obtain ⟨d, -, valid, eq, -⟩ := exists_draft uri t
  have there : n ∈ Draft.names 0 d := eq ▸ List.mem_filterMap.2 ⟨item, mem, names⟩
  obtain ⟨front, behind, rfl, -⟩ := Draft.exists_of_mem_names there
  exact (Draft.valid_name_cons.1 (Draft.valid_append.1 valid).2).1

end Module

namespace Completion

def Sign.unit : Sign → UInt16
  | .label => Text.unit '@'
  | .name => Text.unit '#'

def Sign.item : Sign → Mark → Item
  | .label => .reference
  | .name => .use

/-- The sign may have the name behind it: an identifier, and no word of a directive behind a hash
sign. -/
def Sign.Admits (sign : Sign) (name : Text) : Prop :=
  isValid name ∧ (sign = .name → Directive.isReserved name = false)

/-- The sign and the name by themselves are read as one item with exactly this name, and nothing is
wrong. -/
def Usable (uri : Uri) (sign : Sign) (name : Text) : Prop :=
  ∃ m : Mark, m.name = name ∧ Module.read uri (sign.unit :: name) = ⟨uri, [sign.item m], []⟩

variable {sign : Sign} {name : Text}

theorem Sign.not_isBlank_unit (sign : Sign) : Text.isBlank sign.unit = false := by
  cases sign <;> decide

theorem unbroken_of_isValid (sign : Sign) (valid : isValid name) :
    Text.Unbroken (sign.unit :: name) := by
  have first : Text.isBreak sign.unit = false := by cases sign <;> decide
  exact List.forall_mem_cons.2 ⟨first, fun u mem =>
    Identifier.not_isBreak_of_isPart (Identifier.isPart_of_isValid valid u mem)⟩

theorem read_sign (valid : isValid name) (uri : Uri) : Module.read uri (sign.unit :: name) =
    let line := Module.readAt uri [] 0 (sign.unit :: name)
    ⟨uri, line.items, sortBy (fun a b => a.span.le b.span)
      (line.errors ++ Inline.unclosed line.opened)⟩ :=
  Module.read_of_unbroken (unbroken_of_isValid sign valid) (by simp [sign.not_isBlank_unit])

theorem isText_of_admits (admits : sign.Admits name) : Module.IsText (sign.unit :: name) := by
  have other : sign.unit ≠ Text.unit '=' ∧ sign.unit ≠ Posix.slash := by cases sign <;> decide
  refine ⟨by simp, ?_, by simpa using other.1, fun k => ?_⟩
  · rw [Module.startsWith_slashes]
    simp [Inline.startsComment, other.2]
  · refine Bool.eq_false_iff.2 fun opens => ?_
    obtain ⟨isSign, leads⟩ := Module.opens_cons.1 opens
    have hash : sign = .name := by
      cases sign with
      | label => exact absurd isSign (by decide)
      | name => rfl
    have whole : Identifier.leading? (name ++ []) = some name :=
      Identifier.leading?_append admits.1 (by simp)
    rw [List.append_nil, leads] at whole
    have reserved := Module.isReserved_word k
    rw [Option.some.inj whole, admits.2 hash] at reserved
    cases reserved

theorem usable_of_admits (admits : sign.Admits name) (uri : Uri) : Usable uri sign name := by
  refine ⟨Inline.markAt 0 name 0, rfl, ?_⟩
  have isSign : sign.unit = Text.unit '@' ∨ sign.unit = Text.unit '#' := by
    cases sign <;> simp [Sign.unit]
  have ends : Inline.Ends [] := by simp [Inline.Ends]
  have scanned : Inline.scan 0 0 none [] (sign.unit :: (name ++ [])) =
      ⟨[sign.item (Inline.markAt 0 name 0)], [], []⟩ := by
    rw [Inline.scan_mark isSign admits.1 ends]
    cases sign with
    | label => rfl
    | name =>
      have other : Text.unit '#' ≠ Text.unit '@' := by decide
      simp [Sign.unit, Sign.item, admits.2, Inline.scan, Inline.consItem, other]
  rw [List.append_nil] at scanned
  rw [read_sign admits.1, (isText_of_admits admits).readAt_eq, scanned]
  rfl

/-- The word of a directive behind a hash sign is an incomplete directive. -/
theorem items_read_keyword (k : Directive) (uri : Uri) :
    (Module.read uri k.keyword).items = [] := by
  have valid : isValid k.word := by cases k <;> decide
  have read : Module.read uri k.keyword = _ := @read_sign .name _ valid uri
  rw [read]
  cases k <;> rfl

theorem usable_iff : Usable uri sign name ↔ sign.Admits name := by
  refine ⟨fun usable => ?_, fun admits => usable_of_admits admits uri⟩
  obtain ⟨m, rfl, read⟩ := usable
  have mem : sign.item m ∈ (Module.read uri (sign.unit :: m.name)).items := by simp [read]
  have valid : isValid m.name := by
    cases sign <;> exact Module.isValid_of_mem_items mem rfl
  refine ⟨valid, ?_⟩
  rintro rfl
  by_contra reserved
  obtain ⟨k, -, eq⟩ := List.any_eq_true.1 (Bool.not_eq_false _ ▸ reserved)
  obtain eq : k.word = m.name := by simpa using eq
  rw [← eq] at mem
  exact absurd mem (by rw [show Sign.unit .name :: k.word = k.keyword from rfl,
    items_read_keyword]; simp)

/-! ## The place of a cursor -/

theorem Sign.ofUnit?_eq_some_iff {u : UInt16} : ofUnit? u = some sign ↔ u = sign.unit := by
  have other : Text.unit '#' ≠ Text.unit '@' := by decide
  unfold ofUnit?
  split
  next at_ =>
    subst at_
    cases sign <;> simp [unit, other.symm]
  next at_ =>
    split
    next hash =>
      subst hash
      cases sign <;> simp [unit, other]
    next hash => cases sign <;> simp [unit, at_, hash]

theorem Sign.not_isPart_unit (sign : Sign) : isPart sign.unit = false := by cases sign <;> decide

/-- The cursor at `offset` stands behind a sign and the units of an identifier, which begin at the
start of the site. -/
def Site.At (site : Site) (t : Text) (offset : Nat) : Prop :=
  ∃ front, t.take offset = front ++ site.sign.unit :: site.written ∧
  (∀ u ∈ site.written, isPart u) ∧
    site.start = front.length + 1

theorem Site.find?_eq_some_iff {t : Text} {offset : Nat} {site : Site} :
    find? t offset = some site ↔ site.At t offset := by
  constructor
  · intro found
    simp only [find?] at found
    split at found
    next u rest behind =>
      obtain ⟨sign, isSign, rfl⟩ := Option.map_eq_some_iff.1 found
      obtain rfl := Sign.ofUnit?_eq_some_iff.1 isSign
      refine ⟨rest.reverse, ?_,
        fun v mem => Text.of_mem_takeWhile (List.mem_reverse.1 mem), by simp⟩
      have split := List.takeWhile_append_dropWhile (p := isPart) (l := (t.take offset).reverse)
      rw [behind] at split
      simpa using (congrArg List.reverse split).symm
    next => cases found
  · rintro ⟨front, before, parts, start⟩
    have reversed : (t.take offset).reverse = site.written.reverse ++ site.sign.unit ::
        front.reverse := by
      simp [before]
    have inside : ∀ u ∈ site.written.reverse, isPart u = true :=
      fun u mem => parts u (List.mem_reverse.1 mem)
    have cut : (t.take offset).reverse.takeWhile isPart = site.written.reverse := by
      rw [reversed, Text.takeWhile_append inside (by simp [site.sign.not_isPart_unit])]
    have behind : (t.take offset).reverse.dropWhile isPart = site.sign.unit :: front.reverse := by
      rw [reversed, List.dropWhile_append_of_pos inside]
      simp [site.sign.not_isPart_unit]
    simp [find?, cut, behind, Sign.ofUnit?_eq_some_iff.2 rfl, ← start]

/-! ## The order of completions -/

theorem le_iff {a b : Candidate} :
    le a b ↔ rank a.kind < rank b.kind ∨ rank a.kind = rank b.kind ∧ Text.le a.label b.label := by
  unfold le
  split
  next same => simp [same]
  next apart => simp [apart, Nat.le_iff_lt_or_eq]

theorem le_trans (a b c : Candidate) (h : le a b) (h' : le b c) : le a c := by
  rw [le_iff] at h h' ⊢
  rcases h with h | ⟨h, before⟩
  · exact .inl (by omega)
  rcases h' with h' | ⟨h', before'⟩
  · exact .inl (by omega)
  · exact .inr ⟨h.trans h', Text.compare_trans_le before before'⟩

theorem le_total (a b : Candidate) : le a b || le b a := by
  rw [Bool.or_eq_true, le_iff, le_iff]
  have labels : Text.le a.label b.label ∨ Text.le b.label a.label := by
    simpa using Text.le_total a.label b.label
  rcases Nat.lt_trichotomy (rank a.kind) (rank b.kind) with lt | same | lt
  · exact .inl (.inl lt)
  · exact labels.imp (fun before => .inr ⟨same, before⟩) fun before => .inr ⟨same.symm, before⟩
  · exact .inr (.inl lt)

/-! ## Candidates -/

def Sign.words : Sign → List Candidate
  | .label => []
  | .name => directives

theorem kind_words {c : Candidate} (mem : c ∈ sign.words) : c.kind = .keyword := by
  cases sign with
  | label => cases mem
  | name =>
    obtain ⟨d, -, rfl⟩ := List.mem_map.1 mem
    rfl

theorem mem_labels_words :
    name ∈ sign.words.map Candidate.label ↔ sign = .name ∧ Directive.isReserved name := by
  cases sign with
  | label => simp [Sign.words]
  | name =>
    simp only [Sign.words, directives, List.map_map, Directive.isReserved, List.any_eq_true,
      List.mem_map, beq_iff_eq, Function.comp_apply, true_and]

variable {s : Snapshot} {seen : Item → Prop} {inputs : Dict Text Text} {named : List Candidate}
  {site : Site} {offset : Nat}

/-- The names of each kind that there are behind a sign, where the items `seen` can be referred to:
the words of directives, the names of labels, those of bindings, and those of inputs that no binding
hides. -/
def Available (sign : Sign) (seen : Item → Prop) (inputs : Dict Text Text) :
    CompletionKind → Text → Prop
  | .keyword, name => sign = .name ∧ Directive.isReserved name
  | .variable, name => sign = .name ∧ ∃ b, seen (.binding b) ∧ b.name = name
  | .input, name => sign = .name ∧ name ∈ Dict.keys inputs ∧ ∀ b, seen (.binding b) → b.name ≠ name
  | .label, name => sign = .label ∧ ∃ m, seen (.label m) ∧ m.name = name

/-- The candidates that are no directives are the available ones, each once. -/
structure Names (sign : Sign) (seen : Item → Prop) (inputs : Dict Text Text)
    (named : List Candidate) : Prop where
  nodup : (named.map Candidate.label).Nodup
  available : ∀ k name, (∃ c ∈ named, c.kind = k ∧ c.label = name) ↔
    k ≠ .keyword ∧ Available sign seen inputs k name

/-- What is offered behind a sign where the items `seen` can be referred to: the available names
that begin with what is written there, in order and in place of it. Labels can be used, bindings
unless they have the name of a directive, and inputs if moreover their names are identifiers. -/
structure Offers (s : Snapshot) (seen : Item → Prop) (uri : Uri) (site : Site) (offset : Nat)
    (entries : List CompletionEntry) : Prop where
  available : ∀ k name, (∃ e ∈ entries, e.kind = k ∧ e.label = name) ↔
    Available site.sign seen s.settings.inputs k name ∧ name.startsWith site.written
  sorted : entries.Pairwise fun a b =>
    rank a.kind < rank b.kind ∨ rank a.kind = rank b.kind ∧ Text.le a.label b.label
  range : ∀ e ∈ entries, e.range = s.rangeOf uri ⟨site.start, offset⟩
  label : ∀ e ∈ entries, e.kind = .label → Usable uri site.sign e.label
  binding : ∀ e ∈ entries, e.kind = .variable →
    (Usable uri site.sign e.label ↔ Directive.isReserved e.label = false)
  input : ∀ e ∈ entries, e.kind = .input →
    (Usable uri site.sign e.label ↔ isValid e.label ∧ Directive.isReserved e.label = false)
  /-- A name that is offered twice is that of a directive. -/
  distinct : (entries.map CompletionEntry.label).Nodup ↔
    ∀ e ∈ entries, e.kind = .variable ∨ e.kind = .input → Directive.isReserved e.label = false

/-- Bindings and inputs stand behind a hash sign. -/
theorem Names.kind_iff (names : Names sign seen inputs named) {c : Candidate} (mem : c ∈ named) :
    c.kind = .variable ∨ c.kind = .input ↔ sign = .name := by
  have there := (names.available c.kind c.label).1 ⟨c, mem, rfl, rfl⟩
  cases kind : c.kind <;> simp_all [Available]

/-- What is offered of candidates are those that begin with what is written. -/
theorem mem_entries {found : List Candidate} {e : CompletionEntry} :
    e ∈ entries s uri site offset found ↔
    ∃ c ∈ found, c.label.startsWith site.written ∧
      e = ⟨c.label, c.kind, c.detail, s.rangeOf uri ⟨site.start, offset⟩⟩ := by
  simp only [entries, List.mem_map, (sortBy_perm le _).mem_iff, List.mem_filter, and_assoc]
  exact exists_congr fun c => and_congr_right' (and_congr_right' eq_comm)

theorem exists_of_kind {found : List Candidate}
    {kind : CompletionKind} (all : ∀ c ∈ found, c.kind = kind) (k : CompletionKind) (name : Text) :
    (∃ c ∈ found, c.kind = k ∧ c.label = name) ↔ kind = k ∧ name ∈ found.map Candidate.label := by
  rw [List.mem_map]
  constructor
  · rintro ⟨c, mem, rfl, rfl⟩
    exact ⟨(all c mem).symm, c, mem, rfl⟩
  · rintro ⟨rfl, c, mem, rfl⟩
    exact ⟨c, mem, all c mem, rfl⟩

theorem Names.available_iff (names : Names sign seen inputs named) (k : CompletionKind)
    (name : Text) :
    (∃ c ∈ sign.words ++ named, c.kind = k ∧ c.label = name) ↔
    Available sign seen inputs k name := by
  have words := exists_of_kind (fun c (mem : c ∈ sign.words) => kind_words mem) k name
  simp only [List.mem_append, or_and_right, exists_or, words, names.available, mem_labels_words]
  cases k <;> simp [Available]

/-- The candidates that begin with what is written have different names exactly if no binding and no
input among them has that of a directive. -/
theorem nodup_labels_iff (names : Names sign seen inputs named) (written : Text) :
    (((sign.words ++ named).filter fun c => c.label.startsWith written).map Candidate.label).Nodup ↔
      ∀ c ∈ named, c.label.startsWith written → c.kind = .variable ∨ c.kind = .input →
        Directive.isReserved c.label = false := by
  have words : (sign.words.map Candidate.label).Nodup := by cases sign <;> decide
  have fit (l : List Candidate) :
      (l.filter fun c => c.label.startsWith written).map Candidate.label =
      (l.map Candidate.label).filter (Text.startsWith · written) := by
    rw [List.filter_map]
    rfl
  rw [fit, List.map_append, List.filter_append, List.nodup_append]
  constructor
  · rintro ⟨-, -, apart⟩ c mem begins kind
    refine Bool.eq_false_iff.2 fun reserved => ?_
    have word := mem_labels_words.2 ⟨(names.kind_iff mem).1 kind, reserved⟩
    have other := List.mem_map_of_mem (f := Candidate.label) mem
    exact apart _ (List.mem_filter.2 ⟨word, begins⟩) _ (List.mem_filter.2 ⟨other, begins⟩) rfl
  · refine fun free => ⟨words.filter _, names.nodup.filter _, ?_⟩
    rintro a word b other rfl
    obtain ⟨word, begins⟩ := List.mem_filter.1 word
    obtain ⟨c, mem, rfl⟩ := List.mem_map.1 (List.mem_filter.1 other).1
    obtain ⟨isName, reserved⟩ := mem_labels_words.1 word
    rw [free c mem begins ((names.kind_iff mem).2 isName)] at reserved
    cases reserved

/-- What is offered of candidates. -/
theorem offers_entries (names : Names site.sign seen s.settings.inputs named)
    (valid : ∀ {item n}, seen item → Name.ofItem? item = some n → isValid n.name) :
    Offers s seen uri site offset (entries s uri site offset (site.sign.words ++ named)) := by
  have available (k : CompletionKind) (name : Text) :
      (∃ e ∈ entries s uri site offset (site.sign.words ++ named), e.kind = k ∧ e.label = name) ↔
        Available site.sign seen s.settings.inputs k name ∧ name.startsWith site.written := by
    rw [← names.available_iff]
    constructor
    · rintro ⟨e, mem, rfl, rfl⟩
      obtain ⟨c, there, begins, rfl⟩ := mem_entries.1 mem
      exact ⟨⟨c, there, rfl, rfl⟩, begins⟩
    · rintro ⟨⟨c, there, rfl, rfl⟩, begins⟩
      exact ⟨_, mem_entries.2 ⟨c, there, begins, rfl⟩, rfl, rfl⟩
  refine ⟨available, ?sorted, fun e mem => ?range, fun e mem kind => ?label,
    fun e mem kind => ?binding, fun e mem kind => ?input, ?distinct⟩
  case sorted =>
    refine List.pairwise_map.2 ((pairwise_sortBy le le_trans le_total _).imp fun before => ?_)
    exact le_iff.1 before
  case range =>
    obtain ⟨c, -, -, rfl⟩ := mem_entries.1 mem
    rfl
  case label =>
    obtain ⟨⟨isLabel, m, there, name⟩, -⟩ := (available .label e.label).1 ⟨e, mem, kind, rfl⟩
    exact usable_of_admits ⟨name ▸ valid there rfl, by simp [isLabel]⟩ uri
  case binding =>
    obtain ⟨⟨isName, b, there, name⟩, -⟩ := (available .variable e.label).1 ⟨e, mem, kind, rfl⟩
    have valid : isValid e.label := name ▸ valid there rfl
    simp [usable_iff, Sign.Admits, valid, isName]
  case input =>
    obtain ⟨⟨isName, -⟩, -⟩ := (available .input e.label).1 ⟨e, mem, kind, rfl⟩
    simp [usable_iff, Sign.Admits, isName]
  case distinct =>
    have labels : (entries s uri site offset (site.sign.words ++ named)).map CompletionEntry.label =
        (sortBy le ((site.sign.words ++ named).filter fun c => c.label.startsWith site.written)).map
          Candidate.label := by
      rw [entries, List.map_map]
      rfl
    rw [labels, ((sortBy_perm le _).map _).nodup_iff, nodup_labels_iff names]
    constructor
    · intro free e mem kind
      obtain ⟨c, there, begins, rfl⟩ := mem_entries.1 mem
      rcases List.mem_append.1 there with word | name
      · simp [kind_words word] at kind
      · exact free c name begins kind
    · intro free c mem begins
      exact free _ (mem_entries.2 ⟨c, List.mem_append_right _ mem, begins, rfl⟩)

end Completion

/-! ## Names of a closure -/

namespace Resolution

theorem mem_names_firstLabels (known : List LabelDefinition) (labels : List PlacedLabel)
    (name : Text) :
    name ∈ (firstLabels known labels).map LabelDefinition.name ↔
      name ∈ labels.map (·.mark.name) ∧ name ∉ known.map LabelDefinition.name := by
  induction labels generalizing known with
  | nil => simp [firstLabels]
  | cons l rest ih =>
    rw [firstLabels]
    split
    next old =>
      have old : l.mark.name ∈ known.map LabelDefinition.name := by
        simpa [List.any_eq_true] using old
      rw [ih, List.map_cons, List.mem_cons, or_and_right, or_iff_right]
      rintro ⟨rfl, new⟩
      exact new old
    next new =>
      have new : l.mark.name ∉ known.map LabelDefinition.name := by
        simpa [List.any_eq_true] using new
      rw [List.map_cons, List.mem_cons, ih, List.map_append, List.mem_append, List.map_cons,
        List.mem_cons, show l.definition.name = l.mark.name from rfl]
      by_cases same : name = l.mark.name
      · simp [same, new]
      · simp [same]

theorem nodup_names_firstLabels (known : List LabelDefinition) (labels : List PlacedLabel) :
    ((firstLabels known labels).map LabelDefinition.name).Nodup := by
  induction labels generalizing known with
  | nil => simp [firstLabels]
  | cons l rest ih =>
    rw [firstLabels]
    split
    next => exact ih known
    next =>
      refine List.nodup_cons.2 ⟨fun again => ?_, ih _⟩
      exact ((mem_names_firstLabels _ _ _).1 again).2 (by simp)

end Resolution

namespace World

open Resolution

variable {w : World}

def HasItem (w : World) (item : Item) : Prop :=
  ∃ uri src, w.Reaches uri ∧ w.source? uri = some src ∧ item ∈ src.module.items

theorem Tours.exists_visit_iff {visits : List Visit}
    {files : List Uri} (tours : w.Tours visits files) {item : Item} :
    (∃ v ∈ visits, v.item = item) ↔ w.HasItem item := by
  constructor
  · rintro ⟨v, mem, rfl⟩
    obtain ⟨reached, source⟩ := (tours.mem_files v.uri).1 (tours.inside v mem)
    obtain ⟨src, source⟩ := Option.isSome_iff_exists.1 source
    refine ⟨v.uri, src, reached, source, ?_⟩
    rw [← tours.items v.uri (tours.inside v mem) src source]
    exact List.mem_map_of_mem (List.mem_filter.2 ⟨mem, by simp⟩)
  · rintro ⟨uri, src, reached, source, mem⟩
    have file := (tours.mem_files uri).2 ⟨reached, by rw [source]; rfl⟩
    rw [← tours.items uri file src source] at mem
    obtain ⟨v, visited, rfl⟩ := List.mem_map.1 mem
    exact ⟨v, (List.mem_filter.1 visited).1, rfl⟩

theorem exists_label_iff (found : (w.source? w.entry).isSome) {name : Text} :
    (∃ l ∈ w.compile.artifact.labels, l.name = name) ↔ ∃ m, w.HasItem (.label m) ∧
    m.name = name := by
  obtain ⟨visits, tours, placed, -⟩ := tours_expand found
  have names : (placedLabels none w.expand.placed).map (·.mark.name) =
      (labelsOf visits).map (·.2.name) := by
    rw [labelsOf_eq placed, List.map_map]
    rfl
  have first := mem_names_firstLabels [] (placedLabels none w.expand.placed) name
  rw [names, List.mem_map] at first
  refine first.trans ((and_iff_left (by simp)).trans ?_)
  constructor
  · intro labelled
    obtain ⟨e, mem, rfl⟩ := List.mem_map.1 labelled
    obtain ⟨v, visited, eq⟩ := List.mem_filterMap.1 mem
    obtain ⟨m, label, rfl⟩ := Option.map_eq_some_iff.1 eq
    exact ⟨m, tours.exists_visit_iff.1 ⟨v, visited, Item.label?_eq_some.1 label⟩, rfl⟩
  · rintro ⟨m, held, rfl⟩
    obtain ⟨v, visited, label⟩ := tours.exists_visit_iff.2 held
    have labelled : (v.uri, m) ∈ labelsOf visits :=
      List.mem_filterMap.2 ⟨v, visited, by rw [label]; rfl⟩
    exact List.mem_map_of_mem labelled

theorem exists_binding_iff (found : (w.source? w.entry).isSome) {name : Text} :
    (∃ b ∈ w.compile.artifact.bindings, b.name = name) ↔ ∃ b, w.HasItem (.binding b) ∧
    b.name = name := by
  obtain ⟨visits, tours, placed, edges, -⟩ := tours_expand found
  have names : w.compile.artifact.bindings.map BindingDefinition.name =
      visits.filterMap fun v => v.item.binding?.map Binding.name := by
    have listed := congrArg (List.map fun e : Uri × Text × Text × Span × Span => e.2.1)
      (lists_compile placed edges).bindings
    simpa [List.map_filterMap, Function.comp_def] using listed
  rw [← List.mem_map, names]
  simp only [List.mem_filterMap, Option.map_eq_some_iff, Item.binding?_eq_some,
    ← tours.exists_visit_iff]
  constructor
  · rintro ⟨v, visited, b, binding, rfl⟩
    exact ⟨b, ⟨v, visited, binding⟩, rfl⟩
  · rintro ⟨b, ⟨v, visited, binding⟩, rfl⟩
    exact ⟨v, visited, b, binding, rfl⟩

end World

theorem Snapshot.exists_read_of_source?_world {s : Snapshot} (filed : s.Filed) {entry uri : Uri}
    {src : Source}
    (source : (s.world entry).source? uri = some src) : ∃ t, src.module = Module.read uri t := by
  rw [source?_world filed] at source
  obtain ⟨d, found, rfl⟩ := Option.map_eq_some_iff.1 source
  exact ⟨d.text, by rw [sourceOf, filed.uri_eq found]⟩

namespace Completion

open Quill.Flow (Yields yields_done)

variable {c : Compiler} {s : Snapshot} {seen : Item → Prop} {entry : Uri} {doc : SnapshotDocument}

/-! ## Available names -/

/-- The item can be referred to in the entry: it is in the closure or, where that cannot be
compiled, in the entry. -/
def Seen (c : Compiler) (s : Snapshot) (entry : Uri) (item : Item) : Prop :=
  ∃ uri src, (uri = entry ∨ (c.compile (s.world entry)).isOk ∧ (s.world entry).Reaches uri) ∧
    (s.world entry).source? uri = some src ∧ item ∈ src.module.items

theorem seen_iff_of_ok {compiled : Compiled} (ok : c.compile (s.world entry) = .ok compiled)
    (item : Item) :
    Seen c s entry item ↔ (s.world entry).HasItem item := by
  constructor
  · rintro ⟨uri, src, rfl | ⟨-, reached⟩, source⟩
    · exact ⟨uri, src, .refl, source⟩
    · exact ⟨uri, src, reached, source⟩
  · rintro ⟨uri, src, reached, source⟩
    exact ⟨uri, src, .inr ⟨by rw [ok]; rfl, reached⟩, source⟩

theorem seen_iff_of_error {e : Failure} (failed : c.compile (s.world entry) = .error e)
    (filed : s.Filed) (found : s.document? entry = some doc) (item : Item) :
    Seen c s entry item ↔ item ∈ (Module.read doc.uri doc.text).items := by
  have source : (s.world entry).source? entry = some (Snapshot.sourceOf doc) := by
    rw [Snapshot.source?_world filed, found]
    rfl
  constructor
  · rintro ⟨uri, src, rfl | ⟨ok, -⟩, source', mem⟩
    · obtain rfl := Option.some.inj (source.symm.trans source')
      exact mem
    · rw [failed] at ok
      cases ok
  · exact fun mem => ⟨entry, _, .inl rfl, source, mem⟩

theorem isValid_of_seen (filed : s.Filed) {item : Item} {n : Name} (there : Seen c s entry item)
    (names : Name.ofItem? item = some n) : isValid n.name := by
  obtain ⟨uri, src, -, source, mem⟩ := there
  obtain ⟨t, read⟩ := Snapshot.exists_read_of_source?_world filed source
  exact Module.isValid_of_mem_items (read ▸ mem) names

theorem names_labels {inputs : Dict Text Text}
    {named : List Candidate} (nodup : (named.map Candidate.label).Nodup)
    (kind : ∀ c ∈ named, c.kind = .label)
    (labelled : ∀ name, name ∈ named.map Candidate.label ↔ ∃ m, seen (.label m) ∧ m.name = name) :
    Names .label seen inputs named where
  nodup := nodup
  available k name := by
    rw [exists_of_kind kind, labelled]
    cases k <;> simp [Available]

theorem labels_map (d : Dict Text Text) (kind : CompletionKind) :
    (d.map fun e => (⟨e.1, kind, some e.2⟩ : Candidate)).map Candidate.label = Dict.keys d := by
  simp [Dict.keys, Function.comp_def]

theorem exists_mem_map_iff (d : Dict Text Text) (kind k : CompletionKind) :
    (∃ c ∈ d.map fun e => (⟨e.1, kind, some e.2⟩ : Candidate), c.kind = k ∧ c.label = name) ↔
      kind = k ∧ name ∈ Dict.keys d := by
  rw [← labels_map d kind]
  refine exists_of_kind (fun c mem => ?_) k name
  obtain ⟨e, -, rfl⟩ := List.mem_map.1 mem
  rfl

/-- Candidates for the bindings that are seen, which have the names that are written pair by pair,
and for inputs. -/
theorem names_bindings {pairs : List (Text × Text)}
    {inputs : Dict Text Text} (distinct : (Dict.keys inputs).Nodup)
    (bound : ∀ name, name ∈ Dict.keys pairs ↔ ∃ b, seen (.binding b) ∧ b.name = name) :
    Names .name seen inputs ((Dict.ofList pairs).map (fun e => ⟨e.1, .variable, some e.2⟩) ++
      (inputs.filter fun e => !Dict.has (Dict.ofList pairs) e.1).map fun e =>
        ⟨e.1, .input, some e.2⟩) := by
  have free (name : Text) :
      name ∈ Dict.keys (inputs.filter fun e => !Dict.has (Dict.ofList pairs) e.1) ↔
      name ∈ Dict.keys inputs ∧ name ∉ Dict.keys (Dict.ofList pairs) := by
    rw [← Dict.has_eq_false_iff]
    simp [Dict.keys]
  refine ⟨?nodup, fun k name => ?available⟩
  case nodup =>
    rw [List.map_append, labels_map, labels_map, List.nodup_append]
    refine ⟨Dict.nodup_keys_ofList pairs, distinct.sublist (List.filter_sublist.map _), ?_⟩
    rintro a bound b other rfl
    exact ((free a).1 other).2 bound
  case available =>
    simp only [List.mem_append, or_and_right, exists_or, exists_mem_map_iff, free,
      Dict.mem_keys_ofList, bound]
    cases k <;> simp [Available]

/-! ## Answers -/

def candidates (settings : CompileSettings) (uri : Uri) (a : Option Artifact)
    (own : Option Module) :
    Sign → List Candidate
  | .label => labels uri a own
  | .name => names settings a own

theorem exists_names_compile {w : World} (settings : CompileSettings) (uri : Uri) (sign : Sign)
    (found : (w.source? w.entry).isSome) (distinct : (Dict.keys w.settings.inputs).Nodup)
    (held : ∀ item, seen item ↔ w.HasItem item) :
    ∃ named, candidates settings uri (some w.compile.artifact) none sign = sign.words ++ named ∧
      Names sign seen w.settings.inputs named := by
  cases sign with
  | label =>
    have nodup : (w.compile.artifact.labels.map LabelDefinition.name).Nodup :=
      Resolution.nodup_names_firstLabels _ _
    refine ⟨_, rfl, names_labels (by simpa [Function.comp_def] using nodup) (by simp)
      fun name => ?_⟩
    simp only [held, ← World.exists_label_iff found]
    simp
  | name =>
    refine ⟨_, List.append_assoc _ _ _, names_bindings distinct fun name => ?_⟩
    simp only [held, ← World.exists_binding_iff found]
    simp [Dict.keys]

/-- The candidates in a document by itself. -/
theorem exists_names_module {settings : CompileSettings} {m : Module} (uri : Uri) (sign : Sign)
    (distinct : (Dict.keys settings.inputs).Nodup) (own : ∀ item, seen item ↔ item ∈ m.items) :
    ∃ named, candidates settings uri none (some m) sign = sign.words ++ named ∧
      Names sign seen settings.inputs named := by
  cases sign with
  | label =>
    refine ⟨_, rfl, names_labels ?_ (by simp) fun name => ?_⟩
    · simpa [Function.comp_def] using Inclusions.nodup_eraseDups (m.labels.map Mark.name)
    · simp [own, Module.labels, Item.label?_eq_some]
  | name =>
    refine ⟨_, List.append_assoc _ _ _, names_bindings distinct fun name => ?_⟩
    simp [own, Dict.keys, Module.bindings, Item.binding?_eq_some]

theorem yields_candidates {found : Option Artifact × Option Module}
    (yields : Yields (.computed c) (Answering.artifactOrEntry s entry) (.ok found)) (sign : Sign) :
    Yields (.computed c) (Answering.candidates s entry sign)
      (.ok (candidates s.settings entry found.1 found.2 sign)) := by
  refine yields.bind ?_
  cases sign <;> exact yields_done _ _

theorem exists_candidates (conforms : c.Conforms) (scope : s.scope.entryUri? = some entry)
    (filed : s.Filed)
    (found : s.document? entry = some doc) (distinct : (Dict.keys s.settings.inputs).Nodup)
    (sign : Sign) :
    ∃ named, Names sign (Seen c s entry) s.settings.inputs named ∧
      Yields (.computed c) (Answering.candidates s entry sign) (.ok (sign.words ++ named)) := by
  have there : (s.document? entry).isSome := by rw [found]; rfl
  have source : ((s.world entry).source? (s.world entry).entry).isSome := by
    rw [Snapshot.source?_world filed, Option.isSome_map]
    exact there
  rcases conforms.compile (s.world entry) with same | ⟨e, failed⟩
  · have ok := same.trans (Snapshot.compile?_world filed there)
    obtain ⟨named, eq, names⟩ :=
      exists_names_compile s.settings entry sign source distinct (seen_iff_of_ok ok)
    have compile := Snapshot.yields_compile_of_ok conforms scope ok
    exact ⟨named, names, eq ▸ yields_candidates (compile.call.bind (yields_done _ _)) sign⟩
  · obtain ⟨named, eq, names⟩ :=
      exists_names_module entry sign distinct (seen_iff_of_error failed filed found)
    have compile := Snapshot.yields_compile_of_error conforms scope failed
    have parse := Flow.yields_parse_of_conforms conforms found
    exact ⟨named, names,
      eq ▸ yields_candidates (compile.call.bind (parse.call.bind (yields_done _ _))) sign⟩

theorem yields_completion {p : Position} {answer : Answer} (scope : s.scope.entryUri? = some entry)
    (filed : s.Filed) (found : s.document? entry = some doc)
    (yields : Yields (.computed c) (Answering.completion s (s.offsetAt entry p)) (.ok answer)) :
    Yields (.computed c) ((Question.completion p).answer s entry) (.ok answer) := by
  have isEntry := Snapshot.entryDocument?_of_scope scope found
  refine Flow.yields_atPosition p isEntry (Flow.Yields.bind ?_ (yields_done _ _))
  rwa [filed.uri_eq found]

/-- Behind a sign the candidates are offered that fit. -/
theorem yields_entries {p : Position} {site : Site}
    {found : List Candidate} (scope : s.scope.entryUri? = some entry)
    (filed : s.Filed) (there : s.document? entry = some doc)
    (place : Site.find? doc.text (s.offsetAt entry p) = some site)
    (yields : Yields (.computed c) (Answering.candidates s entry site.sign) (.ok found)) :
    Yields (.computed c) ((Question.completion p).answer s entry)
      (.ok (.completion (entries s entry site (s.offsetAt entry p) found))) := by
  have isEntry := Snapshot.entryDocument?_of_scope scope there
  refine yields_completion scope filed there ((Flow.yields_entry isEntry _).bind ?_)
  rw [place, filed.uri_eq there]
  exact yields.call.bind (yields_done _ _)

/-- At a cursor behind a sign and the units of an identifier, the available names that begin with
these units are offered in order and in place of them, and at other cursors nothing is. A label that
is offered can be used, a binding unless it has the name of a directive, and an input if moreover
its name is an identifier. All entries have different names exactly if no binding and no input among
them has the name of a directive. -/
theorem answer_completion (conforms : c.Conforms) (scope : s.scope.entryUri? = some entry)
    (filed : s.Filed)
    (found : s.document? entry = some doc) (distinct : (Dict.keys s.settings.inputs).Nodup)
    (p : Position) :
    ∃ entries, Yields (.computed c) ((Question.completion p).answer s entry)
      (.ok (.completion entries)) ∧
      (∀ site : Site, site.At doc.text (s.offsetAt entry p) →
        Offers s (Seen c s entry) entry site (s.offsetAt entry p) entries) ∧
      ((¬ ∃ site : Site, site.At doc.text (s.offsetAt entry p)) → entries = []) := by
  cases place : Site.find? doc.text (s.offsetAt entry p) with
  | none =>
    have isEntry := Snapshot.entryDocument?_of_scope scope found
    have nothing : Yields (.computed c) (Answering.completion s (s.offsetAt entry p))
        (.ok (.completion [])) := by
      refine (Flow.yields_entry isEntry _).bind ?_
      rw [place]
      exact yields_done _ _
    refine ⟨[], yields_completion scope filed found nothing, fun site at_ => ?_, fun _ => rfl⟩
    cases place.symm.trans (Site.find?_eq_some_iff.2 at_)
  | some site =>
    obtain ⟨named, names, yields⟩ := exists_candidates conforms scope filed found distinct site.sign
    refine ⟨_, yields_entries scope filed found place yields, fun other at_ => ?_, fun none => ?_⟩
    · obtain rfl := Option.some.inj (place.symm.trans (Site.find?_eq_some_iff.2 at_))
      exact offers_entries names (isValid_of_seen filed)
    · exact absurd ⟨site, Site.find?_eq_some_iff.1 place⟩ none

/-- A document that cannot be compiled, with a binding and an input that begin alike. -/
theorem answer_completion_faulty :
    let c := Compiler.quill.withFaults { compile := some "boom" }
    let doc : SnapshotDocument := ⟨"/ws/main.quill", "#let total = 1 boom\n#to", 1, "", .memory⟩
    let s : Snapshot := ⟨.document doc.uri, [(doc.uri, doc)], [], ⟨[("top", "2")], "default"⟩, ""⟩
    let p : Position := ⟨1, 3⟩
    c.Conforms ∧ s.scope.entryUri? = some doc.uri ∧ s.Filed ∧ s.document? doc.uri = some doc ∧
    (Dict.keys s.settings.inputs).Nodup ∧
    ∃ entries, Yields (.computed c) ((Question.completion p).answer s doc.uri)
      (.ok (.completion entries)) ∧
      (∀ site : Site, site.At doc.text (s.offsetAt doc.uri p) →
        Offers s (Seen c s doc.uri) doc.uri site (s.offsetAt doc.uri p) entries) ∧
      ((¬ ∃ site : Site, site.At doc.text (s.offsetAt doc.uri p)) → entries = []) := by
  intro c doc s p
  have conforms : c.Conforms := Compiler.conforms_withFaults "boom"
  have filed : s.Filed := ⟨by simp [s], by decide +kernel⟩
  have found : s.document? doc.uri = some doc := by decide +kernel
  have distinct : (Dict.keys s.settings.inputs).Nodup := by decide
  exact ⟨conforms, rfl, filed, found, distinct,
    answer_completion conforms rfl filed found distinct p⟩

/-- A binding that has the name of a directive is offered, and an input whose name is not an
identifier. -/
theorem not_answer_completion :
    let doc : SnapshotDocument := ⟨"/ws/main.quill", "#let let = 1\n#", 1, "", .memory⟩
    let s : Snapshot := ⟨.document doc.uri, [(doc.uri, doc)], [], ⟨[("a b", "2")], "default"⟩, ""⟩
    ∃ entries,
      Yields (.computed .quill) ((Question.completion ⟨1, 1⟩).answer s doc.uri)
        (.ok (.completion entries)) ∧
      (∃ e ∈ entries, e.kind = .variable ∧ ¬ Usable doc.uri .name e.label) ∧
      (∃ e ∈ entries, e.kind = .input ∧ ¬ Usable doc.uri .name e.label) ∧
      ¬ (entries.map (·.label)).Nodup := by
  intro doc s
  have filed : s.Filed := ⟨by simp [s], by decide +kernel⟩
  have found : s.document? doc.uri = some doc := by decide +kernel
  have scope : s.scope.entryUri? = some doc.uri := rfl
  have compile := Snapshot.yields_compile scope filed (by rw [found]; rfl)
  have place : Site.find? doc.text (s.offsetAt doc.uri ⟨1, 1⟩) = some ⟨.name, 14, []⟩ := by
    decide +kernel
  have yields := yields_entries scope filed found place
    (yields_candidates (compile.call.bind (yields_done _ _)) .name)
  have eq : entries s doc.uri ⟨.name, 14, []⟩ (s.offsetAt doc.uri ⟨1, 1⟩)
      (candidates s.settings doc.uri (some (s.world doc.uri).compile.artifact) none .name) =
      [⟨"include", .keyword, none, ⟨⟨1, 1⟩, ⟨1, 1⟩⟩⟩, ⟨"let", .keyword, none, ⟨⟨1, 1⟩, ⟨1, 1⟩⟩⟩,
        ⟨"let", .variable, some "1", ⟨⟨1, 1⟩, ⟨1, 1⟩⟩⟩,
        ⟨"a b", .input, some "2", ⟨⟨1, 1⟩, ⟨1, 1⟩⟩⟩] := by
    decide +kernel
  refine ⟨_, yields, ?_⟩
  rw [eq]
  refine ⟨⟨_, .tail _ (.tail _ (.head _)), rfl, fun usable => ?_⟩,
    ⟨_, .tail _ (.tail _ (.tail _ (.head _))), rfl, fun usable => ?_⟩, by decide +kernel⟩
  · exact absurd ((usable_iff.1 usable).2 rfl) (by decide +kernel)
  · exact absurd (usable_iff.1 usable).1 (by decide +kernel)

end Completion

end Quill
