import Quill.Proofs.Analysis.Edits
import Quill.Proofs.Analysis.Connected
import Quill.Proofs.Markup.RenamedDocuments
import Quill.Proofs.Text.Positions

/-!
# Renaming a symbol

The edits of a rename replace the name of the symbol wherever it stands in the documents that
inclusions connect with the one it was found in, and nothing else: what is read from these documents
afterwards is what was read before, with the other name.

## Main definitions

* `Rename.Renames` — what becomes of names when a symbol gets another one.
* `Rename.moved` — where an offset of a document is afterwards.
* `Rename.editsOf` — the edits of one document.

## Main statements

* `Rename.renamed_carryOut` — what is read from a document once the edits of it have been made.
* `Rename.answer_rename` — the answer to the question for a rename.
-/

namespace Quill.Rename

open Draft (names)
open Quill.Flow (Yields yields_done)

variable {s : Snapshot} {n : Name} {newName : Text} {uri x : Uri} {uris : List Uri}
  {doc d : SnapshotDocument} {m : Module} {t : Text} {ρ : Renaming}

/-- The symbol `n` gets another name, and no other symbol does. -/
def Renames (n : Name) (newName : Text) (ρ : Renaming) : Prop :=
  ∀ kind name, ρ.apply kind name = if kind = n.kind ∧ name = n.name then newName else name

theorem exists_renames (valid : Identifier.isValid newName) (allowed : refuses n newName = false) :
    ∃ ρ, Renames n newName ρ := by
  refine ⟨⟨fun kind name => if kind = n.kind ∧ name = n.name then newName else name, ?_, ?_⟩,
    fun _ _ => rfl⟩
  · intro kind name own
    split
    · exact valid
    · exact own
  · intro name free
    split
    next same => simpa [refuses, ← same.1] using allowed
    next => exact free

def named (n : Name) (m : Module) : List Name :=
  (m.items.filterMap Name.ofItem?).filter fun other => other.kind = n.kind ∧ other.name = n.name

/-- Where an offset of a document is once the symbol `n` has another name: every name in front of it
has become longer or shorter. -/
def moved (n : Name) (newName : Text) (m : Module) (offset : Int) : Int :=
  offset + ((newName.length : Int) - n.name.length) * (named n m).countP fun other =>
    other.span.stop ≤ offset

def editsOf (s : Snapshot) (n : Name) (newName : Text) (uri : Uri) : List DocumentEdit :=
  match s.document? uri with
  | none => []
  | some d => (named n (Module.read d.uri d.text)).map fun other =>
    ⟨uri, if d.origin = .memory then some d.version else none, s.rangeOf uri other.span, newName⟩

theorem filterMap_occurrencesIn (found : s.document? uri = some d) (n : Name) (newName : Text)
    (m : Module) :
    (n.occurrencesIn uri m).filterMap (edit? s newName) = (named n m).map fun other =>
      ⟨uri, if d.origin = .memory then some d.version else none, s.rangeOf uri other.span,
        newName⟩ := by
  simp only [Name.occurrencesIn, named]
  generalize m.items = items
  induction items with
  | nil => rfl
  | cons item items ih =>
    cases of : Name.ofItem? item with
    | none => simpa [of] using ih
    | some other =>
      by_cases same : other.kind = n.kind ∧ other.name = n.name
      · simpa [of, same, edit?, found] using ih
      · simpa [of, same] using ih

theorem filterMap_edit? (s : Snapshot) (n : Name) (newName : Text) (uris : List Uri) :
    ((s.modules uris).flatMap fun e => n.occurrencesIn e.1 e.2).filterMap (edit? s newName) =
      uris.flatMap (editsOf s n newName) := by
  induction uris with
  | nil => rfl
  | cons uri uris ih =>
    rw [List.flatMap_cons, ← ih]
    cases found : s.document? uri with
    | none => simp [Snapshot.modules, Snapshot.module?, editsOf, found]
    | some d =>
      have all : s.modules (uri :: uris) = (uri, Module.read d.uri d.text) :: s.modules uris := by
        simp [Snapshot.modules, Snapshot.module?, found]
      simp only [all, List.flatMap_cons, List.filterMap_append, filterMap_occurrencesIn found,
        editsOf, found]

/-! ## Edits of one document -/

/-- The places of names are found again. -/
theorem replacement_rangeOf {d : Draft} (valid : d.Valid) {other : Name} (mem : other ∈ names 0 d)
    (uri : Uri) (version : Option Int) (newName : Text) :
    (⟨uri, version, (LineTable.ofText d.text).rangeOf other.span, newName⟩ :
      DocumentEdit).replacement d.text =
      ⟨other.span, newName⟩ := by
  obtain ⟨front, behind, rfl, span⟩ := Draft.exists_of_mem_names mem
  have name_valid := (Draft.valid_name_cons.1 (Draft.valid_append.1 valid).2).1
  have part := Identifier.isPart_of_isValid name_valid
  obtain ⟨u, rest, name_eq⟩ := List.exists_cons_of_ne_nil (Draft.ne_nil_of_isValid name_valid)
  have length : 0 < other.name.length := by simp [name_eq]
  -- the units of a name belong to no line break
  have start : ¬ Text.SplitsBreak (Draft.text (front ++ .name other.kind other.name :: behind))
      front.text.length := by
    intro splits
    have feed := splits.getElem?.2
    rw [Draft.text_append, Draft.text_name_cons, List.getElem?_append_right (Nat.le_refl _),
      Nat.sub_self, List.getElem?_append_left length] at feed
    exact absurd (part _ (List.mem_of_getElem? feed)) (by decide)
  have stop : ¬ Text.SplitsBreak (Draft.text (front ++ .name other.kind other.name :: behind))
      (front.text.length + other.name.length) := by
    intro splits
    have return_ := splits.getElem?.1
    rw [Draft.text_append, Draft.text_name_cons, List.getElem?_append_right (by omega),
      List.getElem?_append_left (by omega)] at return_
    exact absurd (part _ (List.mem_of_getElem? return_)) (by decide)
  have whole : (Draft.text (front ++ .name other.kind other.name :: behind)).length =
      front.text.length + (other.name.length + (Draft.text behind).length) := by simp
  simp only [DocumentEdit.replacement, LineTable.rangeOf, span, Nat.zero_add,
    LineTable.offsetAt_positionAt (Nat.le.intro whole.symm) start,
    LineTable.offsetAt_positionAt (by omega) stop]

theorem linesOf_eq (found : s.document? uri = some doc) : s.linesOf uri = .ofText doc.text := by
  simp [Snapshot.linesOf, found]

theorem uri_of_mem_editsOf {e : DocumentEdit} (mem : e ∈ editsOf s n newName uri) :
    e.uri = uri := by
  unfold editsOf at mem
  split at mem
  · simp at mem
  · obtain ⟨other, -, rfl⟩ := List.mem_map.1 mem
    rfl

/-- The edits of a document replace the names of the symbol in it. -/
theorem map_replacement_editsOf (found : s.document? uri = some doc)
    {d : Draft} (text_eq : d.text = doc.text) (valid : d.Valid)
    (names_eq : (Module.read doc.uri doc.text).items.filterMap Name.ofItem? = names 0 d) :
    (editsOf s n newName uri).map (DocumentEdit.replacement doc.text) =
      Draft.replacements n.kind n.name newName 0 d := by
  simp only [editsOf, found, named, names_eq, Draft.replacements, List.map_map]
  refine List.map_congr_left fun other mem => ?_
  have back := replacement_rangeOf valid (List.mem_of_mem_filter mem) uri
    (if doc.origin = .memory then some doc.version else none) newName
  rw [text_eq] at back
  simpa only [Function.comp_apply, Snapshot.rangeOf, linesOf_eq found] using back

theorem pairwise_editsOf (s : Snapshot) (n : Name) (newName : Text) (uri : Uri) :
    (editsOf s n newName uri).Pairwise EditList.Before := by
  cases found : s.document? uri with
  | none => simp [editsOf, found]
  | some doc =>
    obtain ⟨d, text_eq, valid, names_eq, -⟩ := Module.exists_draft doc.uri doc.text
    simp only [editsOf, found, named, names_eq]
    refine List.pairwise_map.2 (List.Pairwise.filter _ ?_)
    refine List.Pairwise.imp_of_mem (fun {a b} mem _ behind => ?_) (Draft.pairwise_names 0 d)
    have inner : a.span.start ≤ a.span.stop := by
      obtain ⟨front, behind, -, span⟩ := Draft.exists_of_mem_names mem
      simp only [span]
      omega
    have ordered := LineTable.positionAt_le (Int.le_trans inner behind) (s.linesOf uri)
    have apart := LineTable.positionAt_le behind (s.linesOf uri)
    refine ⟨?_, ?_⟩
    · simpa [EditList.le, Snapshot.rangeOf, LineTable.rangeOf] using ordered
    · simp [EditList.checkPair, Snapshot.rangeOf, LineTable.rangeOf,
        Position.lt_eq_false_of_le apart]

/-! ## All edits -/

/-- The edits of documents in order stand one behind the other. -/
theorem pairwise_flatMap_editsOf (s : Snapshot) (n : Name) (newName : Text) (uris : List Uri)
    (nodup : uris.Nodup) (sorted : uris.Pairwise fun a b => Text.le a b) :
    (uris.flatMap (editsOf s n newName)).Pairwise EditList.Before := by
  refine List.pairwise_flatMap.2 ⟨fun uri _ => pairwise_editsOf s n newName uri, ?_⟩
  refine (nodup.and sorted).imp fun {a b} apart e mem e' mem' => ?_
  rw [← uri_of_mem_editsOf mem, ← uri_of_mem_editsOf mem'] at apart
  exact ⟨by simp [EditList.le, apart], by simp [EditList.checkPair, apart.1]⟩

theorem edits_eq (s : Snapshot) (n : Name) (newName : Text) (uri : Uri) :
    edits s newName ((s.modules (s.connected uri)).flatMap fun e => n.occurrencesIn e.1 e.2) =
      .ok ((s.connected uri).flatMap (editsOf s n newName)) := by
  rw [edits, filterMap_edit?]
  exact EditList.validate_eq_ok
    (pairwise_flatMap_editsOf s n newName _ (s.nodup_connected uri) (s.pairwise_connected uri))

/-- The edits give the names of a document their other names if inclusions connect it with the one
that the symbol was found in. -/
theorem carryOut_draft (renames : Renames n newName ρ) (found : s.document? x = some d)
    (connected : s.Connected uri x) {e : Draft} (text_eq : e.text = d.text) (valid : e.Valid)
    (names_eq : (Module.read d.uri d.text).items.filterMap Name.ofItem? = names 0 e) :
    EditList.carryOut ((s.connected uri).flatMap (editsOf s n newName)) x d.text =
      (e.rename ρ).text := by
  have filed (u : Uri) (e : DocumentEdit) (mem : e ∈ editsOf s n newName u) : e.uri = u :=
    uri_of_mem_editsOf mem
  have made := Draft.foldr_replacements renames [] e
  rw [EditList.carryOut, EditList.filter_flatMap filed (s.nodup_connected uri),
    if_pos (Snapshot.mem_connected_iff.2 connected),
    map_replacement_editsOf found text_eq valid names_eq]
  simpa [text_eq] using made

theorem carryOut_of_not_connected (apart : ¬ s.Connected uri x) (t : Text) :
    EditList.carryOut ((s.connected uri).flatMap (editsOf s n newName)) x t = t := by
  have filed (u : Uri) (e : DocumentEdit) (mem : e ∈ editsOf s n newName u) : e.uri = u :=
    uri_of_mem_editsOf mem
  rw [EditList.carryOut, EditList.filter_flatMap filed (s.nodup_connected uri),
    if_neg (mt Snapshot.mem_connected_iff.1 apart)]
  rfl

theorem renamed_carryOut (renames : Renames n newName ρ) (found : s.document? x = some d)
    (connected : s.Connected uri x) : (Module.read d.uri d.text).Renamed ρ
      (fun o o' => o' = moved n newName (Module.read d.uri d.text) o)
      (Module.read d.uri
        (EditList.carryOut ((s.connected uri).flatMap (editsOf s n newName)) x d.text)) := by
  obtain ⟨e, text_eq, valid, names_eq, renamed, -⟩ := Module.exists_draft d.uri d.text
  rw [carryOut_draft renames found connected text_eq valid names_eq]
  refine (renamed ρ).mono fun o o' place => ?_
  rw [place.shift valid renames, moved, named, names_eq, List.countP_filter]
  simp only [Bool.decide_and, Bool.and_comm]

theorem yields_rename (p : Position) (found : s.document? uri = some doc)
    (target : Name.at? (Module.read doc.uri doc.text) (s.offsetAt uri p) = some n)
    (valid : Identifier.isValid newName) (allowed : refuses n newName = false) :
    Yields (.computed .quill) ((Question.rename p newName).answer s uri)
      (.ok (.rename (some ((s.connected uri).flatMap (editsOf s n newName))))) := by
  rw [Question.answer, Answering.rename]
  simp only [valid, Bool.not_true, Bool.false_eq_true, if_false]
  refine (Snapshot.yields_parse_call s uri).bind ?_
  simp only [Snapshot.module?, found, Option.map_some, Option.bind_some, target, allowed,
    Bool.false_eq_true, if_false]
  refine (Snapshot.yields_occurrences s uri n).bind ?_
  rw [edits_eq]
  exact yields_done _ _

/-- A rename of a symbol to a name that it may have is answered with edits. In the documents that
inclusions connect, they give the other name to every item of the symbol and to no other; all other
documents stay. -/
theorem answer_rename (s : Snapshot) (uri : Uri) (doc : SnapshotDocument) (p : Position) (n : Name)
    (newName : Text) (found : s.document? uri = some doc)
    (target : Name.at? (Module.read doc.uri doc.text) (s.offsetAt uri p) = some n)
    (valid : Identifier.isValid newName) (allowed : refuses n newName = false) :
    ∃ edits ρ, Renames n newName ρ ∧
      Yields (.computed .quill) ((Question.rename p newName).answer s uri)
        (.ok (.rename (some edits))) ∧
      ∀ x d, s.document? x = some d →
        (s.Connected uri x → (Module.read d.uri d.text).Renamed ρ
          (fun o o' => o' = moved n newName (Module.read d.uri d.text) o)
          (Module.read d.uri (EditList.carryOut edits x d.text))) ∧
        (¬ s.Connected uri x → EditList.carryOut edits x d.text = d.text) := by
  obtain ⟨ρ, renames⟩ := exists_renames valid allowed
  exact ⟨_, ρ, renames, yields_rename p found target valid allowed, fun x d found =>
    ⟨renamed_carryOut renames found, fun apart => carryOut_of_not_connected apart d.text⟩⟩

/-- A binding that is used in an included document, beside a label of its name and a document of its
own. -/
theorem answer_rename_included :
    let doc : SnapshotDocument :=
      ⟨"/ws/a.quill", "#let v = 1\n#include \"b.quill\"\n", 3, "", .memory⟩
    let part : SnapshotDocument := ⟨"/ws/b.quill", "#v *and @v*\r\n<v> #v-v", 0, "", .disk⟩
    let other : SnapshotDocument := ⟨"/ws/c.quill", "#v", 1, "", .memory⟩
    let s : Snapshot :=
      ⟨.workspace, [(doc.uri, doc), (part.uri, part), (other.uri, other)], [], .default, ""⟩
    let n : Name := ⟨.binding, "v", ⟨5, 6⟩⟩
    let p : Position := ⟨0, 5⟩
    let newName : Text := "let-1"
    s.document? doc.uri = some doc ∧
      Name.at? (Module.read doc.uri doc.text) (s.offsetAt doc.uri p) = some n ∧
      Identifier.isValid newName ∧ refuses n newName = false ∧
      ∃ edits ρ, Renames n newName ρ ∧
        Yields (.computed .quill) ((Question.rename p newName).answer s doc.uri)
          (.ok (.rename (some edits))) ∧
        ∀ x d, s.document? x = some d →
          (s.Connected doc.uri x → (Module.read d.uri d.text).Renamed ρ
            (fun o o' => o' = moved n newName (Module.read d.uri d.text) o)
            (Module.read d.uri (EditList.carryOut edits x d.text))) ∧
          (¬ s.Connected doc.uri x → EditList.carryOut edits x d.text = d.text) := by
  intro doc part other s n p newName
  have found : s.document? doc.uri = some doc := by decide +kernel
  have target : Name.at? (Module.read doc.uri doc.text) (s.offsetAt doc.uri p) = some n := by
    decide +kernel
  have valid : Identifier.isValid newName := by decide +kernel
  have allowed : refuses n newName = false := by decide +kernel
  exact ⟨found, target, valid, allowed,
    answer_rename s doc.uri doc p n newName found target valid allowed⟩

end Quill.Rename
