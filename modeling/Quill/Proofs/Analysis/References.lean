import Mathlib.Combinatorics.SimpleGraph.Connectivity.Connected
import Quill.Proofs.Analysis.Rename
import Quill.Proofs.Text.RoundTrip
import Quill.Proofs.Value.Canonical

/-!
# References over the documents of a snapshot

Inclusions connect the documents of a snapshot to classes. A symbol has its occurrences in one
class, and they are the same from wherever in the class they are asked for.

## Main definitions

* `Snapshot.Document`, `Snapshot.includeGraph` — the graph of the inclusions between the documents
  of a snapshot.
* `Snapshot.symbolAt?` — the symbol at a position of a document.
* `References.locationsIn` — where a symbol is named in a document.
* `References.Lists` — locations that are those of a symbol in some documents, in order and each
  once.

## Main statements

* `Snapshot.reachable_includeGraph_iff` — what inclusions connect can be reached in the graph.
* `Snapshot.connected_eq` — connected documents have one class.
* `References.answer_references` — the classes, and the answers from one class and from different
  ones.
-/

namespace Quill

open Relation (ReflTransGen)

variable {s : Snapshot} {u v x : Uri} {a b : Uri} {p q : Position} {n n' : Name}
  {d : SnapshotDocument}

/-! ## Classes of documents -/

namespace Snapshot

abbrev Document (s : Snapshot) : Type := {uri : Uri // (s.document? uri).isSome}

def includeGraph (s : Snapshot) : SimpleGraph s.Document := .fromRel fun a b => s.Includes a b

theorem Includes.left (includes : s.Includes a b) : (s.document? a).isSome := by
  obtain ⟨⟨m, found, -⟩, -⟩ := includes
  simpa [module?] using congrArg Option.isSome found

theorem Connected.symm (connected : s.Connected a b) : s.Connected b a :=
  have : Std.Symm fun a b => s.Includes a b ∨ s.Includes b a := ⟨fun _ _ => Or.symm⟩
  ReflTransGen.stdSymm.symm _ _ connected

theorem includeGraph_adj {a b : s.Document} :
    s.includeGraph.Adj a b ↔ a ≠ b ∧ (s.Includes a b ∨ s.Includes b a) :=
  SimpleGraph.fromRel_adj ..

/-- What inclusions connect with a document can be reached in the graph. -/
theorem reachable_includeGraph_iff {a b : s.Document} :
    s.includeGraph.Reachable a b ↔ s.Connected a b := by
  rw [SimpleGraph.reachable_iff_reflTransGen]
  constructor
  · intro way
    exact way.lift Subtype.val fun _ _ adjacent => (includeGraph_adj.1 adjacent).2
  · obtain ⟨a, first⟩ := a
    obtain ⟨b, last⟩ := b
    intro connected
    change ReflTransGen _ a b at connected
    induction connected with
    | refl => exact .refl
    | @tail b c _ link ih =>
      have there : (s.document? b).isSome := link.elim Includes.left And.right
      by_cases same : b = c
      · subst same
        exact ih there
      · exact (ih there).tail (includeGraph_adj.2 ⟨fun eq => same (congrArg Subtype.val eq), link⟩)

theorem equivalence_connected (s : Snapshot) : Equivalence fun a b :
    s.Document => b.1 ∈ s.connected a.1 := by
  simp only [mem_connected_iff]
  exact ⟨fun _ => .refl, Connected.symm, ReflTransGen.trans⟩

theorem mem_connected_iff_component_eq {a b : s.Document} : b.1 ∈ s.connected a.1 ↔
    s.includeGraph.connectedComponentMk a = s.includeGraph.connectedComponentMk b := by
  rw [mem_connected_iff, SimpleGraph.ConnectedComponent.eq, reachable_includeGraph_iff]

/-- Connected documents have one class. -/
theorem connected_eq (connected : s.Connected a b) : s.connected b = s.connected a := by
  have perm : (s.connected b).Perm (s.connected a) := by
    refine (List.perm_ext_iff_of_nodup (s.nodup_connected b) (s.nodup_connected a)).2 fun x => ?_
    rw [mem_connected_iff, mem_connected_iff]
    exact ⟨connected.trans, connected.symm.trans⟩
  exact perm.eq_of_pairwise (fun _ _ _ _ => Text.le_antisymm) (s.pairwise_connected b)
    (s.pairwise_connected a)

def symbolAt? (s : Snapshot) (uri : Uri) (p : Position) : Option Name :=
  (s.module? uri).bind fun m => Name.at? m (s.offsetAt uri p)

end Snapshot

/-! ## Locations of a symbol -/

theorem Draft.inside_of_mem_names {d : Draft} (valid : d.Valid) (mem : n ∈ Draft.names 0 d) :
    0 ≤ n.span.start ∧ n.span.start < n.span.stop ∧ n.span.stop ≤ d.text.length := by
  obtain ⟨front, behind, rfl, span⟩ := Draft.exists_of_mem_names mem
  have own := (Draft.valid_name_cons.1 (Draft.valid_append.1 valid).2).1
  have length := List.length_pos_iff.2 (Draft.ne_nil_of_isValid own)
  have whole := (Draft.stop_mem_names valid mem).2
  simp only [span] at whole ⊢
  omega

namespace References

open Quill.Flow (Yields yields_done)
open Rename (named)

/-- Where the symbol `n` is named in a document of the snapshot, item by item. -/
def locationsIn (s : Snapshot) (n : Name) (uri : Uri) : List Location :=
  ((s.module? uri).map (named n)).getD [] |>.map fun other => ⟨uri, s.rangeOf uri other.span⟩

/-- The locations are those of the symbol `n` in the documents `uris`: the documents are in order,
and in each of them every item of the symbol is there once. -/
structure Lists (s : Snapshot) (n : Name) (uris : List Uri) (found : List Location) : Prop where
  sorted : found.Pairwise fun a b => Text.le a.uri b.uri
  nodup : found.Nodup
  inside : ∀ l ∈ found, l.uri ∈ uris
  items : ∀ x ∈ uris, found.filter (·.uri = x) = locationsIn s n x

theorem uri_of_mem_locationsIn {l : Location} (mem : l ∈ locationsIn s n u) : l.uri = u := by
  obtain ⟨other, -, rfl⟩ := List.mem_map.1 mem
  rfl

theorem locationsIn_congr (kind : n.kind = n'.kind) (name : n.name = n'.name) (s : Snapshot) :
    locationsIn s n = locationsIn s n' := by
  funext uri
  have same : named n = named n' := by
    funext m
    simp only [named, kind, name]
  rw [locationsIn, same, locationsIn]

theorem map_occurrencesIn (n : Name) (uri : Uri) (m : Module) :
    (n.occurrencesIn uri m).map (fun o => (o.uri, o.span)) = (named n m).map fun other =>
      (uri, other.span) := by
  simp only [Name.occurrencesIn, named]
  generalize m.items = items
  induction items with
  | nil => rfl
  | cons item items ih =>
    cases of : Name.ofItem? item with
    | none => simpa [of] using ih
    | some other =>
      by_cases same : other.kind = n.kind ∧ other.name = n.name
      · simpa [of, same] using ih
      · simpa [of, same] using ih

/-- The places of all occurrences are those in the documents one after another. -/
theorem locations_eq (s : Snapshot) (n : Name) (uris : List Uri) :
    locations s true ((s.modules uris).flatMap fun e => n.occurrencesIn e.1 e.2) =
      uris.flatMap (locationsIn s n) := by
  let place (e : Uri × Span) : Location := ⟨e.1, s.rangeOf e.1 e.2⟩
  have all (occurrences : List Occurrence) :
      locations s true occurrences = (occurrences.map fun o => (o.uri, o.span)).map place := by
    simp [locations, place, Function.comp_def]
  rw [all]
  induction uris with
  | nil => rfl
  | cons uri uris ih =>
    rw [List.flatMap_cons, ← ih]
    cases found : s.module? uri with
    | none => simp [Snapshot.modules, locationsIn, found]
    | some m =>
      have split : s.modules (uri :: uris) = (uri, m) :: s.modules uris := by
        simp [Snapshot.modules, found]
      rw [split, List.flatMap_cons, List.map_append, List.map_append, map_occurrencesIn]
      simp [locationsIn, found, place]

/-- The items of a symbol are at different places. -/
theorem nodup_locationsIn (s : Snapshot) (n : Name) (uri : Uri) : (locationsIn s n uri).Nodup := by
  cases found : s.document? uri with
  | none => simp [locationsIn, Snapshot.module?, found]
  | some doc =>
    obtain ⟨d, text_eq, valid, names_eq, -⟩ := Module.exists_draft doc.uri doc.text
    simp only [locationsIn, Snapshot.module?, found, Option.map_some, Option.getD_some,
      named, names_eq]
    refine List.pairwise_map.2 (List.Pairwise.filter _ ?_)
    refine List.Pairwise.imp_of_mem (fun {a b} mem mem' behind same => ?_)
      (Draft.pairwise_names 0 d)
    obtain ⟨nonneg, nonempty, inText⟩ := Draft.inside_of_mem_names valid mem
    obtain ⟨-, nonempty', inText'⟩ := Draft.inside_of_mem_names valid mem'
    rw [text_eq] at inText inText'
    -- names that begin at one position begin at one offset
    have position : (s.rangeOf uri a.span).start = (s.rangeOf uri b.span).start :=
      congrArg (·.range.start) same
    simp only [Snapshot.rangeOf, Rename.linesOf_eq found, LineTable.rangeOf] at position
    have reached : ((LineTable.ofText doc.text).positionAt b.span.start).le
        ((LineTable.ofText doc.text).positionAt a.span.start) := by
      rw [position]
      exact LineTable.positionAt_le (Int.le_refl _) _
    rw [LineTable.positionAt_le_iff nonneg (by omega)] at reached
    omega

/-- The locations of a symbol in some documents. -/
theorem lists_flatMap {uris : List Uri} (nodup : uris.Nodup)
    (sorted : uris.Pairwise fun a b => Text.le a b) :
    Lists s n uris (uris.flatMap (locationsIn s n)) where
  sorted := by
    refine List.pairwise_flatMap.2 ⟨fun u _ => ?_, sorted.imp fun {a b} le l mem l' mem' => ?_⟩
    · refine List.pairwise_of_forall_mem_list fun l mem l' mem' => ?_
      simp [uri_of_mem_locationsIn mem, uri_of_mem_locationsIn mem', Text.le]
    · rwa [uri_of_mem_locationsIn mem, uri_of_mem_locationsIn mem']
  nodup := by
    refine List.pairwise_flatMap.2 ⟨fun u _ => nodup_locationsIn s n u, ?_⟩
    refine nodup.imp fun {a b} other l mem l' mem' same => ?_
    rw [← uri_of_mem_locationsIn mem, ← uri_of_mem_locationsIn mem', same] at other
    exact other rfl
  inside l mem := by
    obtain ⟨u, own, mem⟩ := List.mem_flatMap.1 mem
    rwa [uri_of_mem_locationsIn mem]
  items x mem := by
    rw [EditList.filter_flatMap (fun u l mem => uri_of_mem_locationsIn mem) nodup, if_pos mem]

theorem yields_references (target : s.symbolAt? u p = some n) :
    Yields (.computed .quill) ((Question.references p true).answer s u)
      (.ok (.locations ((s.connected u).flatMap (locationsIn s n)))) := by
  refine Flow.Yields.call (Flow.yields_memo (.answer _) ?_ rfl)
  refine Flow.Yields.bind ?_ (yields_done _ _)
  refine (Snapshot.yields_parse_call s u).bind ?_
  have same : (s.module? u).bind (fun m => Name.at? m (s.offsetAt u p)) = some n := target
  simp only [same]
  refine (Snapshot.yields_occurrences s u n).bind ?_
  rw [locations_eq]
  exact yields_done _ _

/-- Being connected by inclusions is an equivalence of the documents of a snapshot, and its classes
are the connected components of their graph. The references to a symbol, its declarations included,
are the items of one class in order: they are the same from wherever in the class they are asked
for, and those from different classes are in different documents. -/
theorem answer_references (s : Snapshot) (u v : Uri) (p q : Position) (n n' : Name)
    (target : s.symbolAt? u p = some n) (target' : s.symbolAt? v q = some n')
    (kind : n.kind = n'.kind) (name : n.name = n'.name) :
    (∀ x, Yields (.computed .quill) (Answering.connected s x) (.ok (s.connected x))) ∧
    (Equivalence fun a b : s.Document => b.1 ∈ s.connected a.1) ∧
    (∀ a b : s.Document, b.1 ∈ s.connected a.1 ↔
      s.includeGraph.connectedComponentMk a = s.includeGraph.connectedComponentMk b) ∧
    ∃ found found',
      Yields (.computed .quill) ((Question.references p true).answer s u) (.ok (.locations found)) ∧
      Yields (.computed .quill) ((Question.references q true).answer s v)
        (.ok (.locations found')) ∧
      Lists s n (s.connected u) found ∧ Lists s n (s.connected v) found' ∧
      (v ∈ s.connected u → found' = found) ∧
      (v ∉ s.connected u → ∀ l ∈ found, ∀ l' ∈ found', l.uri ≠ l'.uri) := by
  have lists (x : Uri) : Lists s n (s.connected x) ((s.connected x).flatMap (locationsIn s n)) :=
    lists_flatMap (s.nodup_connected x) (s.pairwise_connected x)
  have yields' := yields_references target'
  rw [← locationsIn_congr kind name] at yields'
  refine ⟨s.yields_connected, s.equivalence_connected,
    fun _ _ => Snapshot.mem_connected_iff_component_eq, _, _,
    yields_references target, yields', lists u, lists v, fun connected =>
      ?_, fun apart l mem l' mem' same => ?_⟩
  · rw [Snapshot.connected_eq (Snapshot.mem_connected_iff.1 connected)]
  · have first := Snapshot.mem_connected_iff.1 ((lists u).inside l mem)
    have second := Snapshot.mem_connected_iff.1 ((lists v).inside l' mem')
    rw [← same] at second
    exact apart (Snapshot.mem_connected_iff.2 (first.trans second.symm))

/-- A binding that is used in an included document, beside a document of its own. -/
theorem answer_references_included :
    let doc : SnapshotDocument :=
      ⟨"/ws/a.quill", "#let v = 1\n#include \"b.quill\"\n#include \"d.quill\"", 3, "", .memory⟩
    let part : SnapshotDocument := ⟨"/ws/b.quill", "#v *and @v*\r\n<v> #v-v", 0, "", .disk⟩
    let other : SnapshotDocument := ⟨"/ws/c.quill", "#v", 1, "", .memory⟩
    let s : Snapshot :=
      ⟨.workspace, [(doc.uri, doc), (part.uri, part), (other.uri, other)], [], .default, ""⟩
    let n : Name := ⟨.binding, "v", ⟨5, 6⟩⟩
    let n' : Name := ⟨.binding, "v", ⟨1, 2⟩⟩
    let p : Position := ⟨0, 5⟩
    let q : Position := ⟨0, 1⟩
    s.symbolAt? doc.uri p = some n ∧ s.symbolAt? part.uri q = some n' ∧ n.kind = n'.kind ∧
    n.name = n'.name ∧
    (∀ x, Yields (.computed .quill) (Answering.connected s x) (.ok (s.connected x))) ∧
    (Equivalence fun a b : s.Document => b.1 ∈ s.connected a.1) ∧
    (∀ a b : s.Document, b.1 ∈ s.connected a.1 ↔
      s.includeGraph.connectedComponentMk a = s.includeGraph.connectedComponentMk b) ∧
    ∃ found found',
      Yields (.computed .quill) ((Question.references p true).answer s doc.uri)
        (.ok (.locations found)) ∧
      Yields (.computed .quill) ((Question.references q true).answer s part.uri)
        (.ok (.locations found')) ∧
      Lists s n (s.connected doc.uri) found ∧ Lists s n (s.connected part.uri) found' ∧
      (part.uri ∈ s.connected doc.uri → found' = found) ∧
      (part.uri ∉ s.connected doc.uri → ∀ l ∈ found, ∀ l' ∈ found', l.uri ≠ l'.uri) := by
  intro doc part other s n n' p q
  have target : s.symbolAt? doc.uri p = some n := by decide +kernel
  have target' : s.symbolAt? part.uri q = some n' := by decide +kernel
  exact ⟨target, target', rfl, rfl,
    answer_references s doc.uri part.uri p q n n' target target' rfl rfl⟩

end References

end Quill
