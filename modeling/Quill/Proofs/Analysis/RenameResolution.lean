import Quill.Proofs.Analysis.Rename
import Quill.Proofs.Compile.Likeness
import Quill.Proofs.Flow.Computed
import Quill.Proofs.Snapshot.Exact

/-!
# What names mean after a rename

A rename goes by names, a compile by where they stand. With a name that nobody has yet, what is
compiled afterwards is like what was compiled before, so every name means what it meant: but for the
uses of a binding of that name that had none and meant an input, whose name is not for the documents
to change.

For a compile, the documents are gathered anew. The same ones are found, because no path is a name,
as long as the scan that gathers them takes include lines as the reader does.

## Main definitions

* `Rename.Fresh` — nothing that inclusions connect has the name.
* `Supply.Edited` — what can be read once edits have been made.
* `Snapshot.Gathered` — a snapshot of a document, gathered from what can be read.
* `Rename.likeness` — what names and places become.
* `Rename.KeepsCounts` — renames leave as many diagnostics of each code.

## Main statements

* `Supply.Edited.needs_iff` — edits that leave the targets of documents leave what has to be read.
* `Rename.compile_rename` — compiles before and after a rename.
* `Rename.not_compile_rename` — what becomes of inputs, and of include lines that are none.
-/

namespace Quill

open List (Forall₂)
open Quill.Flow (Yields yields_done)

noncomputable def Module.draft (uri : Uri) (t : Text) : Draft := (Module.exists_draft uri t).choose

theorem Module.draft_spec (uri : Uri) (t : Text) : (draft uri t).text = t ∧ (draft uri t).Valid ∧
    (read uri t).items.filterMap Name.ofItem? = (draft uri t).names 0 ∧
    (∀ ρ, (read uri t).Renamed ρ ((draft uri t).Place ρ) (read uri ((draft uri t).rename ρ).text)) ∧
    ((∀ l ∈ t.lines, Includes.Agrees l.content) →
      ∀ ρ, Includes.targets uri ((draft uri t).rename ρ).text = Includes.targets uri t) :=
  (exists_draft uri t).choose_spec

/-! ## Gathering anew -/

namespace Supply

variable {l l' : Supply} {edits : List DocumentEdit} {roots : List Uri} {x : Uri}
  {d d' : SnapshotDocument}

/-- The edits have been made in whatever can be read, be it open or a file, and nothing else has
come or gone. Versions may have changed. -/
structure Edited (edits : List DocumentEdit) (l l' : Supply) : Prop where
  text : ∀ x, (l'.answer? x).map SnapshotDocument.text =
    (l.answer? x).map fun d => EditList.carryOut edits x d.text

theorem Edited.isSome_answer? (edited : l.Edited edits l') (x : Uri) :
    (l'.answer? x).isSome = (l.answer? x).isSome := by
  simpa using congrArg Option.isSome (edited.text x)

theorem Edited.text_eq (edited : l.Edited edits l') (there : l.answer? x = some d)
    (there' : l'.answer? x = some d') : d'.text = EditList.carryOut edits x d.text := by
  simpa [there, there'] using edited.text x

/-- Edits that leave the targets of what has to be read leave what has to be read. -/
theorem Edited.needs_iff (edited : l.Edited edits l')
    (same : ∀ {x d}, l.Needs roots x → l.answer? x = some d →
      l'.scan x (EditList.carryOut edits x d.text) = l.scan x d.text) :
    l'.Needs roots x ↔ l.Needs roots x := by
  constructor
  · intro needed
    induction needed with
    | root mem => exact .root mem
    | @target uri d' x _ there' mem ih =>
      obtain ⟨d, there⟩ : ∃ d, l.answer? uri = some d :=
        Option.isSome_iff_exists.1 ((edited.isSome_answer? uri).symm.trans (by simp [there']))
      rw [edited.text_eq there there', same ih there] at mem
      exact .target ih there mem
  · intro needed
    induction needed with
    | root mem => exact .root mem
    | @target uri d x needed there mem ih =>
      obtain ⟨d', there'⟩ : ∃ d', l'.answer? uri = some d' :=
        Option.isSome_iff_exists.1 ((edited.isSome_answer? uri).trans (by simp [there]))
      refine .target ih there' ?_
      rwa [edited.text_eq there there', same needed there]

/-- The compiler of the language finds the targets that the scan finds. -/
theorem scan_eq (quill : l.compiler = .quill) (x : Uri) (t : Text) :
    l.scan x t = Includes.targets x t := by
  have scans := l.scans x t
  rw [quill] at scans
  exact (Except.ok.inj scans).symm

end Supply

namespace Snapshot

variable {s t t' : Snapshot} {l l' : Supply} {entry : Uri} {d : SnapshotDocument} {x : Uri}

structure Gathered (t : Snapshot) (l : Supply) (entry : Uri) : Prop where
  compiler : l.compiler = .quill
  scope : t.scope = .document entry
  exact : ∃ loads, t.Exact l [entry] loads

theorem Gathered.filed (gathered : t.Gathered l entry) : t.Filed :=
  have ⟨_, exact⟩ := gathered.exact
  ⟨exact.keyed, exact.nodup⟩

theorem Gathered.document?_eq_some_iff (gathered : t.Gathered l entry) :
    t.document? x = some d ↔ l.Needs [entry] x ∧ l.answer? x = some d :=
  have ⟨_, exact⟩ := gathered.exact
  exact.document?_eq_some_iff

theorem Gathered.isSome_document? (gathered : t.Gathered l entry) :
    (t.document? x).isSome ↔ l.Needs [entry] x ∧ (l.answer? x).isSome := by
  simp only [Option.isSome_iff_exists, gathered.document?_eq_some_iff, exists_and_left]

def Part (t s : Snapshot) : Prop := ∀ {uri d}, t.document? uri = some d → s.document? uri = some d

/-- The scan for includes takes the lines of all documents as the reader does. -/
def Agrees (t : Snapshot) : Prop :=
  ∀ {uri d}, t.document? uri = some d → ∀ l ∈ d.text.lines, Includes.Agrees l.content

theorem Gathered.connected (gathered : t.Gathered l entry) (part : t.Part s) (agrees : t.Agrees)
    (needed : l.Needs [entry] x) (there : (l.answer? x).isSome) : s.Connected entry x := by
  induction needed with
  | root mem => exact List.mem_singleton.1 mem ▸ .refl
  | @target uri d x needed found mem ih =>
    have inside := gathered.document?_eq_some_iff.2 ⟨needed, found⟩
    obtain ⟨d', inside'⟩ :=
      Option.isSome_iff_exists.1 (gathered.isSome_document?.2 ⟨.target needed found mem, there⟩)
    rw [Supply.scan_eq gathered.compiler, Includes.targets_eq_of_agrees uri (agrees inside),
      List.mem_eraseDups] at mem
    obtain ⟨i, included, rfl⟩ := List.mem_map.1 mem
    refine (ih (by simp [found])).tail (.inl ⟨⟨Module.read uri d.text, ?_, i, included, rfl⟩, ?_⟩)
    · rw [module?, part inside, Option.map_some, Supply.uri_answer? found]
    · rw [part inside']
      rfl

end Snapshot

namespace Rename

variable {s t t' : Snapshot} {l l' : Supply} {n : Name} {newName : Text} {uri entry x : Uri}
  {d : SnapshotDocument} {ρ : Renaming}
  {R : Int → Int → Prop} {m m' : Module} {L : Likeness} {edits : List DocumentEdit}

/-- Nothing in the documents that inclusions connect with `uri` has the name. -/
def Fresh (s : Snapshot) (uri : Uri) (newName : Text) : Prop :=
  ∀ x d, s.Connected uri x → s.document? x = some d →
    ∀ other ∈ (Module.read d.uri d.text).items.filterMap Name.ofItem?, other.name ≠ newName

/-- A use named as the renamed binding means that binding, unless it means an input. -/
def isLost (n : Name) (name : Text) : Bool := NameKind.binding = n.kind ∧ name = n.name

noncomputable def likeness (s : Snapshot) (renames : Renames n newName ρ) : Likeness where
  name kind a a' := a' = ρ.apply kind a ∧ a ≠ newName
  place uri o o' := ∃ d, s.document? uri = some d ∧ (Module.draft d.uri d.text).Place ρ o o'
  name_eq_iff := by
    rintro kind a _ b _ ⟨rfl, other⟩ ⟨rfl, other'⟩
    rw [renames, renames]
    grind
  place_le_iff := by
    rintro uri o o' p p' ⟨d, found, place⟩ ⟨d', found', place'⟩
    obtain rfl : d = d' := Option.some.inj (found.symm.trans found')
    exact place.le_iff (Module.draft_spec d.uri d.text).2.1 place'

theorem name_likeness {renames : Renames n newName ρ} {kind : NameKind} {a a' : Text}
    (h : (likeness s renames).name kind a a') :
    a' = if kind = n.kind ∧ a = n.name then newName else a :=
  h.1.trans (renames kind a)

theorem place_likeness {renames : Renames n newName ρ}
    {o o' : Int} (h : (likeness s renames).place uri o o') :
    ∃ m, s.module? uri = some m ∧ o' = moved n newName m o := by
  obtain ⟨d, found, place⟩ := h
  obtain ⟨-, valid, names_eq, -⟩ := Module.draft_spec d.uri d.text
  refine ⟨_, by rw [Snapshot.module?, found]; rfl, ?_⟩
  rw [place.shift valid renames, moved, named, names_eq, List.countP_filter]
  simp only [Bool.decide_and, Bool.and_comm]

/-! ## Worlds -/

theorem sameMark {kind : NameKind} {mark mark' : Mark}
    (same : mark.Renamed (ρ.apply kind) R mark')
    (name : L.name kind mark.name (ρ.apply kind mark.name))
    (place : ∀ o o', R o o' → L.place x o o') : L.SameMark kind x mark mark' :=
  ⟨same.name ▸ name, same.span.mono place, same.nameSpan.mono place⟩

/-- Documents with other names are alike if nothing has the new name. -/
theorem sameModule (renamed : m.Renamed ρ R m')
    (name : ∀ other ∈ m.items.filterMap Name.ofItem?,
      L.name other.kind other.name (ρ.apply other.kind other.name))
    (place : ∀ o o', R o o' → L.place x o o') : L.SameModule x m m' := by
  refine ⟨?_, renamed.errors.imp fun e e' => SyntaxError.Moved.mono place⟩
  have items := renamed.items
  generalize m.items = list, m'.items = list' at items name
  induction items with
  | nil => exact .nil
  | @cons item item' list list' first rest ih =>
    refine .cons ?_ (ih fun other mem => name other ?_)
    · have own {other : Name} (eq : Name.ofItem? item = some other) := name other (by simp [eq])
      cases first with
      | heading same => exact .heading _ _
      | label same => exact .label (sameMark same (own rfl) place)
      | reference same => exact .reference (sameMark same (own rfl) place)
      | use same => exact .use (sameMark same (own rfl) place)
      | binding same =>
        exact .binding ⟨same.name ▸ own rfl, same.span.mono place, same.nameSpan.mono place,
          same.valueSpan.mono place⟩
      | inclusion same =>
        exact .inclusion ⟨same.specifier, same.target, same.span.mono place,
          same.pathSpan.mono place⟩
    · obtain ⟨item, mem, eq⟩ := List.mem_filterMap.1 mem
      exact List.mem_filterMap.2 ⟨item, List.mem_cons_of_mem _ mem, eq⟩

/-- The edits of a rename leave the targets of a document that the scan takes as the reader does. -/
theorem targets_carryOut (renames : Renames n newName ρ) (found : s.document? x = some d)
    (connected : s.Connected uri x) (agrees : ∀ l ∈ d.text.lines, Includes.Agrees l.content) :
    Includes.targets d.uri
      (EditList.carryOut ((s.connected uri).flatMap (editsOf s n newName)) x d.text) =
      Includes.targets d.uri d.text := by
  obtain ⟨text_eq, valid, names_eq, -, targets⟩ := Module.draft_spec d.uri d.text
  rw [carryOut_draft renames found connected text_eq valid names_eq, targets agrees]

section Regathered

variable {d' : SnapshotDocument} (renames : Renames n newName ρ)
  (edited : l.Edited ((s.connected uri).flatMap (editsOf s n newName)) l')
  (gathered : t.Gathered l entry) (gathered' : t'.Gathered l' entry)
  (part : t.Part s) (connected : s.Connected uri entry) (agrees : t.Agrees)

include renames edited gathered gathered' part

theorem module_sourceOf (inside : s.Connected uri x) (found : t.document? x = some d)
    (found' : t'.document? x = some d') : (Snapshot.sourceOf d').module =
      Module.read d.uri ((Module.draft d.uri d.text).rename ρ).text := by
  obtain ⟨text_eq, valid, names_eq, -⟩ := Module.draft_spec d.uri d.text
  have uri_eq : d'.uri = d.uri :=
    (gathered'.filed.uri_eq found').trans (gathered.filed.uri_eq found).symm
  have after := carryOut_draft renames (part found) inside text_eq valid names_eq
  rw [← edited.text_eq (gathered.document?_eq_some_iff.1 found).2
    (gathered'.document?_eq_some_iff.1 found').2] at after
  rw [Snapshot.sourceOf, uri_eq, after]

include connected agrees

/-- The same documents have to be read. -/
theorem needs_iff : l'.Needs [entry] x ↔ l.Needs [entry] x := by
  refine edited.needs_iff fun {x d} needed there => ?_
  have inside := gathered.document?_eq_some_iff.2 ⟨needed, there⟩
  obtain rfl := Supply.uri_answer? there
  rw [Supply.scan_eq gathered.compiler, Supply.scan_eq gathered'.compiler]
  exact targets_carryOut renames (part inside)
    (connected.trans (gathered.connected part agrees needed (by simp [there]))) (agrees inside)

theorem isSome_document?_eq (x : Uri) : (t'.document? x).isSome = (t.document? x).isSome := by
  rw [Bool.eq_iff_iff, gathered.isSome_document?, gathered'.isSome_document?,
    needs_iff renames edited gathered gathered' part connected agrees, edited.isSome_answer?]

theorem keys_perm : (Dict.keys t'.documents).Perm (Dict.keys t.documents) := by
  refine (List.perm_ext_iff_of_nodup gathered'.filed.nodup gathered.filed.nodup).2 fun x => ?_
  rw [Dict.mem_keys_iff, Dict.mem_keys_iff]
  exact Bool.eq_iff_iff.1
    (isSome_document?_eq renames edited gathered gathered' part connected agrees x)

/-- The world of a compile afterwards is like the one before. -/
theorem sameWorld (fresh : Fresh s uri newName) (settings : t'.settings = t.settings) :
    (likeness s renames).SameWorld (s.Connected uri) (t.world entry) (t'.world entry) := by
  have filed := gathered.filed
  have filed' := gathered'.filed
  have keys := keys_perm renames edited gathered gathered' part connected agrees
  refine ⟨rfl, settings, ?_, fun u => ?_, connected, ?_, ?_⟩
  · rw [Snapshot.sources_world filed, Snapshot.sources_world filed', List.length_map,
      List.length_map]
    simpa [Dict.keys] using keys.length_eq
  · rw [Snapshot.source?_world filed, Snapshot.source?_world filed', Option.isSome_map,
      Option.isSome_map,
      isSome_document?_eq renames edited gathered gathered' part connected agrees]
  · intro u src i inside source mem there
    rw [Snapshot.source?_world filed] at source there
    obtain ⟨d, found, rfl⟩ := Option.map_eq_some_iff.1 source
    obtain ⟨d', found'⟩ := Option.isSome_iff_exists.1 (Option.isSome_map.symm.trans there)
    refine inside.tail (.inl ⟨⟨Module.read d.uri d.text, ?_, i, ?_, rfl⟩, ?_⟩)
    · rw [Snapshot.module?, part found]
      rfl
    · exact List.mem_filterMap.2 ⟨_, mem, rfl⟩
    · rw [part found']
      rfl
  · intro u src src' inside source source'
    rw [Snapshot.source?_world filed] at source
    rw [Snapshot.source?_world filed'] at source'
    obtain ⟨d, found, rfl⟩ := Option.map_eq_some_iff.1 source
    obtain ⟨d', found', rfl⟩ := Option.map_eq_some_iff.1 source'
    obtain ⟨-, -, -, renamed, -⟩ := Module.draft_spec d.uri d.text
    rw [module_sourceOf renames edited gathered gathered' part inside found found']
    exact sameModule (renamed ρ) (fun other mem => ⟨rfl, fresh u d inside (part found) other mem⟩)
      fun o o' place => ⟨d, part found, place⟩

end Regathered

/-- An answer to a rename to a fresh name, and compiles of any document that inclusions connect with
the one of the symbol, gathered before and after the edits have been made: they come to the same,
with the other name in other places, but for the uses that meant an input of the old name. -/
theorem compile_rename (s : Snapshot) (uri : Uri) (doc : SnapshotDocument) (p : Position) (n : Name)
    (newName : Text) (found : s.document? uri = some doc)
    (target : Name.at? (Module.read doc.uri doc.text) (s.offsetAt uri p) = some n)
    (valid : Identifier.isValid newName) (allowed : refuses n newName = false)
    (fresh : Fresh s uri newName) :
    ∃ (edits : List DocumentEdit) (L : Likeness),
      Yields (.computed .quill) ((Question.rename p newName).answer s uri)
        (.ok (.rename (some edits))) ∧
      (∀ {kind a a'}, L.name kind a a' → a' = if kind = n.kind ∧ a = n.name then newName else a) ∧
      (∀ {x o o'}, L.place x o o' → ∃ m, s.module? x = some m ∧ o' = moved n newName m o) ∧
      ∀ (l l' : Supply) (t t' : Snapshot) (entry : Uri), l.Edited edits l' →
        t.Gathered l entry → t'.Gathered l' entry → t'.settings = t.settings →
        t.Part s → (t.document? entry).isSome → s.Connected uri entry → t.Agrees →
        Dict.get? t.settings.inputs newName = none →
        ∃ before after, Yields (.computed .quill) t.compile (.ok (.ok before)) ∧
          Yields (.computed .quill) t'.compile (.ok (.ok after)) ∧
          L.SameCompiled (isLost n) before after := by
  obtain ⟨ρ, renames⟩ := exists_renames valid allowed
  refine ⟨_, likeness s renames, yields_rename p found target valid allowed, name_likeness,
    place_likeness, ?_⟩
  intro l l' t t' entry edited gathered gathered' settings part there connected agrees free
  have same := sameWorld renames edited gathered gathered' part connected agrees fresh settings
  refine ⟨_, _, Snapshot.yields_compile (by rw [gathered.scope]; rfl) gathered.filed there, ?_,
    same.compile ?_⟩
  · refine Snapshot.yields_compile (by rw [gathered'.scope]; rfl) gathered'.filed ?_
    have present := same.present entry
    rw [Snapshot.source?_world gathered.filed, Snapshot.source?_world gathered'.filed,
      Option.isSome_map, Option.isSome_map] at present
    exact present.trans there
  · rintro a _ ⟨rfl, -⟩
    rw [renames, isLost]
    by_cases own : NameKind.binding = n.kind ∧ a = n.name
    · rw [if_pos own, if_pos (decide_eq_true own)]
      exact free
    · rw [if_neg own, if_neg (mt of_decide_eq_true own)]

/-! ### An open document and files beside it -/

def main : Uri := "/ws/a.quill"

def openBeside (t : Text) (files : Dict Uri Text) : Supply where
  digest := ⟨id⟩
  store := { documents := [(main, ⟨t, 3, "quill", none⟩)] }
  files := Dict.get? files
  compiler := .quill
  scan := Includes.targets
  scans := Compiler.targets_quill

/-- The open document and a file that has been found from it. -/
def gather (t : Text) (part : Uri) (t' : Text) (inputs : Dict Text Text) : Snapshot where
  scope := .document main
  documents := [(main, .ofOpen ⟨id⟩ main ⟨t, 3, "quill", none⟩), (part, .ofFile ⟨id⟩ part t')]
  missing := []
  settings := ⟨inputs, "default"⟩
  fingerprint := ""

section Beside

variable {u u' v v' : Text} {files files' : Dict Uri Text} {part : Uri} {inputs : Dict Text Text}

theorem answer?_openBeside (x : Uri) : (openBeside u files).answer? x =
    if main = x then some (.ofOpen ⟨id⟩ main ⟨u, 3, "quill", none⟩)
    else (Dict.get? files x).map (.ofFile ⟨id⟩ x) := by
  by_cases first : main = x <;> simp [Supply.answer?, openBeside, Dict.get?, first]

theorem document?_gather (x : Uri) : (gather u part v inputs).document? x =
    if main = x then some (.ofOpen ⟨id⟩ main ⟨u, 3, "quill", none⟩)
    else if part = x then some (.ofFile ⟨id⟩ part v) else none := rfl

theorem settings_gather {part' : Uri} :
    (gather u' part' v' inputs).settings = (gather u part v inputs).settings := rfl

theorem edited_openBeside {edits : List DocumentEdit} (first : EditList.carryOut edits main u = u')
    (second : files.map (fun e => (e.1, EditList.carryOut edits e.1 e.2)) = files') :
    (openBeside u files).Edited edits (openBeside u' files') where
  text x := by
    have beside := Dict.get?_map (fun e => EditList.carryOut edits e.1 e.2) files x
    rw [second] at beside
    rw [answer?_openBeside, answer?_openBeside, beside]
    by_cases isMain : main = x
    · simp [isMain, ← first, SnapshotDocument.ofOpen]
    · simp [isMain, SnapshotDocument.ofFile, Function.comp_def]

variable (apart : main ≠ part) (there : Dict.get? files part = some v)
  (target : Includes.targets main u = [part]) (last : Includes.targets part v = [])

include apart there target last

theorem needs_openBeside : (openBeside u files).Needs [main] x ↔ x = main ∨ x = part := by
  have first : (openBeside u files).Needs [main] main := .root (by simp)
  constructor
  · intro needed
    induction needed with
    | root mem => exact .inl (List.mem_singleton.1 mem)
    | @target uri d x _ found mem ih =>
      change x ∈ Includes.targets uri d.text at mem
      rw [answer?_openBeside] at found
      rcases ih with rfl | rfl
      · obtain rfl := Option.some.inj ((if_pos rfl).symm.trans found)
        exact .inr (List.mem_singleton.1 (target ▸ mem))
      · rw [if_neg apart, there] at found
        obtain rfl := Option.some.inj found
        simp [SnapshotDocument.ofFile, last] at mem
  · rintro (rfl | rfl)
    · exact first
    · refine .target first ((answer?_openBeside main).trans (if_pos rfl)) ?_
      change x ∈ Includes.targets main u
      simp [target]

theorem gathered_gather : (gather u part v inputs).Gathered (openBeside u files) main := by
  have needs {x : Uri} := needs_openBeside apart there target last (x := x)
  have has (x : Uri) : (openBeside u files).store.has x = decide (x = main) := by
    by_cases isIt : main = x <;>
      simp [openBeside, Store.has, Dict.has, Dict.get?, isIt, eq_comm (a := x)]
  have uris : ((gather u part v inputs).readSet.map (·.uri)).Perm [main, part] := by
    have sorted := (Text.sortOn_perm SnapshotDocument.uri
        (Dict.values (gather u part v inputs).documents)).map
      SnapshotDocument.uri
    simpa [Snapshot.readSet, Snapshot.ordered, gather, Function.comp_def,
      SnapshotDocument.readEntry,
      Dict.values, SnapshotDocument.ofOpen, SnapshotDocument.ofFile] using sorted
  refine ⟨rfl, rfl, [part], ?_⟩
  constructor
  case keyed => simp [gather, SnapshotDocument.ofOpen, SnapshotDocument.ofFile]
  case nodup => simp [gather, Dict.keys, apart]
  case needed =>
    intro x
    rw [needs, ← Dict.mem_keys_iff]
    simp [gather, Dict.keys]
  case disjoint => simp [gather]
  case memory =>
    intro x needed doc isOpen
    have isMain : main = x := by
      simpa [Store.has, Dict.has, isOpen, eq_comm] using has x
    subst isMain
    obtain rfl := Option.some.inj isOpen
    rfl
  case disk =>
    intro x needed isClosed t file
    rcases needs.1 needed with rfl | rfl
    · simp [has] at isClosed
    · obtain rfl := Option.some.inj (there.symm.trans file)
      rw [document?_gather, if_neg apart, if_pos rfl]
      rfl
  case missing =>
    intro x needed isClosed none
    rcases needs.1 needed with rfl | rfl
    · simp [has] at isClosed
    · exact absurd (there.symm.trans none) (by simp)
  case loads_nodup => simp
  case mem_loads =>
    intro x
    rw [needs, has]
    grind
  case readSet_nodup => exact uris.nodup_iff.2 (by simp [apart])
  case mem_readSet =>
    intro x
    rw [needs, uris.mem_iff]
    simp

end Beside

theorem fresh_of_forall (filed : t.Filed) (other : ∀ e ∈ t.documents,
    ∀ other ∈ (Module.read e.2.uri e.2.text).items.filterMap Name.ofItem?, other.name ≠ newName) :
    Fresh { t with scope := .workspace } uri newName :=
  fun _ _ _ found => other _ ((Dict.get?_eq_some_iff filed.nodup).1 found)

theorem eq_of_yields_rename {p : Position} (found : s.document? uri = some d)
    (target : Name.at? (Module.read d.uri d.text) (s.offsetAt uri p) = some n)
    (valid : Identifier.isValid newName) (allowed : refuses n newName = false)
    (answer : Yields (.computed .quill) ((Question.rename p newName).answer s uri)
      (.ok (.rename (some edits)))) : edits = (s.connected uri).flatMap (editsOf s n newName) := by
  have same := answer.ensures.of_canEnd (yields_rename p found target valid allowed).canEnd
  simpa [eq_comm] using same

/-- A binding with the name of an input, which the use in front of it means. -/
theorem compile_rename_included :
    let part : Uri := "/ws/b.quill"
    let u : Text := "#v #let\n#let v = @a\n#include \"b.quill\"\n#v"
    let v : Text := "#v *and @v*\n<v> #v-v #w"
    let u' : Text := "#let-1 #let\n#let let-1 = @a\n#include \"b.quill\"\n#let-1"
    let v' : Text := "#let-1 *and @v*\n<v> #v-v #w"
    let inputs : Dict Text Text := [("v", "0"), ("w", "2")]
    let l := openBeside u [(part, v)]
    let l' := openBeside u' [(part, v')]
    let t := gather u part v inputs
    let t' := gather u' part v' inputs
    let s : Snapshot := { t with scope := .workspace }
    let doc : SnapshotDocument := .ofOpen ⟨id⟩ main ⟨u, 3, "quill", none⟩
    let n : Name := ⟨.binding, "v", ⟨13, 14⟩⟩
    let p : Position := ⟨1, 5⟩
    let newName : Text := "let-1"
    s.document? main = some doc ∧
      Name.at? (Module.read doc.uri doc.text) (s.offsetAt main p) = some n ∧
      Identifier.isValid newName ∧ refuses n newName = false ∧ Fresh s main newName ∧
      ∃ (edits : List DocumentEdit) (L : Likeness),
        Yields (.computed .quill) ((Question.rename p newName).answer s main)
          (.ok (.rename (some edits))) ∧
        (∀ {kind a a'}, L.name kind a a' → a' = if kind = n.kind ∧ a = n.name then newName else a) ∧
        (∀ {x o o'}, L.place x o o' → ∃ m, s.module? x = some m ∧ o' = moved n newName m o) ∧
        l.Edited edits l' ∧ t.Gathered l main ∧ t'.Gathered l' main ∧ t.Part s ∧ t.Agrees ∧
        ∃ before after, Yields (.computed .quill) t.compile (.ok (.ok before)) ∧
          Yields (.computed .quill) t'.compile (.ok (.ok after)) ∧
          L.SameCompiled (isLost n) before after := by
  intro part u v u' v' inputs l l' t t' s doc n p newName
  have found : s.document? main = some doc := rfl
  have target : Name.at? (Module.read doc.uri doc.text) (s.offsetAt main p) = some n := by
    decide +kernel
  have valid : Identifier.isValid newName := by decide +kernel
  have allowed : refuses n newName = false := by decide +kernel
  have gathered : t.Gathered l main :=
    gathered_gather (by decide) rfl (by decide +kernel) (by decide +kernel)
  have gathered' : t'.Gathered l' main :=
    gathered_gather (by decide) rfl (by decide +kernel) (by decide +kernel)
  have agree : ∀ e ∈ t.documents, ∀ l ∈ e.2.text.lines, Includes.Agrees l.content := by
    decide +kernel
  have agrees : t.Agrees := fun {x d} found =>
    agree _ ((Dict.get?_eq_some_iff gathered.filed.nodup).1 found)
  have fresh : Fresh s main newName :=
    fresh_of_forall gathered.filed (by decide +kernel)
  obtain ⟨edits, L, answer, name, place, compile⟩ :=
    compile_rename s main doc p n newName found target valid allowed fresh
  have edits_eq := eq_of_yields_rename found target valid allowed answer
  have edited : l.Edited edits l' :=
    edited_openBeside (by rw [edits_eq]; decide +kernel) (by rw [edits_eq]; decide +kernel)
  exact ⟨found, target, valid, allowed, fresh, edits, L, answer, name, place, edited, gathered,
    gathered', id, agrees, compile _ _ t t' main edited gathered gathered' settings_gather id
      (by decide +kernel) .refl agrees (by decide +kernel)⟩

def SameCounts (e e' : Uri × List Diagnostic) : Prop :=
  e'.1 = e.1 ∧ ∀ code : Text, e'.2.countP (·.code = code) = e.2.countP (·.code = code)

/-- Renames to fresh names leave every file as many diagnostics of each code as it had, if `P` holds
of what is compiled before. -/
def KeepsCounts (P : Snapshot → Prop) : Prop :=
  ∀ (s : Snapshot) (uri : Uri) (doc : SnapshotDocument) (p : Position) (n : Name)
    (newName : Text), s.scope = .workspace → s.document? uri = some doc →
    Name.at? (Module.read doc.uri doc.text) (s.offsetAt uri p) = some n →
    Identifier.isValid newName → refuses n newName = false → Fresh s uri newName →
    ∃ edits : List DocumentEdit,
      Yields (.computed .quill) ((Question.rename p newName).answer s uri)
        (.ok (.rename (some edits))) ∧
      ∀ (l l' : Supply) (t t' : Snapshot) (entry : Uri), l.Edited edits l' →
        t.Gathered l entry → t'.Gathered l' entry → t'.settings = t.settings →
        t.Part s → (t.document? entry).isSome → s.Connected uri entry →
        Dict.get? t.settings.inputs newName = none → P t →
        ∃ before after, Yields (.computed .quill) t.compile (.ok (.ok before)) ∧
          Yields (.computed .quill) t'.compile (.ok (.ok after)) ∧
          Forall₂ SameCounts before.diagnostics after.diagnostics

/-- What it says of a rename in a snapshot of a document and compiles of that document. -/
theorem KeepsCounts.counts {P : Snapshot → Prop} (keeps : KeepsCounts P) (n : Name)
    (newName : Text) (p : Position) (gathered : t.Gathered l entry)
    (gathered' : t'.Gathered l' entry) (found : t.document? entry = some d)
    (target : Name.at? (Module.read d.uri d.text) (t.offsetAt entry p) = some n)
    (valid : Identifier.isValid newName) (allowed : refuses n newName = false)
    (fresh : Fresh { t with scope := .workspace } entry newName)
    (edited : l.Edited (({ t with scope := .workspace } : Snapshot).connected entry |>.flatMap
      (editsOf { t with scope := .workspace } n newName)) l')
    (settings : t'.settings = t.settings) (there' : (t'.document? entry).isSome)
    (free : Dict.get? t.settings.inputs newName = none) (holds : P t) :
    Forall₂ SameCounts (t.world entry).compile.diagnostics
      (t'.world entry).compile.diagnostics := by
  obtain ⟨edits, answer, compile⟩ :=
    keeps { t with scope := .workspace } entry d p n newName rfl found target valid allowed fresh
  obtain rfl := eq_of_yields_rename found target valid allowed answer
  have there : (t.document? entry).isSome := by simp [found]
  obtain ⟨before, after, yields, yields', counts⟩ :=
    compile l l' t t' entry edited gathered gathered' settings id there .refl free holds
  obtain rfl : (t.world entry).compile = before := by
    simpa using yields.ensures.of_canEnd
      (Snapshot.yields_compile (by rw [gathered.scope]; rfl) gathered.filed there).canEnd
  obtain rfl : (t'.world entry).compile = after := by
    simpa using yields'.ensures.of_canEnd
      (Snapshot.yields_compile (by rw [gathered'.scope]; rfl) gathered'.filed there').canEnd
  exact counts

/-- A use that means an input means nothing once it has another name, and a name in what only the
scan takes for an include line says which file is there for what only the reader takes for one. -/
theorem not_compile_rename :
    ¬ KeepsCounts Snapshot.Agrees ∧ ¬ KeepsCounts fun t => t.settings.inputs = [] := by
  refine ⟨fun keeps => ?_, fun keeps => ?_⟩
  · let part : Uri := "/ws/b.quill"
    let u : Text := "#include \"b.quill\"\n#x"
    let u' : Text := "#include \"b.quill\"\n#y"
    let inputs : Dict Text Text := [("x", "1")]
    let t := gather u part [] inputs
    let t' := gather u' part [] inputs
    have gathered : t.Gathered (openBeside u [(part, [])]) main :=
      gathered_gather (by decide) rfl (by decide +kernel) (by decide +kernel)
    have gathered' : t'.Gathered (openBeside u' [(part, [])]) main :=
      gathered_gather (by decide) rfl (by decide +kernel) (by decide +kernel)
    have agree : ∀ e ∈ t.documents, ∀ l ∈ e.2.text.lines, Includes.Agrees l.content := by
      decide +kernel
    have agrees : t.Agrees := fun {x d} found =>
      agree _ ((Dict.get?_eq_some_iff gathered.filed.nodup).1 found)
    have fresh : Fresh { t with scope := .workspace } main "y" :=
      fresh_of_forall gathered.filed (by decide +kernel)
    have counts := keeps.counts ⟨.binding, "x", ⟨20, 21⟩⟩ "y" ⟨1, 1⟩ gathered gathered' rfl
      (by decide +kernel) (by decide +kernel) (by decide +kernel) fresh
      (edited_openBeside (by decide +kernel) (by decide +kernel)) settings_gather
      (by decide +kernel) (by decide +kernel) agrees
    have quiet : (t.world main).compile.diagnostics = [(main, []), (part, [])] := by
      decide +kernel
    have loud : (t'.world main).compile.diagnostics =
        [(main, [.ofFinding (.unknownVariable "y") ⟨⟨1, 0⟩, ⟨1, 2⟩⟩ []]), (part, [])] := by
      decide +kernel
    rw [quiet, loud] at counts
    obtain ⟨-, count⟩ := (List.forall₂_cons.1 counts).1
    exact absurd (count "unknown-variable") (by decide +kernel)
  · let u : Text := "a\u2028#include \"@x\"\n#include\"@x\""
    let u' : Text := "a\u2028#include \"@y\"\n#include\"@x\""
    let files : Dict Uri Text := [("/ws/@x", []), ("/ws/@y", [])]
    let t := gather u "/ws/@x" [] []
    let t' := gather u' "/ws/@y" [] []
    have gathered : t.Gathered (openBeside u files) main :=
      gathered_gather (by decide) rfl (by decide +kernel) (by decide +kernel)
    have gathered' : t'.Gathered (openBeside u' files) main :=
      gathered_gather (by decide) rfl (by decide +kernel) (by decide +kernel)
    have fresh : Fresh { t with scope := .workspace } main "y" :=
      fresh_of_forall gathered.filed (by decide +kernel)
    have counts := keeps.counts ⟨.label, "x", ⟨13, 14⟩⟩ "y" ⟨0, 13⟩ gathered gathered' rfl
      (by decide +kernel) (by decide +kernel) (by decide +kernel) fresh
      (edited_openBeside (by decide +kernel) (by decide +kernel)) settings_gather
      (by decide +kernel) rfl rfl
    have two : (t.world main).compile.diagnostics.length = 2 := by decide +kernel
    have one : (t'.world main).compile.diagnostics.length = 1 := by decide +kernel
    rw [counts.length_eq, one] at two
    exact absurd two (by decide)

end Rename

end Quill
