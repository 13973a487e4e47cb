import Quill.Data.Dict
import Quill.Engine.Trace
import Quill.Failure
import Quill.Text.Lines
import Quill.Text.Order
import Quill.Value.Basic

/-!
# The store of open documents

The store has the authoritative text and version of every open document. The client changes a
document by replacing its text or a range of it; changes are made one after another, each to the
text that the one before it left. Each successful operation yields one event, which everyone else
hears of before the operation returns.

## Main definitions

* `ContentChange` — a change; `ContentChange.ofValue` reads one from a message.
* `OpenDocument`, `Store` — an open document, and all of them.
* `TextLibrary` — what changes texts, with `TextLibrary.IsLawful`, what is relied on.
* `TextLibrary.lineByLine`, `TextLibrary.incremental` — a library that looks for the lines before
  each change, with which engines are run, and one that keeps them.
* `StoreEvent` — what became of a document.
* `Store.open`, `Store.edit`, `Store.close` — the operations; versions never go back.
* `Store.snapshotOf`, `Store.versionOf`, `Store.all` — the read side.
-/

namespace Quill

/-! ## Changes of a text -/

inductive ContentChange where
  | full (text : Text)
  | ranged (range : Range) (text : Text)
  | malformed
  deriving DecidableEq, Repr

namespace ContentChange

/-- A column or line of a message: a number rounded down. -/
def coordinate (v : Value) : Int := (v.number?.bind Number.floor?).getD 0

def position (v : Value) : Position :=
  ⟨coordinate (v.field "line"), coordinate (v.field "character")⟩

/-- A change of a message. A full change has a text alone; with a range there may be the old length,
which must be a number and is ignored. -/
def ofValue (v : Value) : ContentChange :=
  match (v.field "text").text?, v.field? "range", v.field? "rangeLength" with
  | some t, none, none => full t
  | some t, some r, none => ranged ⟨position (r.field "start"), position (r.field "end")⟩ t
  | some t, some r, some (.number _) =>
      ranged ⟨position (r.field "start"), position (r.field "end")⟩ t
  | _, _, _ => malformed

end ContentChange

/-! ## Open documents -/

/-- An open document, as the library that changes its text keeps it. -/
structure OpenDocument where
  text : Text
  version : Int
  language : Text
  /-- Where the lines start, once the library has looked. -/
  lineStarts : Option (List Nat) := none
  deriving DecidableEq, Repr

def Store.malformedChange : Failure := .error "Unknown change event received"

structure TextLibrary where
  /-- What one change makes of a document; none if the library does not know such a change. -/
  change? : OpenDocument → ContentChange → Option OpenDocument
  /-- What the changes leave of a document with a new version, and the failure if there is one. -/
  update : OpenDocument → List ContentChange → Int → OpenDocument × Option Failure

namespace TextLibrary

/-- What is relied on: a document is changed in place, one change after the other, and gets its
version at the end. -/
structure IsLawful (library : TextLibrary) : Prop where
  versionAtEnd (d : OpenDocument) (version : Int) :
    library.update d [] version = ({ d with version }, none)
  inOrder {d d' : OpenDocument} {c : ContentChange} (made : library.change? d c = some d')
    (rest : List ContentChange) (version : Int) :
    library.update d (c :: rest) version = library.update d' rest version
  /-- The changes before an unknown one stay. -/
  throws {d : OpenDocument} {c : ContentChange} (unknown : library.change? d c = none)
    (rest : List ContentChange) (version : Int) :
    library.update d (c :: rest) version = (d, some Store.malformedChange)
  unknown_iff (d : OpenDocument) (c : ContentChange) :
    library.change? d c = none ↔ c = .malformed
  textAlone {d d' : OpenDocument} {c : ContentChange} (made : library.change? d c = some d') :
    d'.version = d.version ∧ d'.language = d.language

theorem IsLawful.eq_malformedChange {library : TextLibrary} (lawful : library.IsLawful)
    {d : OpenDocument} {changes : List ContentChange} {version : Int} {f : Failure}
    (failed : (library.update d changes version).2 = some f) : f = Store.malformedChange := by
  induction changes generalizing d with
  | nil => simp [lawful.versionAtEnd] at failed
  | cons c rest ih =>
    cases made : library.change? d c with
    | some d' => exact ih (by rwa [lawful.inOrder made] at failed)
    | none => simpa [lawful.throws made, eq_comm] using failed

end TextLibrary

/-! ## Two libraries -/

namespace ContentChange

/-- A range with its ends in ascending order. -/
def ordered (r : Range) : Range := if r.start.le r.stop then r else ⟨r.stop, r.start⟩

/-- What a change makes of a document, whose lines are looked for anew. -/
def made? (d : OpenDocument) : ContentChange → Option OpenDocument
  | full text => some { d with text }
  | ranged range text =>
    let table := LineTable.ofText d.text
    let r := ordered range
    some { d with
      text := d.text.take (table.offsetAt r.start) ++ text ++ d.text.drop (table.offsetAt r.stop) }
  | malformed => none

def beforeBreaks (t : Text) (start stop : Nat) : Nat :=
  let isBreak (u : UInt16) := u == Text.lineFeed || u == Text.carriageReturn
  min stop (start + (((t.take stop).drop start).reverse.dropWhile isBreak).length)

def offsetAt (t : Text) (starts : List Nat) (p : Position) : Nat :=
  if p.line < 0 then 0
  else
    match starts[p.line.toNat]? with
    | none => t.length
    | some start =>
      let next := starts[p.line.toNat + 1]?.getD t.length
      beforeBreaks t start (min next (start + p.character.toNat))

/-- What a change makes of a document whose lines are kept. A full change forgets them, one of a
range replaces those from its first line to its last one and moves the others. -/
def spliced? (d : OpenDocument) : ContentChange → Option OpenDocument
  | full text => some { d with text, lineStarts := none }
  | ranged range text =>
    let starts := d.lineStarts.getD (d.text.lines.map Line.start)
    let r := ordered range
    let start := offsetAt d.text starts r.start
    let stop := offsetAt d.text starts r.stop
    let added := text.lines.tail.map (start + ·.start)
    let behind := (starts.drop (r.stop.line.toNat + 1)).map (· + text.length - (stop - start))
    some { d with
      text := d.text.take start ++ text ++ d.text.drop stop
      lineStarts := some (starts.take (r.start.line.toNat + 1) ++ added ++ behind) }
  | malformed => none

end ContentChange

namespace TextLibrary

def makeAll (change? : OpenDocument → ContentChange → Option OpenDocument) (d : OpenDocument) :
    List ContentChange → Int → OpenDocument × Option Failure
  | [], version => ({ d with version }, none)
  | c :: rest, version =>
    match change? d c with
    | some d' => makeAll change? d' rest version
    | none => (d, some Store.malformedChange)

theorem isLawful_makeAll {change? : OpenDocument → ContentChange → Option OpenDocument}
    (unknown_iff : ∀ d c, change? d c = none ↔ c = .malformed)
    (textAlone : ∀ {d d' c}, change? d c = some d' →
      d'.version = d.version ∧ d'.language = d.language) :
    IsLawful ⟨change?, makeAll change?⟩ where
  versionAtEnd _ _ := rfl
  inOrder made rest version := by
    simp only at made ⊢
    rw [makeAll, made]
  throws unknown rest version := by
    simp only at unknown ⊢
    rw [makeAll, unknown]
  unknown_iff := unknown_iff
  textAlone := textAlone

def lineByLine : TextLibrary := ⟨ContentChange.made?, makeAll ContentChange.made?⟩

theorem isLawful_lineByLine : lineByLine.IsLawful := by
  refine isLawful_makeAll (fun _ c => by cases c <;> simp [ContentChange.made?]) fun {_ _ c} made =>
    ?_
  cases c <;> simp only [ContentChange.made?, Option.some.injEq, reduceCtorEq] at made
  all_goals subst made; exact ⟨rfl, rfl⟩

/-- The lines are kept from one change to the next. -/
def incremental : TextLibrary := ⟨ContentChange.spliced?, makeAll ContentChange.spliced?⟩

theorem isLawful_incremental : incremental.IsLawful := by
  refine isLawful_makeAll (fun _ c => by cases c <;> simp [ContentChange.spliced?])
    fun {_ _ c} made => ?_
  cases c <;> simp only [ContentChange.spliced?, Option.some.injEq, reduceCtorEq] at made
  all_goals subst made; exact ⟨rfl, rfl⟩

-- the libraries differ where a line break comes about at a seam
example :
    let d : OpenDocument := { text := "a\rb", version := 1, language := "quill" }
    let cs : List ContentChange := [.ranged ⟨⟨1, 0⟩, ⟨1, 0⟩⟩ "\n", .ranged ⟨⟨1, 0⟩, ⟨1, 1⟩⟩ ""]
    (incremental.update d cs 2).1.text = "a\r\nb" ∧ (lineByLine.update d cs 2).1.text =
      "a\r\n" := by
  decide +kernel

end TextLibrary

/-! ## The store -/

inductive StoreEventKind where
  | open
  | edit
  | close
  deriving DecidableEq, Repr

def StoreEventKind.word : StoreEventKind → Text
  | .open => "open"
  | .edit => "edit"
  | .close => "close"

/-- What became of a document: the version it has now, none once it is closed. -/
structure StoreEvent where
  kind : StoreEventKind
  uri : Uri
  version : Option Int
  deriving DecidableEq, Repr

structure Store where
  documents : Dict Uri OpenDocument := []
  deriving DecidableEq, Repr

/-- The outcome of an operation: the store after it, the lines to write, and the event or the
failure. -/
structure StoreResult where
  store : Store
  traces : List Trace
  outcome : Except Failure StoreEvent

namespace Store

def defaultLanguage : Text := "quill"

def has (s : Store) (uri : Uri) : Bool := Dict.has s.documents uri

def versionOf (s : Store) (uri : Uri) : Option Int := (Dict.get? s.documents uri).map (·.version)

def get (s : Store) (uri : Uri) : Except Failure OpenDocument :=
  match Dict.get? s.documents uri with
  | some d => .ok d
  | none => .error (.unknownDocument uri)

def all (s : Store) : List Uri := Text.sort (Dict.keys s.documents)

def size (s : Store) : Nat := s.documents.length

def refuseStale (s : Store) (uri : Uri) (version current : Int) : StoreResult where
  store := s
  traces := [.log .warn ("[store] dropped stale edit for " ++ uri ++ ": version " ++
    Text.ofInt version ++ " <= " ++ Text.ofInt current)]
  outcome := .error (.staleEdit uri version current)

def put (s : Store) (uri : Uri) (d : OpenDocument) : Store := ⟨Dict.put s.documents uri d⟩

/-- Open the document that an input names. Opening it again replaces it, unless the version goes
back. -/
def «open» (s : Store) (input text : Text) (version : Int) (language : Text := defaultLanguage) :
    StoreResult :=
  let uri := Uri.ofInput input
  let opened (warnings : List Trace) : StoreResult :=
    { store := s.put uri { text, version, language }
      traces := warnings ++
        [.debug .store "open"
          [("uri", .text uri), ("version", .int version), ("length", .nat text.length)]]
      outcome := .ok ⟨.open, uri, some version⟩ }
  match s.versionOf uri with
  | none => opened []
  | some current =>
    if version < current then s.refuseStale uri version current
    else opened [.log .warn ("[store] " ++ uri ++ " opened twice; replacing version " ++
      Text.ofInt current ++ " with " ++ Text.ofInt version)]

/-- Change the document that an input names. The version must grow. The library changes the document
that the store has, so when it fails nobody hears of what is left. -/
def edit (s : Store) (input : Text) (changes : List ContentChange) (version : Int)
    (library : TextLibrary := .lineByLine) : StoreResult :=
  let uri := Uri.ofInput input
  match Dict.get? s.documents uri with
  | none => ⟨s, [], .error (.unknownDocument uri)⟩
  | some d =>
    if version ≤ d.version then s.refuseStale uri version d.version
    else
      match library.update d changes version with
      | (d', none) =>
        { store := s.put uri d'
          traces := [.debug .store "edit"
            [("uri", .text uri), ("version", .int version), ("changes", .nat changes.length)]]
          outcome := .ok ⟨.edit, uri, some version⟩ }
      | (d', some f) => ⟨s.put uri d', [], .error f⟩

def close (s : Store) (input : Text) : StoreResult :=
  let uri := Uri.ofInput input
  if s.has uri then
    { store := ⟨Dict.erase s.documents uri⟩
      traces := [.debug .store "close" [("uri", .text uri)]]
      outcome := .ok ⟨.close, uri, none⟩ }
  else ⟨s, [], .error (.unknownDocument uri)⟩

theorem has_eq_isSome_versionOf (s : Store) (uri : Uri) :
    s.has uri = (s.versionOf uri).isSome := by simp [has, Dict.has, versionOf]

end Store

end Quill
