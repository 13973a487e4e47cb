import Quill.Markup.Item
import Quill.Query.Answer
import Quill.Snapshot.Basic
import Quill.Text.Blank
import Quill.Text.LowerCase

/-!
# Outlines and folding

Headings nest by level: a section runs until the next heading of its level or a higher one.
Bindings, and labels that do not stand on a heading line, belong to the section they are written in.
Sections of more than one line can be folded, and so can inclusions on two or more lines in a row.

## Main definitions

* `Outline.ofModule` — the tree of symbols of a document.
* `Outline.flat` — the headings, labels and bindings of a document in order, each with the heading
  above it.
* `Outline.matching` — those whose name contains a text, whatever the case of the letters.
* `Folding.sections` — the ranges of the sections of an outline.
* `Folding.runs` — the runs of inclusions.
* `Folding.ranges` — all of them in order.
-/

namespace Quill.Outline

/-- A section that has not ended, with the symbols in it so far. -/
structure Section where
  heading : Heading
  children : List DocumentSymbol

/-- The sections that have not ended, the innermost first, the symbols above them all, and the
latest heading. -/
structure State where
  roots : List DocumentSymbol := []
  sections : List Section := []
  current : Option Heading := none

def State.add (st : State) (symbol : DocumentSymbol) : State :=
  match st.sections with
  | s :: outer => { st with sections := { s with children := s.children ++ [symbol] } :: outer }
  | [] => { st with roots := st.roots ++ [symbol] }

/-- The end of a section that may run up to `stop`: blanks at its end do not belong to it. -/
def sectionEnd (t : Text) (h : Heading) (stop : Int) : Int :=
  let start := h.span.stop
  if stop ≤ start then stop
  else start + (Text.trimEnd (t.slice start.toNat stop.toNat)).length

def sectionSymbol (t : Text) (lines : LineTable) (s : Section) (stop : Int) : DocumentSymbol :=
  .mk s.heading.title (s.heading.label.map fun name => "<" ++ name ++ ">") .heading
    (lines.rangeOf ⟨s.heading.span.start, sectionEnd t s.heading stop⟩)
    (lines.rangeOf s.heading.titleSpan) s.children

/-- End the innermost sections as long as `ends` holds; `n` bounds their number. -/
def State.closeWhile (t : Text) (lines : LineTable) (stop : Int) (ends : Heading → Bool) :
    Nat → State → State
  | 0, st => st
  | n + 1, st =>
    match st.sections with
    | s :: outer =>
      if ends s.heading then
        closeWhile t lines stop ends n
          ({ st with sections := outer }.add (sectionSymbol t lines s stop))
      else st
    | [] => st

def State.close (t : Text) (lines : LineTable) (stop : Int) (ends : Heading → Bool) (st : State) :
    State :=
  closeWhile t lines stop ends st.sections.length st

def State.take (t : Text) (lines : LineTable) (st : State) : Item → State
  | .heading h =>
    let st := st.close t lines h.span.start fun outer => h.level ≤ outer.level
    { st with sections := ⟨h, []⟩ :: st.sections, current := some h }
  | .label m =>
    if st.current.any fun h => m.span.within h.span then st
    else st.add (.mk m.name none .label (lines.rangeOf m.span) (lines.rangeOf m.nameSpan) [])
  | .binding b =>
    st.add (.mk b.name (some b.value) .binding (lines.rangeOf b.span) (lines.rangeOf b.nameSpan) [])
  | _ => st

def ofModule (t : Text) (m : Module) : List DocumentSymbol :=
  let lines := LineTable.ofText t
  ((m.items.foldl (State.take t lines) {}).close t lines t.length fun _ => true).roots

/-- The headings above the place behind an item, the innermost first. -/
def above (headings : List Heading) : Item → List Heading
  | .heading h => h :: headings.dropWhile (h.level ≤ ·.level)
  | _ => headings

def symbol? (uri : Uri) (lines : LineTable) (headings : List Heading) (item : Item) :
    Option WorkspaceSymbol :=
  let symbol (name : Text) (kind : SymbolKind) (headings : List Heading) : WorkspaceSymbol :=
    ⟨name, kind, ⟨uri, lines.rangeOf item.span⟩, headings.head?.map Heading.title⟩
  match item with
  | .heading h => some (symbol h.title .heading (headings.dropWhile (h.level ≤ ·.level)))
  | .label m => some (symbol m.name .label headings)
  | .binding b => some (symbol b.name .binding headings)
  | _ => none

def flatFrom (uri : Uri) (lines : LineTable) (headings : List Heading) :
    List Item → List WorkspaceSymbol
  | [] => []
  | item :: rest =>
    (symbol? uri lines headings item).toList ++ flatFrom uri lines (above headings item) rest

/-- The headings, labels and bindings of a document in order, each with the heading above it. -/
def flat (uri : Uri) (t : Text) (m : Module) : List WorkspaceSymbol :=
  flatFrom uri (LineTable.ofText t) [] m.items

/-- Those whose name contains what is asked for, whatever the case of the letters. -/
def matching (query : Text) (symbols : List WorkspaceSymbol) : List WorkspaceSymbol :=
  let needle := Text.lower (Text.trim query)
  symbols.filter fun s => Text.occursIn needle (Text.lower s.name)

end Quill.Outline

namespace Quill.Folding

mutual
def sectionsOf : DocumentSymbol → List FoldingRange
  | .mk _ _ kind range _ children =>
    if kind = .heading then
      (if range.start.line < range.stop.line then
        [⟨range.start.line, range.stop.line, .section⟩] else []) ++ sections children
    else []

def sections : List DocumentSymbol → List FoldingRange
  | [] => []
  | s :: rest => sectionsOf s ++ sections rest
end

def addLine (runs : List (Int × Int)) (line : Int) : List (Int × Int) :=
  match runs with
  | (start, stop) :: rest =>
    if line = stop + 1 then (start, line) :: rest else (line, line) :: (start, stop) :: rest
  | [] => [(line, line)]

def runs (lines : List Int) : List (Int × Int) := (lines.foldl addLine []).reverse

def imports (t : Text) (m : Module) : List FoldingRange :=
  let table := LineTable.ofText t
  (runs (m.inclusions.map fun i => (table.rangeOf i.span).start.line)).filterMap fun r =>
    if r.1 < r.2 then some ⟨r.1, r.2, .imports⟩ else none

def le (a b : FoldingRange) : Bool :=
  if a.startLine = b.startLine then b.endLine ≤ a.endLine else a.startLine ≤ b.startLine

def ranges (t : Text) (m : Option Module) (outline : List DocumentSymbol) : List FoldingRange :=
  sortBy le (sections outline ++ (m.map (imports t)).getD [])

end Quill.Folding
