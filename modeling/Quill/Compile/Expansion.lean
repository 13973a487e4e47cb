import Quill.Compile.World
import Quill.Diagnostic

/-!
# Expanding includes

Starting from the entry, every inclusion is expanded where it stands, depth first, and every file
once. The result is one sequence of placed items for the whole closure.

## Main definitions

* `IncludeEdge` — an inclusion with its status.
* `Expansion` — the files, placed items and edges found so far.
* `World.expand` — the expansion of a world.
-/

namespace Quill

/-- What became of an inclusion: its target was found, has no source, or is being expanded. -/
inductive IncludeStatus where
  | ok
  | missing
  | cycle
  deriving DecidableEq, Repr

def IncludeStatus.word : IncludeStatus → Text
  | .ok => "ok"
  | .missing => "missing"
  | .cycle => "cycle"

/-- An inclusion of a file with its status. -/
structure IncludeEdge where
  source : Uri
  target : Uri
  specifier : Text
  span : Span
  status : IncludeStatus
  deriving DecidableEq, Repr

/-- An item and the document it stands in. -/
structure PlacedItem where
  uri : Uri
  item : Item
  deriving DecidableEq, Repr

structure Report where
  uri : Uri
  finding : Finding
  span : Span
  related : List (Uri × Span) := []
  deriving DecidableEq, Repr

/-- What has been expanded: the files in order, the items but for inclusions, the edges, and the
reports on files. -/
structure Expansion where
  files : List Uri
  placed : List PlacedItem
  edges : List IncludeEdge
  reports : List Report
  deriving DecidableEq, Repr

namespace Expansion

def empty : Expansion := ⟨[], [], [], []⟩

def addEdge (s : Expansion) (uri : Uri) (i : Inclusion) (status : IncludeStatus) : Expansion :=
  { s with edges := s.edges ++ [⟨uri, i.target, i.specifier, i.span, status⟩] }

def addReport (s : Expansion) (r : Report) : Expansion := { s with reports := s.reports ++ [r] }

def addFile (s : Expansion) (uri : Uri) (m : Module) : Expansion :=
  { s with
    files := s.files ++ [uri]
    reports := s.reports ++
      m.errors.map fun e => { uri, finding := .syntaxError e.problem, span := e.span } }

def addItem (s : Expansion) (uri : Uri) (item : Item) : Expansion :=
  { s with placed := s.placed ++ [⟨uri, item⟩] }

end Expansion

namespace World

/-- The files of the cycle that an inclusion of `target` closes, as seen from `uri`. -/
def cycleFrom (uri : Uri) (chain : List Uri) (target : Uri) : List Text :=
  (chain.dropWhile (· != target) ++ [target]).map uri.display

def expandInclusion (w : World) (deeper : List Uri → Uri → Expansion → Expansion)
    (chain : List Uri) (uri : Uri) (i : Inclusion) (s : Expansion) : Expansion :=
  if chain.contains i.target then
    (s.addEdge uri i .cycle).addReport
      { uri, finding := .includeCycle (cycleFrom uri chain i.target), span := i.span }
  else if (w.source? i.target).isNone then
    (s.addEdge uri i .missing).addReport
      { uri, finding := .fileNotFound i.specifier, span := i.pathSpan }
  else if s.files.contains i.target then s.addEdge uri i .ok
  else deeper (chain ++ [i.target]) i.target (s.addEdge uri i .ok)

/-- Expand a file; `chain` holds the files being expanded, it included. A chain has no file twice,
so the number of sources bounds the depth. -/
def expandFile (w : World) : Nat → List Uri → Uri → Expansion → Expansion
  | 0, _, _, s => s
  | depth + 1, chain, uri, s =>
    match w.source? uri with
    | none => s
    | some source =>
      source.module.items.foldl (fun s item =>
        match item with
        | .inclusion i => expandInclusion w (expandFile w depth) chain uri i s
        | item => s.addItem uri item) (s.addFile uri source.module)

def expand (w : World) : Expansion := expandFile w w.sources.length [w.entry] w.entry .empty

end World

end Quill
