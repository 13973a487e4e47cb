import Quill.Compile.Artifact

/-!
# Resolving names

Labels are global to the closure: the first one of a name counts. Bindings are positional: each one
shadows the one of its name that was in scope, and a use stands for the one in scope at its place,
unless it stands in the value of that binding, which then cannot mean itself.

## Main definitions

* `Resolution.outline`, `Resolution.labels`, `Resolution.references` — the global names.
* `Resolution.Scoping` — what is in scope, and what has been resolved; `Scoping.define`,
  `Scoping.walk`, `Scoping.use` — how a binding comes into scope and a use finds it.
* `Resolution.uses` — what the uses stand for.
* `World.compile?` — a whole compile; refused when the entry has no source.
-/

namespace Quill

namespace Resolution

def outline (placed : List PlacedItem) : List OutlineEntry :=
  placed.filterMap fun p =>
    match p.item with
    | .heading h => some ⟨p.uri, h.title, h.level, h.span, h.label⟩
    | _ => none

/-- A label together with the heading it stands on. -/
structure PlacedLabel where
  uri : Uri
  mark : Mark
  heading : Option Text
  deriving DecidableEq, Repr

def placedLabels (current : Option (Uri × Heading)) : List PlacedItem → List PlacedLabel
  | [] => []
  | p :: rest =>
    match p.item with
    | .heading h => placedLabels (some (p.uri, h)) rest
    | .label m =>
      let on := current.filter fun c => c.1 == p.uri && m.span.within c.2.span
      ⟨p.uri, m, on.map fun c => c.2.title⟩ :: placedLabels current rest
    | _ => placedLabels current rest

def PlacedLabel.definition (l : PlacedLabel) : LabelDefinition :=
  ⟨l.mark.name, l.uri, l.mark.span, l.mark.nameSpan, l.heading⟩

def firstLabels (known : List LabelDefinition) : List PlacedLabel → List LabelDefinition
  | [] => []
  | l :: rest =>
    if known.any (·.name == l.mark.name) then firstLabels known rest
    else l.definition :: firstLabels (known ++ [l.definition]) rest

def duplicates (known : List LabelDefinition) : List PlacedLabel → List Report
  | [] => []
  | l :: rest =>
    match known.find? (·.name == l.mark.name) with
    | some first =>
      { uri := l.uri, finding := .duplicateLabel l.mark.name, span := l.mark.span
        related := [(first.uri, first.span)] } :: duplicates known rest
    | none => duplicates (known ++ [l.definition]) rest

def references (labels : List LabelDefinition) (placed : List PlacedItem) :
    List ResolvedReference :=
  placed.filterMap fun p =>
    match p.item with
    | .reference m =>
      let target := labels.find? (·.name == m.name)
      some ⟨m.name, p.uri, m.span, target.map fun l => (l.uri, l.nameSpan)⟩
    | _ => none

/-- A binding in its place, with the number of the binding of its name that it shadows and a mark
that it is used. -/
structure ScopedBinding where
  uri : Uri
  binding : Binding
  shadows : Option Nat
  used : Bool
  deriving DecidableEq, Repr

def ScopedBinding.definition (b : ScopedBinding) : BindingDefinition :=
  ⟨b.binding.name, b.binding.value, b.uri, b.binding.span, b.binding.nameSpan, b.used⟩

/-- A use, and the number of the binding it stands for. -/
structure PlacedUse where
  uri : Uri
  mark : Mark
  target : Option Nat
  deriving DecidableEq, Repr

/-- What has been resolved so far. Bindings are known by their number; `innermost` has the one in
scope for each name. -/
structure Scoping where
  innermost : Dict Text Nat := []
  defined : List ScopedBinding := []
  uses : List PlacedUse := []
  deriving Repr

namespace Scoping

def define (s : Scoping) (uri : Uri) (b : Binding) : Scoping :=
  { s with
    innermost := Dict.put s.innermost b.name s.defined.length
    defined := s.defined ++ [⟨uri, b, Dict.get? s.innermost b.name, false⟩] }

/-- Walk from a binding along the ones that are shadowed, out of the values in which the use `m` of
the document `uri` stands. A binding shadows an earlier one, so their number bounds the walk. -/
def walk (defined : List ScopedBinding) (uri : Uri) (m : Mark) : Nat → Option Nat → Option Nat
  | steps + 1, some i =>
    (defined[i]?).bind fun b =>
      if b.uri == uri && m.span.within b.binding.valueSpan then walk defined uri m steps b.shadows
      else some i
  | _, _ => none

/-- A use is resolved, and the binding that it stands for is marked. -/
def use (s : Scoping) (uri : Uri) (m : Mark) : Scoping :=
  let target := walk s.defined uri m s.defined.length (Dict.get? s.innermost m.name)
  { s with
    defined := target.elim s.defined fun i => s.defined.modify i fun b => { b with used := true }
    uses := s.uses ++ [⟨uri, m, target⟩] }

def place (s : Scoping) (p : PlacedItem) : Scoping :=
  match p.item with
  | .binding b => s.define p.uri b
  | .use m => s.use p.uri m
  | _ => s

def ofPlaced (placed : List PlacedItem) : Scoping := placed.foldl place {}

end Scoping

def uses (inputs : Dict Text Text) (bs : List BindingDefinition) (us : List PlacedUse) :
    List ResolvedUse :=
  us.map fun u =>
    let target := match u.target.bind (bs[·]?) with
      | some b => some (UseTarget.binding b)
      | none => (Dict.get? inputs u.mark.name).map UseTarget.input
    ⟨u.mark.name, u.uri, u.mark.span, target⟩

def unknownLabels (rs : List ResolvedReference) : List Report :=
  (rs.filter (·.target.isNone)).map fun r =>
    { uri := r.uri, finding := .unknownLabel r.name, span := r.span }

def unknownVariables (us : List ResolvedUse) : List Report :=
  (us.filter (·.target.isNone)).map fun u =>
    { uri := u.uri, finding := .unknownVariable u.name, span := u.span }

def unusedBindings (bs : List BindingDefinition) : List Report :=
  (bs.filter (!·.used)).map fun b =>
    { uri := b.uri, finding := .unusedBinding b.name, span := b.nameSpan }

end Resolution

namespace World

def lineTables (w : World) (files : List Uri) : Dict Uri LineTable :=
  files.map fun uri => (uri, LineTable.ofText (((w.source? uri).map Source.text).getD []))

def rangeIn (tables : Dict Uri LineTable) (uri : Uri) (s : Span) : Range :=
  ((Dict.get? tables uri).getD ⟨0, [⟨0, []⟩]⟩).rangeOf s

def diagnose (tables : Dict Uri LineTable) (r : Report) : Diagnostic :=
  .ofFinding r.finding (rangeIn tables r.uri r.span)
    (r.related.map fun p => ⟨p.1, rangeIn tables p.1 p.2, "first defined here"⟩)

def diagnostics (w : World) (files : List Uri) (reports : List Report) :
    Dict Uri (List Diagnostic) :=
  let tables := w.lineTables files
  files.map fun uri =>
    (uri, Diagnostic.sort ((reports.filter (·.uri == uri)).map (diagnose tables)))

def compile (w : World) : Compiled :=
  let e := w.expand
  let labelled := Resolution.placedLabels none e.placed
  let labels := Resolution.firstLabels [] labelled
  let references := Resolution.references labels e.placed
  let scoping := Resolution.Scoping.ofPlaced e.placed
  let bindings := scoping.defined.map Resolution.ScopedBinding.definition
  let uses := Resolution.uses w.settings.inputs bindings scoping.uses
  let reports := e.reports ++ Resolution.duplicates [] labelled ++
    Resolution.unknownLabels references ++ Resolution.unknownVariables uses ++
    Resolution.unusedBindings bindings
  { artifact :=
      { entry := w.entry, files := e.files, outline := Resolution.outline e.placed, labels, bindings
        references, uses, includes := e.edges, settings := w.settings }
    diagnostics := w.diagnostics e.files reports }

def compile? (w : World) : Except Failure Compiled :=
  if (w.source? w.entry).isNone then .error (.missingEntry w.entry) else .ok w.compile

end World

end Quill
