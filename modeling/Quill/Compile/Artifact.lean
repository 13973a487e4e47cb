import Quill.Compile.Expansion

/-!
# What a compile yields

## Main definitions

* `OutlineEntry`, `LabelDefinition`, `BindingDefinition` — what the closure defines.
* `ResolvedReference`, `ResolvedUse` — what it refers to.
* `Artifact` — all of it, with the files and the edges between them.
* `Compiled` — an artifact and the diagnostics of its files.
-/

namespace Quill

structure OutlineEntry where
  uri : Uri
  title : Text
  level : Nat
  span : Span
  label : Option Text
  deriving DecidableEq, Repr

/-- The first label of its name. The heading is the title of the heading line it stands on. -/
structure LabelDefinition where
  name : Text
  uri : Uri
  span : Span
  nameSpan : Span
  heading : Option Text
  deriving DecidableEq, Repr

structure BindingDefinition where
  name : Text
  value : Text
  uri : Uri
  span : Span
  nameSpan : Span
  used : Bool
  deriving DecidableEq, Repr

/-- A reference with the place of the name of its label. -/
structure ResolvedReference where
  name : Text
  uri : Uri
  span : Span
  target : Option (Uri × Span)
  deriving DecidableEq, Repr

inductive UseTarget where
  | binding (b : BindingDefinition)
  | input (value : Text)
  deriving DecidableEq, Repr

structure ResolvedUse where
  name : Text
  uri : Uri
  span : Span
  target : Option UseTarget
  deriving DecidableEq, Repr

/-- What a compile yields for a closure. -/
structure Artifact where
  entry : Uri
  files : List Uri
  outline : List OutlineEntry
  labels : List LabelDefinition
  bindings : List BindingDefinition
  references : List ResolvedReference
  uses : List ResolvedUse
  includes : List IncludeEdge
  settings : CompileSettings
  deriving DecidableEq, Repr

def Artifact.label? (a : Artifact) (name : Text) : Option LabelDefinition :=
  a.labels.find? (·.name == name)

structure Compiled where
  artifact : Artifact
  diagnostics : Dict Uri (List Diagnostic)
  deriving DecidableEq, Repr

end Quill
