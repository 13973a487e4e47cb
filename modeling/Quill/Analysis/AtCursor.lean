import Quill.Compile.Artifact
import Quill.Markup.Identifier
import Quill.Markup.Item
import Quill.Snapshot.Basic

/-!
# What is at a cursor

A hover describes the item that a cursor touches, a definition is where it leads. A completion is
offered for a name that is being written: behind an at sign stand labels, behind a hash sign
directives, bindings and inputs. What is already written between the sign and the cursor must begin
the name.

## Main definitions

* `Hover.needsArtifact`, `Definition.needsArtifact` — whether an item can only be described or
  located after a compile.
* `Hover.contents?` — the description of an item, in Markdown.
* `Definition.ofInclusion` — an inclusion leads to the start of its document.
* `Definition.ofReference`, `Definition.ofUse` — a reference leads to its label, a use to its
  binding.
* `Completion.Site` — the sign before the cursor and where the name behind it starts.
* `Completion.labels`, `Completion.names` — the candidates behind each sign.
* `Completion.entries` — the candidates that fit, in order.
-/

namespace Quill

/-! ## Hovers -/

namespace Hover

def codeBlock (code : Text) : Text := "```quill\n" ++ code ++ "\n```"

def code (name : Text) : Text := "`" ++ name ++ "`"

def bindingBlock (name value : Text) : Text := codeBlock ("#let " ++ name ++ " = " ++ value)

def needsArtifact : Item → Bool
  | .label _ | .reference _ | .use _ => true
  | _ => false

def heading (h : Heading) : Text :=
  let label : Text :=
    match h.label with
    | some name => ", label " ++ code name
    | none => []
  "**" ++ h.title ++ "**\n\nHeading level " ++ Text.ofNat h.level ++ label

def inclusion (s : Snapshot) (uri : Uri) (i : Inclusion) : Text :=
  let missing : Text := if (s.document? i.target).isSome then [] else " (file not found)"
  "Includes " ++ code (uri.display i.target) ++ missing

def label (a : Option Artifact) (m : Mark) : Text :=
  let count : Text :=
    match a with
    | some a =>
      let n := a.references.countP (·.name == m.name)
      ", " ++ Text.ofNat n ++ (if n = 1 then " reference" else " references" : Text)
    | none => []
  "Label " ++ code m.name ++ count

def reference (a : Artifact) (uri : Uri) (m : Mark) : Text :=
  match a.label? m.name with
  | none => "Unknown label " ++ code m.name
  | some l =>
    let heading : Text :=
      match l.heading with
      | some title => " on **" ++ title ++ "**"
      | none => []
    let place : Text := if l.uri = uri then [] else " in " ++ code (uri.display l.uri)
    "Label " ++ code m.name ++ heading ++ place

def use (a : Artifact) (uri : Uri) (m : Mark) : Text :=
  match (a.uses.find? fun u => u.uri == uri && u.span == m.span).bind ResolvedUse.target with
  | none => "Unknown variable " ++ code m.name
  | some (.input value) => code m.name ++ " = " ++ code value ++ " (compile input)"
  | some (.binding b) => bindingBlock b.name b.value

/-- The description of an item of the document `uri`. References and uses have none when the
closure cannot be compiled. -/
def contents? (s : Snapshot) (uri : Uri) (a : Option Artifact) : Item → Option Text
  | .heading h => some (heading h)
  | .binding b => some (bindingBlock b.name b.value)
  | .inclusion i => some (inclusion s uri i)
  | .label m => some (label a m)
  | .reference m => a.map fun a => reference a uri m
  | .use m => a.map fun a => use a uri m

/-- The description of an item, at the part that a cursor has to touch. -/
def info? (s : Snapshot) (uri : Uri) (a : Option Artifact) (item : Item) : Option HoverInfo :=
  (contents? s uri a item).map fun contents => ⟨contents, s.rangeOf uri item.hitSpan⟩

end Hover

/-! ## Definitions -/

namespace Definition

/-- The start of the document that an inclusion names, if it was found. -/
def ofInclusion (s : Snapshot) (i : Inclusion) : List Location :=
  if (s.document? i.target).isSome then [⟨i.target, .zero⟩] else []

def ofReference (s : Snapshot) (a : Artifact) (uri : Uri) (m : Mark) : List Location :=
  match (a.references.find? fun r => r.uri == uri && r.span.start == m.span.start).bind
    ResolvedReference.target with
  | some (target, span) => [⟨target, s.rangeOf target span⟩]
  | none => []

/-- The name of the binding that a use stands for; inputs are defined nowhere. -/
def ofUse (s : Snapshot) (a : Artifact) (uri : Uri) (m : Mark) : List Location :=
  match (a.uses.find? fun u => u.uri == uri && u.span.start == m.span.start).bind
    ResolvedUse.target with
  | some (.binding b) => [⟨b.uri, s.rangeOf b.uri b.nameSpan⟩]
  | _ => []

def needsArtifact : Item → Bool
  | .reference _ | .use _ => true
  | _ => false

/-- Where an item of the document `uri` leads; nowhere, when the closure cannot be compiled. -/
def locations (s : Snapshot) (uri : Uri) (a : Option Artifact) : Item → List Location
  | .inclusion i => ofInclusion s i
  | .reference m => (a.map fun a => ofReference s a uri m).getD []
  | .use m => (a.map fun a => ofUse s a uri m).getD []
  | _ => []

end Definition

/-! ## Completions -/

namespace Completion

/-- A name that may be offered. -/
structure Candidate where
  label : Text
  kind : CompletionKind
  detail : Option Text := none
  deriving DecidableEq, Repr

inductive Sign where
  | label
  | name
  deriving DecidableEq, Repr

def Sign.ofUnit? (u : UInt16) : Option Sign :=
  if u = Text.unit '@' then some .label else if u = Text.unit '#' then some .name else none

/-- A sign, the offset behind it, and what stands from there up to the cursor. -/
structure Site where
  sign : Sign
  start : Nat
  written : Text
  deriving DecidableEq, Repr

def Site.find? (t : Text) (offset : Nat) : Option Site :=
  let before := (t.take offset).reverse
  let written := (before.takeWhile Identifier.isPart).reverse
  match before.dropWhile Identifier.isPart with
  | u :: rest => (Sign.ofUnit? u).map fun sign => ⟨sign, rest.length + 1, written⟩
  | [] => none

/-- The labels of the closure, each with its heading, or with its document when it is on none; of
the entry alone when the closure cannot be compiled. -/
def labels (uri : Uri) (a : Option Artifact) (own : Option Module) : List Candidate :=
  match a with
  | some a => a.labels.map fun l => ⟨l.name, .label, some (l.heading.getD (uri.display l.uri))⟩
  | none =>
    let names := (own.map fun m => m.labels.map Mark.name).getD []
    names.eraseDups.map fun name => { label := name, kind := .label }

def directives : List Candidate := Directive.all.map fun d => { label := d.word, kind := .keyword }

/-- The directives, then the bindings of the closure, each with its last value, then the inputs that
no binding hides. Without a compile, the bindings of the entry alone. -/
def names (settings : CompileSettings) (a : Option Artifact) (own : Option Module) :
    List Candidate :=
  let bindings : Dict Text Text :=
    match a with
    | some a => Dict.ofList (a.bindings.map fun b => (b.name, b.value))
    | none => Dict.ofList ((own.map Module.bindings).getD [] |>.map fun b => (b.name, b.value))
  let inputs := ((a.map Artifact.settings).getD settings).inputs
  directives ++ bindings.map (fun e => ⟨e.1, .variable, some e.2⟩) ++
    (inputs.filter fun e => !Dict.has bindings e.1).map fun e => ⟨e.1, .input, some e.2⟩

def rank : CompletionKind → Nat
  | .keyword => 0
  | .variable => 1
  | .input => 2
  | .label => 3

def le (a b : Candidate) : Bool :=
  if rank a.kind = rank b.kind then Text.le a.label b.label else rank a.kind ≤ rank b.kind

/-- The candidates that begin with what is written, in order, in place of it. -/
def entries (s : Snapshot) (uri : Uri) (site : Site) (offset : Nat) (candidates : List Candidate) :
    List CompletionEntry :=
  let range := s.rangeOf uri ⟨site.start, offset⟩
  (sortBy le (candidates.filter fun c => c.label.startsWith site.written)).map fun c =>
    ⟨c.label, c.kind, c.detail, range⟩

end Completion

end Quill
