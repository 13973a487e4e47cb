import Quill.Compile.Artifact
import Quill.Record.Basic
import Quill.Text.Replacement

/-!
# Compiles as data

## Main definitions

* `Artifact.record`, `Compiled.fields` — what a compile yields.
* `Diagnostic.ofRecord` — a diagnostic from data.
* `Replacement.record` — a replacement.
-/

namespace Quill

open Record

def Severity.ofRecord (v : Value) : Severity :=
  match v.word with
  | "warning" => .warning
  | "info" => .info
  | "hint" => .hint
  | _ => .error

def Diagnostic.ofRecord (v : Value) : Diagnostic where
  code := v.textAt "code"
  message := v.textAt "message"
  severity := .ofRecord (v.get "severity")
  range := .ofRecord (v.get "range")
  unnecessary := (v.itemsAt "tags").any fun t => t.isWord "unnecessary"
  related := (v.itemsAt "related").map fun r =>
    ⟨r.textAt "uri", .ofRecord (r.get "range"), r.textAt "message"⟩

def Replacement.record (r : Replacement) : Value :=
  obj [("span", r.span.record), ("newText", str r.newText)]

def OutlineEntry.record (e : OutlineEntry) : Value :=
  obj [("uri", str e.uri), ("title", str e.title), ("level", .nat e.level),
    ("span", e.span.record), ("label", orNull str e.label)]

def LabelDefinition.record (l : LabelDefinition) : Value :=
  obj [("name", str l.name), ("uri", str l.uri), ("span", l.span.record),
    ("nameSpan", l.nameSpan.record), ("heading", orNull str l.heading)]

def BindingDefinition.record (b : BindingDefinition) : Value :=
  obj [("name", str b.name), ("value", str b.value), ("uri", str b.uri), ("span", b.span.record),
    ("nameSpan", b.nameSpan.record), ("used", .bool b.used)]

def ResolvedReference.record (r : ResolvedReference) : Value :=
  obj [("name", str r.name), ("uri", str r.uri), ("span", r.span.record),
    ("target", orNull (fun (t : Uri × Span) => obj [("uri", str t.1), ("span", t.2.record)])
      r.target)]

def UseTarget.record : UseTarget → Value
  | .binding b => obj [("kind", .str "binding"), ("binding", b.record)]
  | .input value => obj [("kind", .str "input"), ("value", str value)]

def ResolvedUse.record (u : ResolvedUse) : Value :=
  obj [("name", str u.name), ("uri", str u.uri), ("span", u.span.record),
    ("target", orNull UseTarget.record u.target)]

def IncludeEdge.record (e : IncludeEdge) : Value :=
  obj [("from", str e.source), ("to", str e.target), ("specifier", str e.specifier),
    ("span", e.span.record), ("status", str e.status.word)]

def Artifact.record (a : Artifact) : Value :=
  obj [("entry", str a.entry), ("files", arr (a.files.map str)),
    ("outline", arr (a.outline.map OutlineEntry.record)),
    ("labels", arr (a.labels.map LabelDefinition.record)),
    ("bindings", arr (a.bindings.map BindingDefinition.record)),
    ("references", arr (a.references.map ResolvedReference.record)),
    ("uses", arr (a.uses.map ResolvedUse.record)),
    ("includes", arr (a.includes.map IncludeEdge.record)),
    ("inputs", pairs a.settings.inputs), ("fontRevision", str a.settings.fontRevision)]

def Compiled.fields (c : Compiled) : List (String × Value) :=
  [("artifact", c.artifact.record),
    ("diagnostics", arr (c.diagnostics.map fun e =>
      arr [str e.1, arr (e.2.map Diagnostic.toValue)]))]

end Quill
