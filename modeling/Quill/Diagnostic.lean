import Quill.Markup.Item
import Quill.Record.Basic
import Quill.Text.Order

/-!
# Diagnostics

A diagnostic is a finding at a range of a document. Diagnostics carry lines and columns, so that
everything behind the compiler can compare and send them without the text.

## Main definitions

* `Finding` — what a compile can find, with `Finding.code`, `Finding.message` and
  `Finding.severity`.
* `Diagnostic` — a finding in its written form, at its place.
* `Diagnostic.sort` — the order in which the diagnostics of a document are listed.
-/

namespace Quill

inductive Severity where
  | error
  | warning
  | info
  | hint
  deriving DecidableEq, Repr

def Severity.name : Severity → Text
  | .error => "error"
  | .warning => "warning"
  | .info => "info"
  | .hint => "hint"

inductive Finding where
  | syntaxError (p : SyntaxProblem)
  | includeCycle (files : List Text)
  | fileNotFound (specifier : Text)
  | duplicateLabel (name : Text)
  | unknownLabel (name : Text)
  | unknownVariable (name : Text)
  | unusedBinding (name : Text)
  | internalError (message : Text)
  deriving DecidableEq, Repr

namespace Finding

def code : Finding → Text
  | syntaxError p => p.code
  | includeCycle _ => "include-cycle"
  | fileNotFound _ => "file-not-found"
  | duplicateLabel _ => "duplicate-label"
  | unknownLabel _ => "unknown-label"
  | unknownVariable _ => "unknown-variable"
  | unusedBinding _ => "unused-binding"
  | internalError _ => "internal-error"

def message : Finding → Text
  | syntaxError p => p.message
  | includeCycle files => "include cycle: " ++ Text.join " -> " files
  | fileNotFound specifier => "file not found: " ++ specifier
  | duplicateLabel name => "label `" ++ name ++ "` is defined more than once"
  | unknownLabel name => "label `" ++ name ++ "` does not exist"
  | unknownVariable name => "unknown variable `" ++ name ++ "`"
  | unusedBinding name => "`" ++ name ++ "` is never used"
  | internalError message => message

def severity : Finding → Severity
  | unusedBinding _ => .hint
  | _ => .error

/-- Whether the text of a finding may be shown as superfluous. -/
def isUnnecessary : Finding → Bool
  | unusedBinding _ => true
  | _ => false

end Finding

structure RelatedPlace where
  uri : Uri
  range : Range
  message : Text
  deriving DecidableEq, Repr

structure Diagnostic where
  code : Text
  message : Text
  severity : Severity
  range : Range
  unnecessary : Bool
  related : List RelatedPlace
  deriving DecidableEq, Repr

namespace Diagnostic

def source : Text := "quill"

def ofFinding (f : Finding) (range : Range) (related : List RelatedPlace) : Diagnostic where
  code := f.code
  message := f.message
  severity := f.severity
  range := range
  unnecessary := f.isUnnecessary
  related := related

def le (a b : Diagnostic) : Bool :=
  if a.range.start = b.range.start then
    if a.range.stop = b.range.stop then Text.le a.code b.code else a.range.stop.le b.range.stop
  else a.range.start.le b.range.start

def sort (ds : List Diagnostic) : List Diagnostic := sortBy le ds

def relatedValue (r : RelatedPlace) : Value :=
  .record [("uri", .text r.uri), ("range", r.range.record), ("message", .text r.message)]

def toValue (d : Diagnostic) : Value :=
  .record <|
    [("code", .text d.code), ("message", .text d.message), ("severity", .text d.severity.name),
      ("range", d.range.record)] ++
    (if d.unnecessary then [("tags", .array [.str "unnecessary"])] else []) ++
    (if d.related.isEmpty then [] else [("related", .array (d.related.map relatedValue))]) ++
    [("source", .text source)]

end Diagnostic

end Quill
