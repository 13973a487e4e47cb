import Quill.Markup.Identifier
import Quill.Path.Document
import Quill.Text.Position

/-!
# Items of a document

A document is read into a flat list of items: headings, labels, references, bindings, uses and
inclusions. Problems that the reader finds stand next to the items.

## Main definitions

* `Heading`, `Mark`, `Binding`, `Inclusion` — what each kind of item holds.
* `Item` — an item of any kind.
* `SyntaxProblem`, `SyntaxError` — what can be wrong with a document, and where.
* `Module` — a document that has been read.
* `Cursor.locate?` — the item that a cursor selects, with its index: of those it touches the one
  with the shortest part to hit, the first of several.
* `Cursor.find?` — that item alone.
-/

namespace Quill

/-- A heading line. The span is the whole line without blanks at its ends, the title span what
stands behind the equals signs, without a comment. -/
structure Heading where
  level : Nat
  title : Text
  span : Span
  titleSpan : Span
  label : Option Text
  deriving DecidableEq, Repr

/-- A label `<name>`, a reference `@name` or a use `#name`. -/
structure Mark where
  name : Text
  span : Span
  nameSpan : Span
  deriving DecidableEq, Repr

/-- A binding line `#let name = value`. -/
structure Binding where
  name : Text
  value : Text
  span : Span
  nameSpan : Span
  valueSpan : Span
  deriving DecidableEq, Repr

/-- An inclusion line `#include "specifier"` with the document it names. -/
structure Inclusion where
  specifier : Text
  target : Uri
  span : Span
  pathSpan : Span
  deriving DecidableEq, Repr

inductive Item where
  | heading (h : Heading)
  | label (m : Mark)
  | reference (m : Mark)
  | binding (b : Binding)
  | use (m : Mark)
  | inclusion (i : Inclusion)
  deriving DecidableEq, Repr

namespace Item

def span : Item → Span
  | heading h => h.span
  | label m | reference m | use m => m.span
  | binding b => b.span
  | inclusion i => i.span

/-- The part of an item that a cursor has to touch to select it: the name of a binding, the title of
a heading, all of any other item. -/
def hitSpan : Item → Span
  | heading h => h.titleSpan
  | binding b => b.nameSpan
  | item => item.span

def inclusion? : Item → Option Inclusion
  | inclusion i => some i
  | _ => none

def label? : Item → Option Mark
  | label m => some m
  | _ => none

def binding? : Item → Option Binding
  | binding b => some b
  | _ => none

def heading? : Item → Option Heading
  | heading h => some h
  | _ => none

theorem exists_heading {i : Item} (some_ : i.heading? ≠ none) : ∃ h, i = heading h := by
  cases i with
  | heading h => exact ⟨h, rfl⟩
  | label | reference | binding | use | inclusion => exact absurd rfl some_

end Item

/-- The two signs that open and close emphasised text. -/
inductive Emphasis where
  | strong
  | emphasis
  deriving DecidableEq, Repr

def Emphasis.sign : Emphasis → UInt16
  | .strong => Text.unit '*'
  | .emphasis => Text.unit '_'

def Emphasis.name : Emphasis → Text
  | .strong => "strong"
  | .emphasis => "emphasis"

inductive SyntaxProblem where
  | unclosedDelimiter (e : Emphasis)
  | unterminatedString
  | expectedPath
  | emptyPath
  | expectedName
  | expectedEquals (name : Text)
  | misplacedDirective (name : Text)
  | emptyHeading
  deriving DecidableEq, Repr

namespace SyntaxProblem

def code : SyntaxProblem → Text
  | unclosedDelimiter _ => "unclosed-delimiter"
  | unterminatedString => "unterminated-string"
  | expectedPath => "expected-path"
  | emptyPath => "empty-path"
  | expectedName => "expected-name"
  | expectedEquals _ => "expected-equals"
  | misplacedDirective _ => "misplaced-directive"
  | emptyHeading => "empty-heading"

def message : SyntaxProblem → Text
  | unclosedDelimiter e => "unclosed " ++ e.name ++ " delimiter `" ++ [e.sign] ++ "`"
  | unterminatedString => "unterminated include path"
  | expectedPath => "expected a quoted path after `#include`"
  | emptyPath => "include path is empty"
  | expectedName => "expected a binding name after `#let`"
  | expectedEquals name => "expected `=` after `" ++ name ++ "`"
  | misplacedDirective name => "`#" ++ name ++ "` must start its own line"
  | emptyHeading => "heading has no title"

end SyntaxProblem

structure SyntaxError where
  problem : SyntaxProblem
  span : Span
  deriving DecidableEq, Repr

/-- A document that has been read: its items in order and its errors in the order of their
places. -/
structure Module where
  uri : Uri
  items : List Item
  errors : List SyntaxError
  deriving DecidableEq, Repr

namespace Module

def inclusions (m : Module) : List Inclusion := m.items.filterMap Item.inclusion?

def labels (m : Module) : List Mark := m.items.filterMap Item.label?

def bindings (m : Module) : List Binding := m.items.filterMap Item.binding?

end Module

theorem mem_inclusions_iff {m : Module} {i : Inclusion} :
    i ∈ m.inclusions ↔ .inclusion i ∈ m.items := by
  rw [Module.inclusions, List.mem_filterMap]
  constructor
  · rintro ⟨item, mem, eq⟩
    cases item with
    | inclusion j => exact Option.some.inj eq ▸ mem
    | heading | label | reference | binding | use => simp [Item.inclusion?] at eq
  · exact fun mem => ⟨_, mem, rfl⟩

end Quill

namespace Quill.Cursor

/-- The better of two items under one cursor: the shorter one, the first when they are equal. -/
def better (best item : Item × Nat) : Item × Nat :=
  if item.1.hitSpan.length < best.1.hitSpan.length then item else best

def shortest? : List (Item × Nat) → Option (Item × Nat)
  | [] => none
  | item :: rest => some (rest.foldl better item)

/-- The item that a cursor at `offset` selects, with its index. -/
def locate? (m : Module) (offset : Int) : Option (Item × Nat) :=
  shortest? (m.items.zipIdx.filter fun e => e.1.hitSpan.touches offset)

def find? (m : Module) (offset : Int) : Option Item := (locate? m offset).map Prod.fst

end Quill.Cursor
