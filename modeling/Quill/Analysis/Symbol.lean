import Quill.Markup.Item
import Quill.Query.Answer
import Quill.Text.Order

/-!
# Symbols and where they occur

A symbol is a label or a binding; references and uses are occurrences of it too. A symbol means the
same in all documents that inclusions connect, whichever way they point.

## Main definitions

* `Name` — a symbol at a place; `Name.ofItem?` is the one that an item stands for.
* `Occurrence`, `Name.occurrencesIn` — where a symbol occurs in a document.
* `Inclusions.connected` — the documents that inclusions connect with one.
-/

namespace Quill

inductive NameKind where
  | label
  | binding
  deriving DecidableEq, Repr

structure Name where
  kind : NameKind
  name : Text
  span : Span
  deriving DecidableEq, Repr

/-- A place where a symbol is named; a declaration is where it is defined. -/
structure Occurrence where
  uri : Uri
  span : Span
  isDeclaration : Bool
  deriving DecidableEq, Repr

namespace Name

def ofItem? : Item → Option Name
  | .label m | .reference m => some ⟨.label, m.name, m.nameSpan⟩
  | .binding b => some ⟨.binding, b.name, b.nameSpan⟩
  | .use m => some ⟨.binding, m.name, m.nameSpan⟩
  | .heading _ | .inclusion _ => none

def at? (m : Module) (offset : Int) : Option Name := (Cursor.find? m offset).bind ofItem?

def declares : Item → Bool
  | .label _ | .binding _ => true
  | _ => false

def occurrencesIn (n : Name) (uri : Uri) (m : Module) : List Occurrence :=
  m.items.filterMap fun item =>
    match ofItem? item with
    | some found =>
      if found.kind = n.kind ∧ found.name = n.name then some ⟨uri, found.span, declares item⟩
      else none
    | none => none

end Name

namespace Inclusions

/-- The inclusions between the documents given, as pairs. -/
def links (modules : Dict Uri Module) : List (Uri × Uri) :=
  modules.flatMap fun e =>
    (e.2.inclusions.filter fun i => Dict.has modules i.target).map fun i => (e.1, i.target)

/-- The documents that one inclusion connects with a document. -/
def neighbours (links : List (Uri × Uri)) (uri : Uri) : List Uri :=
  links.filterMap fun l => if l.1 = uri then some l.2 else if l.2 = uri then some l.1 else none

/-- Search from the documents seen, at most `rounds` inclusions far. -/
def search (links : List (Uri × Uri)) : Nat → List Uri → List Uri
  | 0, seen => seen
  | rounds + 1, seen =>
    match ((seen.flatMap (neighbours links)).filter (!seen.contains ·)).eraseDups with
    | [] => seen
    | fresh => search links rounds (seen ++ fresh)

/-- The documents that inclusions connect with a document, in order; no way is longer than their
number. -/
def connected (modules : Dict Uri Module) (uri : Uri) : List Uri :=
  Text.sort (search (links modules) modules.length [uri])

end Inclusions

end Quill
