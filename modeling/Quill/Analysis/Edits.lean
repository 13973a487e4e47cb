import Quill.Analysis.Symbol
import Quill.Markup.Identifier
import Quill.Snapshot.Basic
import Quill.Text.Replacement

/-!
# Edits of documents

## Main definitions

* `Rename.target` — what would be renamed under a cursor.
* `Rename.refuses` — whether a symbol may have a name.
* `Rename.edits` — the edits that give a symbol another name wherever it occurs.
* `References.locations` — the places where a symbol occurs.
* `Formatting.edits` — at most one edit of an open document: the smallest one that yields the
  formatted text.
-/

namespace Quill

namespace Rename

def target (s : Snapshot) (uri : Uri) (n : Name) : RenameTarget := ⟨s.rangeOf uri n.span, n.name⟩

/-- Whether a symbol may not have a name: a use of a binding named like a directive would read as
the directive. -/
def refuses (n : Name) (newName : Text) : Bool :=
  n.kind = .binding && Directive.isReserved newName

def edit? (s : Snapshot) (newName : Text) (o : Occurrence) : Option DocumentEdit :=
  (s.document? o.uri).map fun d =>
    { uri := o.uri
      version := if d.origin = .memory then some d.version else none
      range := s.rangeOf o.uri o.span
      newText := newName }

def edits (s : Snapshot) (newName : Text) (occurrences : List Occurrence) :
    Except Failure (List DocumentEdit) :=
  EditList.validate (occurrences.filterMap (edit? s newName))

end Rename

namespace References

/-- The places of the occurrences; declarations are left out unless asked for. -/
def locations (s : Snapshot) (includeDeclaration : Bool) (occurrences : List Occurrence) :
    List Location :=
  (occurrences.filter fun o => includeDeclaration || !o.isDeclaration).map fun o =>
    ⟨o.uri, s.rangeOf o.uri o.span⟩

end References

namespace Formatting

def edits (doc : SnapshotDocument) (formatted : Text) : Except Failure (List DocumentEdit) :=
  match Replacement.between? doc.text formatted with
  | none => .ok []
  | some r =>
    EditList.validate
      [⟨doc.uri, some doc.version, (LineTable.ofText doc.text).rangeOf r.span, r.newText⟩]

end Formatting

end Quill
