import Quill.Failure
import Quill.Text.Order
import Quill.Text.Position

/-!
# Edits of documents

An answer that changes documents is a list of edits. Each edit says against which version of its
document it was computed, and it may only be delivered while the document is still there.

## Main definitions

* `DocumentEdit` — an edit of one document.
* `EditList.validate` — the edits in order, refused unless they can be made in one go.
* `EditList.verify` — refused unless every document is where the edits expect it.
-/

namespace Quill

/-- A text in place of a range. Edits of files that are not open have no version. -/
structure DocumentEdit where
  uri : Uri
  version : Option Int
  range : Range
  newText : Text
  deriving DecidableEq, Repr

namespace EditList

def le (a b : DocumentEdit) : Bool :=
  if a.uri = b.uri then a.range.start.le b.range.start else Text.le a.uri b.uri

def versionText : Option Int → Text
  | some v => Text.ofInt v
  | none => "null"

/-- Whether `b` may follow `a` in the sorted list: both are computed against one version, and `b`
does not start before `a` ends. -/
def checkPair (a b : DocumentEdit) : Except Failure Unit :=
  if a.uri ≠ b.uri then .ok ()
  else if a.version ≠ b.version then
    .error (.editConflict b.uri
      ("edits computed against versions " ++ versionText a.version ++ " and " ++
        versionText b.version))
  else if b.range.start.lt a.range.stop then .error (.editConflict b.uri "overlapping edits")
  else .ok ()

def checkPairs : List DocumentEdit → Except Failure Unit
  | a :: b :: rest =>
    match checkPair a b with
    | .ok () => checkPairs (b :: rest)
    | .error e => .error e
  | _ => .ok ()

/-- The edits sorted by document and start. Refused when two of one document were computed against
different versions or overlap. -/
def validate (edits : List DocumentEdit) : Except Failure (List DocumentEdit) :=
  let sorted := sortBy le edits
  match checkPairs sorted with
  | .ok () => .ok sorted
  | .error e => .error e

def checkCurrent (edit : DocumentEdit) (current : Option Int) : Except Failure Unit :=
  match edit.version, current with
  | none, none => .ok ()
  | none, some v =>
    .error (.editConflict edit.uri
      ("opened at version " ++ Text.ofInt v ++ " after the edits were computed"))
  | some _, none => .error (.editConflict edit.uri "closed after the edits were computed")
  | some expected, some v =>
    if v = expected then .ok ()
    else .error (.editConflict edit.uri
      ("now at version " ++ Text.ofInt v ++ ", edits target " ++ Text.ofInt expected))

/-- Refused unless every document is still where the edits expect it; the first one that has moved
is named. -/
def verify (versionOf : Uri → Option Int) : List DocumentEdit → Except Failure Unit
  | [] => .ok ()
  | edit :: rest =>
    match checkCurrent edit (versionOf edit.uri) with
    | .ok () => verify versionOf rest
    | .error e => .error e

end EditList

end Quill
