import Quill.Data.Dict
import Quill.Failure

/-!
# Files that are not open

## Main definitions

* `Disk` — what every file holds now, and the files whose reads have to wait.
* `Disk.read` — what a read finds; nothing, when there is no such file.
-/

namespace Quill

/-- What a file holds: its text, or the message of the error that reading it gives. -/
abbrev FileContent := Except Text Text

/-- The files, and those whose reads have to wait. -/
structure Disk where
  files : Dict Uri FileContent := []
  held : List Uri := []

namespace Disk

def read (d : Disk) (uri : Uri) : Except Failure (Option Text) :=
  match Dict.get? d.files uri with
  | none => .ok none
  | some (.ok text) => .ok (some text)
  | some (.error message) => .error (.error message)

def isHeld (d : Disk) (uri : Uri) : Bool := d.held.contains uri

def write (d : Disk) (uri : Uri) (content : Option FileContent) : Disk :=
  match content with
  | some c => { d with files := Dict.put d.files uri c }
  | none => { d with files := Dict.erase d.files uri }

def hold (d : Disk) (uri : Uri) : Disk :=
  if d.isHeld uri then d else { d with held := uri :: d.held }

def free (d : Disk) (uri : Uri) : Disk := { d with held := d.held.filter (· ≠ uri) }

end Disk

end Quill
