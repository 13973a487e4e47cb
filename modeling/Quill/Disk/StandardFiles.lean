import Quill.Path.Document

/-!
# Loading files from a disk

The loader of files that are not open asks the system for the text at the path of a uri. What is
missing reads as absent, and so does a directory; every other error is passed on.

What a system has at a path is its own affair. Some paths can be read without knowing the machine,
though: the directories that every system has, the null device, which is empty, and names that no
file can have. Everything else is taken to be missing.

## Main definitions

* `DiskError` — why a path cannot be read.
* `FileSystem.load` — the loader, over any system.
* `StandardFiles.readFile` — what every system has.
-/

namespace Quill

inductive DiskError where
  | notFound
  | isDirectory
  | notDirectory
  | nameTooLong
  | nulInPath
  deriving DecidableEq, Repr

namespace DiskError

def code : DiskError → Text
  | .notFound => "ENOENT"
  | .isDirectory => "EISDIR"
  | .notDirectory => "ENOTDIR"
  | .nameTooLong => "ENAMETOOLONG"
  | .nulInPath => "ERR_INVALID_ARG_VALUE"

def isMissing : DiskError → Bool
  | .notFound | .isDirectory | .notDirectory => true
  | .nameTooLong | .nulInPath => false

end DiskError

/-- What a system reads at a path. -/
abbrev FileSystem := Text → Except DiskError Text

/-- The text of a document, none when it names no file or one that is missing. -/
def FileSystem.load (readFile : FileSystem) (uri : Uri) : Except DiskError (Option Text) :=
  match Uri.path? (Uri.ofInput uri) with
  | none => .ok none
  | some path =>
    match readFile path with
    | .ok text => .ok (some text)
    | .error e => if e.isMissing then .ok none else .error e

namespace StandardFiles

/-- The greatest number of octets in a name. -/
def maxName : Nat := 255

/-- One more than the greatest number of octets in a path. -/
def pathBound : Nat := 4096

def directories : List (List Text) :=
  [[], ["bin"], ["dev"], ["etc"], ["home"], ["lib"], ["opt"], ["proc"], ["root"], ["run"],
    ["sbin"], ["sys"], ["tmp"], ["usr"], ["usr", "bin"], ["usr", "lib"], ["usr", "local"],
    ["usr", "share"], ["var"], ["var", "lib"], ["var", "log"], ["var", "tmp"]]

def isNullDevice (names : List Text) : Bool := names = ([("dev" : Text), "null"])

/-- Walk on from `walked`. A name that is too long is noticed when it is looked up, which it is not
below something that is no directory. -/
def walk (walked : List Text) : List Text → Except DiskError Text
  | [] =>
    if directories.contains walked then .error .isDirectory
    else if isNullDevice walked then .ok []
    else .error .notFound
  | name :: rest =>
    if directories.contains walked then
      if maxName < name.utf8.length then .error .nameTooLong else walk (walked ++ [name]) rest
    else .error (if isNullDevice walked then .notDirectory else .notFound)

/-- Whether a name of a normalized path stays where one is; above the root there is only the
root. -/
def isIdle (name : Text) : Bool := name = [] || name = (".." : Text) || name = ("." : Text)

def readFile : FileSystem := fun path =>
  if path.contains 0 then .error .nulInPath
  else if pathBound ≤ path.utf8.length then .error .nameTooLong
  else walk [] ((Text.split (· == Text.unit '/') path).filter fun n => !isIdle n)

def read (uri : Uri) : Except DiskError (Option Text) := readFile.load uri

end StandardFiles

end Quill
