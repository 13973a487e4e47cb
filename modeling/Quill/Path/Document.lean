import Quill.Path.FileUri

/-!
# Identity of documents

A document is known by one text: a path for documents on disk, the uri itself for all others. The
identity of an input does not depend on how the client spells it.

## Main definitions

* `Uri` — the identity of a document.
* `Uri.ofInput` — the identity that an input names.
* `Uri.path?` — the path of a document on disk.
* `Uri.include` — the document that an include line names.
* `Uri.toProtocol` — the identity as a protocol uri.
* `Uri.display` — a document as seen from another one, for messages.
-/

namespace Quill

abbrev Uri := Text

namespace Uri

def isSchemeUnit (u : UInt16) : Bool :=
  FileUri.isLetter u || (48 ≤ u && u ≤ 57) || u == Text.unit '+' || u == Text.unit '.' ||
    u == Text.unit '-'

/-- Whether the text starts with a scheme of at least two units and a colon. -/
def hasScheme : Text → Bool
  | [] => false
  | u :: rest =>
    let tail := rest.dropWhile isSchemeUnit
    FileUri.isLetter u && tail.head? == some (Text.unit ':') && tail.length < rest.length

/-- Whether the text starts with a drive letter, a colon and a slash of either kind. -/
def hasDrive : Text → Bool
  | a :: b :: c :: _ => FileUri.isLetter a && b == Text.unit ':' && FileUri.isSlash c
  | _ => false

/-- Whether the text names a file: it is absolute, starts with a drive or has no scheme. -/
def isPathLike (t : Text) : Bool := Posix.isAbsolute t || hasDrive t || !hasScheme t

def withSlashes (t : Text) : Text := t.map fun u => if u == Text.unit '\\' then Posix.slash else u

def lowerDrive (t : Text) : Text :=
  if hasDrive t then
    match t with
    | a :: rest => FileUri.lower a :: rest
    | [] => []
  else t

/-- A path with forward slashes, a lower-case drive and its dots worked off. -/
def normalizePath (t : Text) : Text := Posix.normalize (lowerDrive (withSlashes t))

def stripFile (input : Text) : Text :=
  if input.startsWith FileUri.scheme then (FileUri.path? input).getD input else input

def ofInput (input : Text) : Uri :=
  let p := stripFile input
  if isPathLike p then normalizePath p else p

/-- The path of a document on disk; none for documents that live elsewhere. -/
def path? (u : Uri) : Option Text := if isPathLike u then some u else none

def beforeLastSlash? (t : Text) : Option Text :=
  match t.reverse.dropWhile (· != Posix.slash) with
  | [] => none
  | _ :: before => some before.reverse

/-- What a target of a document outside the file system is put behind: the directory of the
document, or its scheme when it has no slash. -/
def base (u : Uri) : Text :=
  match beforeLastSlash? u with
  | some directory => directory
  | none =>
    if u.contains (Text.unit ':') then u.takeWhile (· != Text.unit ':') ++ [Text.unit ':'] else []

def «include» (u : Uri) (target : Text) : Uri :=
  let spec := withSlashes target
  if Posix.isAbsolute spec || hasDrive spec then ofInput spec
  else
    let own := ofInput u
    match path? own with
    | some p => normalizePath (Posix.join (Posix.directory p) spec)
    | none =>
      let b := base u
      b ++ (if b.getLast? == some (Text.unit ':') then [] else [Posix.slash]) ++ spec

/-- The uri that the protocol uses for a document, where the uris of paths are those of `ofPath`. -/
def toProtocolBy (ofPath : Text → Text) (u : Uri) : Text := if isPathLike u then ofPath u else u

def toProtocol (u : Uri) : Text := toProtocolBy FileUri.ofPath u

def display (u other : Uri) : Text :=
  match path? (ofInput u), path? (ofInput other) with
  | some a, some b =>
    let way := Posix.relative (Posix.directory a) b
    if way.isEmpty then Posix.fileName b else way
  | _, _ => other

end Uri

end Quill
