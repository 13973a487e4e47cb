import Quill.Failure
import Quill.Path.FileUri

/-!
# Folders of a client

A client names the folder it works in by a uri of any scheme. A library reads it; the one that is
used is the default of the server, which takes any other.

## Main definitions

* `UriParts` — the scheme, the authority and the path of a uri; `UriParts.ofText?` reads and checks
  them.
* `UriParts.folderOf` — the path of the folder that a uri names.
-/

namespace Quill

structure UriParts where
  scheme : Text
  authority : Text
  path : Text
  deriving DecidableEq, Repr

namespace UriParts

def endsAuthority (u : UInt16) : Bool := u == Posix.slash || FileUri.endsPath u

def endsScheme (u : UInt16) : Bool := u == Text.unit ':' || endsAuthority u

def splitScheme (t : Text) : Text × Text :=
  let scheme := t.takeWhile (!endsScheme ·)
  match scheme, t.drop scheme.length with
  | _ :: _, u :: rest => if u == Text.unit ':' then (scheme, rest) else ([], t)
  | _, _ => ([], t)

def splitAuthority (t : Text) : Text × Text :=
  match t with
  | u :: v :: rest =>
    if u == Posix.slash && v == Posix.slash then
      (rest.takeWhile (!endsAuthority ·), rest.dropWhile (!endsAuthority ·))
    else ([], t)
  | short => ([], short)

def isRooted (scheme : Text) : Bool :=
  scheme == ("file" : Text) || scheme == ("http" : Text) || scheme == ("https" : Text)

def rooted (scheme path : Text) : Text :=
  if isRooted scheme && !Posix.isAbsolute path then Posix.slash :: path else path

def ofText (t : Text) : UriParts :=
  let (scheme, rest) := splitScheme t
  let (authority, rest) := splitAuthority rest
  let scheme := if scheme.isEmpty then ("file" : Text) else scheme
  { scheme
    authority := Percent.decodeLenient authority
    path := rooted scheme (Percent.decodeLenient (rest.takeWhile (!FileUri.endsPath ·))) }

def isWordUnit (u : UInt16) : Bool := Percent.isAlphanumeric u || u == Text.unit '_'

def isScheme : Text → Bool
  | [] => false
  | u :: rest =>
    isWordUnit u && rest.all fun v => isWordUnit v || ("+.-" : Text).contains v

def ofText? (t : Text) : Except Failure UriParts :=
  let p := ofText t
  if !isScheme p.scheme then .error (.error "[UriError]: Scheme contains illegal characters.")
  else if p.authority.isEmpty && p.path.startsWith "//" then
    .error (.error <| "[UriError]: If a URI does not contain an authority component, " ++
      "then the path cannot begin with two slash characters (\"//\")")
  else .ok p

/-- The path of the folder that a uri names. A folder on another machine starts with its name, and
the letter of a drive is in lower case without a slash in front. -/
def folder (p : UriParts) : Text :=
  if !p.authority.isEmpty && 1 < p.path.length && p.scheme == ("file" : Text) then
    "//" ++ p.authority ++ p.path
  else
    match p.path with
    | slash :: letter :: colon :: rest =>
      if slash == Posix.slash && FileUri.isLetter letter && colon == Text.unit ':' then
        FileUri.lower letter :: colon :: rest
      else p.path
    | path => path

def folderOf (t : Text) : Except Failure Text := (ofText? t).map folder

end UriParts

end Quill
