import Quill.Text.Basic

/-!
# Slash-separated paths

## Main definitions

* `Posix.resolveDots` — the segments of a path with `.` and `..` worked off.
* `Posix.normalize` — the path with its dots worked off and its slashes single; a slash at the end
  stays.
* `Posix.join`, `Posix.directory`, `Posix.fileName` — put together and take apart.
* `Posix.absolute` — the path as seen from the root directory.
* `Posix.relative` — the way from one path to another.
-/

namespace Quill.Posix

abbrev slash : UInt16 := 47

def here : Text := "."

def parent : Text := ".."

def segments (p : Text) : List Text := (Text.split (· == slash) p).filter (!·.isEmpty)

def isAbsolute (p : Text) : Bool := p.head? == some slash

/-- Work off `.` and `..`. The kept segments are in reverse. A `..` with nothing left to drop is
kept when `above` allows it and dropped otherwise. -/
def resolveDotsAux (above : Bool) : List Text → List Text → List Text
  | kept, [] => kept.reverse
  | kept, s :: rest =>
    if s == here then resolveDotsAux above kept rest
    else if s == parent then
      match kept with
      | [] => resolveDotsAux above (if above then [s] else []) rest
      | last :: before =>
        if last == parent then resolveDotsAux above (s :: kept) rest
        else resolveDotsAux above before rest
    else resolveDotsAux above (s :: kept) rest

/-- The segments with `.` and `..` worked off. -/
def resolveDots (above : Bool) (ss : List Text) : List Text := resolveDotsAux above [] ss

/-- The path with its dots worked off and single slashes. -/
def normalize (p : Text) : Text :=
  if p.isEmpty then here
  else
    let rooted := isAbsolute p
    let trailing := p.getLast? == some slash
    let body := Text.join [slash] (resolveDots (!rooted) (segments p))
    if body.isEmpty then
      if rooted then [slash] else if trailing then here ++ [slash] else here
    else (if rooted then [slash] else []) ++ body ++ (if trailing then [slash] else [])

def join (a b : Text) : Text :=
  normalize (Text.join [slash] ([a, b].filter (!·.isEmpty)))

def dropSlashes (p : Text) : Text := (p.reverse.dropWhile (· == slash)).reverse

/-- The path up to its last segment, `.` when there is only one and `/` at the root. -/
def directory (p : Text) : Text :=
  match p with
  | [] => here
  | first :: rest =>
    -- The first unit never ends a directory, so it is set aside while the end is cut off.
    let cut := (dropSlashes rest).reverse.dropWhile (· != slash)
    match cut with
    | [] => if first == slash then [slash] else here
    | _ :: before =>
      if first == slash && before.isEmpty then [slash, slash] else first :: before.reverse

def fileName (p : Text) : Text :=
  ((dropSlashes p).reverse.takeWhile (· != slash)).reverse

/-- The segments of the path as seen from the root directory. -/
def absoluteSegments (p : Text) : List Text := resolveDots false (segments p)

/-- The path as seen from the root directory. -/
def absolute (p : Text) : Text := slash :: Text.join [slash] (absoluteSegments p)

def dropCommon : List Text → List Text → List Text × List Text
  | a :: as, b :: bs => if a == b then dropCommon as bs else (a :: as, b :: bs)
  | as, bs => (as, bs)

/-- The way from the directory `a` to `b`; empty when they are the same. -/
def relative (a b : Text) : Text :=
  let (up, down) := dropCommon (absoluteSegments a) (absoluteSegments b)
  Text.join [slash] (up.map (fun _ => parent) ++ down)

end Quill.Posix
