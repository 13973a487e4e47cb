import Quill.Path.Posix
import Quill.Path.Percent

/-!
# File uris

## Main definitions

* `FileUri.path?` — the path of a `file:` uri, read as the web reads it: backslashes are slashes,
  tabs and line breaks vanish, dots are worked off, a drive written with a bar gets its colon, query
  and fragment are dropped. Refused for a foreign host, an escaped slash and malformed escapes.
* `FileUri.ofPath` — the uri of a path.
-/

namespace Quill.FileUri

def scheme : Text := "file:"

def isControlOrSpace (u : UInt16) : Bool := u ≤ 0x20

/-- Tab, line feed and carriage return, which are dropped wherever they stand. -/
def isDropped (u : UInt16) : Bool := u == 9 || u == 10 || u == 13

def isSlash (u : UInt16) : Bool := u == Posix.slash || u == Text.unit '\\'

def endsPath (u : UInt16) : Bool := u == Text.unit '?' || u == Text.unit '#'

def isLetter (u : UInt16) : Bool := (65 ≤ u && u ≤ 90) || (97 ≤ u && u ≤ 122)

/-- The lower-case form of an ASCII letter. -/
def lower (u : UInt16) : UInt16 := if 65 ≤ u && u ≤ 90 then u + 32 else u

def body (uri : Text) : Text :=
  let cleaned := (uri.dropWhile isControlOrSpace).reverse.dropWhile isControlOrSpace
  let cleaned := cleaned.reverse.filter (!isDropped ·)
  (cleaned.drop scheme.length).takeWhile (!endsPath ·)

def isDrive : Text → Bool
  | [a, b] => isLetter a && (b == Text.unit ':' || b == Text.unit '|')
  | _ => false

def isNormalDrive : Text → Bool
  | [a, b] => isLetter a && b == Text.unit ':'
  | _ => false

/-- A segment with every escaped dot read as a dot. -/
def plainDots : Text → Text
  | u :: a :: b :: rest =>
    if u == Percent.sign && a == Text.unit '2' && lower b == Text.unit 'e' then
      Text.unit '.' :: plainDots rest
    else u :: plainDots (a :: b :: rest)
  | short => short

/-- Work off the segments of the path; `kept` holds those before, in reverse. A drive that stands
first is not dropped by `..`. -/
def resolveSegments : List Text → List Text → List Text
  | kept, [] => kept.reverse
  | kept, s :: rest =>
    let last := rest.isEmpty
    let dots := plainDots s
    if dots == Posix.parent then
      let shorter := match kept with
        | [] => []
        | [only] => if isNormalDrive only then kept else []
        | _ :: before => before
      resolveSegments (if last then [] :: shorter else shorter) rest
    else if dots == Posix.here then resolveSegments (if last then [] :: kept else kept) rest
    else if kept.isEmpty && isDrive s then
      resolveSegments [s.take 1 ++ [Text.unit ':']] rest
    else resolveSegments (s :: kept) rest

def hostAndPath (b : Text) : Text × Text :=
  match b with
  | x :: y :: rest =>
    if isSlash x && isSlash y then
      let host := rest.takeWhile (!isSlash ·)
      if isDrive host then ([], rest)
      else (host, (rest.dropWhile (!isSlash ·)).drop 1)
    else if isSlash x then ([], y :: rest)
    else ([], b)
  | [x] => if isSlash x then ([], []) else ([], b)
  | [] => ([], [])

/-- The letters of alphabets that stand for the plain ones, each with its first letter: full width,
in circles, in squares, and those of mathematics. -/
def alphabets : List Nat :=
  [0xFF21, 0xFF41, 0x24B6, 0x24D0, 0x1F130] ++ (List.range 26).map fun k => 0x1D400 + 26 * k

/-- The places in the alphabets of mathematics that are not taken, among those of the letters of a
local host. -/
def missingLetters : List Nat :=
  [0x1D455, 0x1D4A3, 0x1D4A7, 0x1D4C4, 0x1D506, 0x1D50B, 0x1D53A, 0x1D53F]

/-- Characters outside the alphabets, with the letters that they stand for. Only what can stand in
the name of a local host is listed. -/
def letterlike : List (String × List Nat) :=
  [("a", [0xAA, 0x1D2C, 0x1D43, 0x2090]),
    ("c", [0x1D9C, 0x2102, 0x212D, 0x216D, 0x217D, 0xA7F2, 0x1F12B]),
    ("h", [0x2B0, 0x1D34, 0x2095, 0x210B, 0x210C, 0x210D, 0x210E]),
    ("l", [0x2E1, 0x1D38, 0x2097, 0x2112, 0x2113, 0x216C, 0x217C]),
    ("o", [0xBA, 0x1D3C, 0x1D52, 0x2092, 0x2134]), ("s", [0x17F, 0x2E2, 0x209B]),
    ("t", [0x1D40, 0x1D57, 0x209C]), ("cal", [0x3388]), ("st", [0xFB05, 0xFB06])]

/-- Characters that vanish from the name of a host. -/
def isIgnored (c : Nat) : Bool :=
  [0xAD, 0x34F, 0x180B, 0x180C, 0x180D, 0x180F, 0x200B, 0x2060, 0x2064, 0xFEFF].contains c ||
    (0xFE00 ≤ c && c ≤ 0xFE0F) || (0x1BCA0 ≤ c && c ≤ 0x1BCA3) || (0xE0100 ≤ c && c ≤ 0xE01EF)

/-- What a character stands for in the name of a host. -/
def hostLetters (c : Char) : List Char :=
  let n := c.toNat
  if isIgnored n then []
  else
    match letterlike.find? (·.2.contains n), alphabets.find? fun first =>
      first ≤ n && n < first + 26 with
    | some (letters, _), _ => letters.toList
    | none, some first => if missingLetters.contains n then [c] else [Char.ofNat (97 + (n - first))]
    | none, none => [c.toLower]

def isLocal (host : Text) : Bool :=
  host.isEmpty || (Percent.decode? host).any fun h =>
    h.chars.flatMap hostLetters == "localhost".toList

def hasEscapedSlash : Text → Bool
  | u :: a :: b :: rest =>
    (u == Percent.sign && a == Text.unit '2' && lower b == Text.unit 'f') ||
      hasEscapedSlash (a :: b :: rest)
  | _ => false

/-- The path of a `file:` uri. A surrogate without its partner reads as U+FFFD. -/
def path? (uri : Text) : Option Text :=
  let (host, rest) := hostAndPath (body uri.repaired)
  if !isLocal host then none
  else
    let path := Posix.slash ::
      Text.join [Posix.slash] (resolveSegments [] (Text.split isSlash rest))
    if hasEscapedSlash path then none else Percent.decode? path

/-- The octets that stand for themselves in the uri of a path. -/
def isPlain (o : UInt8) : Bool :=
  (65 ≤ o && o ≤ 90) || (97 ≤ o && o ≤ 122) || (48 ≤ o && o ≤ 57) ||
    ("/!$&'()*+,-.:;=@_".toList.any fun c => c.val.toUInt8 == o)

/-- A control unit that vanishes at the end of a uri; the others are written as escapes. -/
def isDroppedAtEnd (u : UInt16) : Bool := u < 0x20 && u != 0 && !isDropped u

/-- A path as seen from the root directory; a slash at the end stays. -/
def resolved (p : Text) : Text :=
  let full := Posix.absolute p
  if p.getLast? == some Posix.slash && full.getLast? != some Posix.slash then full ++ [Posix.slash]
  else full

def ofPath (p : Text) : Text :=
  let full := ((resolved p).reverse.dropWhile isDroppedAtEnd).reverse
  let segments := Text.split (· == Posix.slash) (Percent.encode isPlain (full.drop 1))
  scheme ++ "///" ++ Text.join [Posix.slash] (resolveSegments [] segments)

end Quill.FileUri
