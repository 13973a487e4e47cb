import Quill.Markup.Identifier
import Quill.Path.Posix
import Quill.Text.Blank
import Quill.Text.Lines

/-!
# Layout of a document

The formatter looks at one line at a time. A line is blank, a comment, a heading, a directive or
text; each kind has its own layout. Blanks at the end of lines go, runs of blank lines become one,
blank lines at either end go, and every line ends with the same line break: CR LF when the text has
one anywhere, LF otherwise.

## Main definitions

* `Layout.Kind`, `Layout.kindOf` — what a line is.
* `Layout.heading`, `Layout.directive?` — the layout of a heading and of a directive.
* `Layout.reflow` — text longer than the width, broken between words.
* `Layout.defaultWidth` — the width of text lines.
* `Layout.formatLines` — the lines of the result.
* `Layout.formatText` — the formatted text.
-/

namespace Quill.Layout

inductive Kind where
  | blank
  | heading
  | directive
  | comment
  | text
  deriving DecidableEq, Repr

/-- A line separator of Unicode. The rest of a line that the formatter moves may not hold one. -/
def isSeparator (u : UInt16) : Bool := u == 0x2028 || u == 0x2029

def restOfLine? (t : Text) : Option Text :=
  let rest := Text.trimStart t
  if rest.any isSeparator then none else some rest

def after? (head t : Text) : Option Text :=
  if t.startsWith head then some (t.drop head.length) else none

def binding? (line : Text) : Option (Text × Text) := do
  let t ← after? (Directive.keyword .binding) (Text.trimStart line)
  let u := Text.trimStart t
  if u.length = t.length then none
  let name ← Identifier.leading? u
  let value ← after? "=" (Text.trimStart (u.drop name.length))
  let value ← restOfLine? value
  some (name, value)

def inclusion? (line : Text) : Option (Text × Text) := do
  let t ← after? (Directive.keyword .inclusion) (Text.trimStart line)
  let u := Text.trimStart t
  if u.length = t.length then none
  let u ← after? "\"" u
  let path := u.takeWhile (· != Text.unit '"')
  let rest ← after? "\"" (u.drop path.length)
  let rest ← restOfLine? rest
  some (path, rest)

def spaced (a b : Text) : Text := if b.isEmpty then a else a ++ Text.unit ' ' :: b

def directive? (line : Text) : Option Text :=
  match binding? line with
  | some (name, value) => some (spaced (Directive.keyword .binding ++ " " ++ name ++ " =") value)
  | none =>
    match inclusion? line with
    | some (path, rest) =>
      some (spaced (Directive.keyword .inclusion ++ " \"" ++ path ++ "\"") rest)
    | none => none

/-- What a line is, its blanks at the end cut off. -/
def kindOf (line : Text) : Kind :=
  let t := Text.trimStart line
  if t.isEmpty then .blank
  else if t.startsWith "//" then .comment
  else if t.startsWith "=" then .heading
  else if (directive? line).isSome then .directive
  else .text

/-- The layout of a heading line: no indentation, one space behind the equals signs. -/
def heading (line : Text) : Text :=
  let t := Text.trimStart line
  let marks := t.takeWhile (· == Text.unit '=')
  match restOfLine? (t.drop marks.length) with
  | some title => spaced marks title
  | none => line

/-- Whether a word may stand first on a line of text without becoming markup. -/
def canStartLine (word : Text) : Bool :=
  !(word.startsWith "=" || word.startsWith (Directive.keyword .binding) ||
    word.startsWith (Directive.keyword .inclusion))

/-- Fill lines with words, given the line begun so far. A word goes to the next line when it would
end behind the width and may start a line. -/
def fill (indent : Nat) (width : Int) (current : Text) : List Text → List Text
  | [] => [current]
  | word :: rest =>
    if width < ((indent + current.length + 1 + word.length : Nat) : Int) && canStartLine word then
      current :: fill indent width word rest
    else fill indent width (current ++ Text.unit ' ' :: word) rest

/-- Whether two slashes stand anywhere in the line. -/
def hasComment (line : Text) : Bool := Text.occursIn "//" line

def reflow (width : Int) (line : Text) : List Text :=
  if (line.length : Int) ≤ width || hasComment line then [line]
  else
    let indent := line.take (line.length - (Text.trimStart line).length)
    match Text.words line with
    | [] => []
    | word :: rest => (fill indent.length width word rest).map (indent ++ ·)

/-- The lines that a line becomes, its blanks at the end cut off. -/
def format (width : Int) (line : Text) : List Text :=
  match kindOf line with
  | .blank => [[]]
  | .heading => [heading line]
  | .directive => [(directive? line).getD line]
  | .comment => [line]
  | .text => reflow width line

/-! ## Documents -/

/-- The width of text lines unless the settings say otherwise. -/
def defaultWidth : Nat := 80

def lineBreak (t : Text) : Text :=
  if Text.occursIn [Text.carriageReturn, Text.lineFeed] t then
    [Text.carriageReturn, Text.lineFeed]
  else [Text.lineFeed]

/-- Format lines one after another. A run of blank lines is held back until a line follows it;
`pending` says that one is held back, `started` that a line has been written. -/
def formatLines (width : Int) (pending started : Bool) : List Text → List Text
  | [] => []
  | raw :: rest =>
    let line := Text.trimEnd raw
    if line.isEmpty then formatLines width started started rest
    else
      (if pending then [[]] else []) ++ format width line ++ formatLines width false true rest

def formatText (width : Int) (t : Text) : Text :=
  let lines := formatLines width false false (t.lines.map Line.content)
  lines.flatMap (· ++ lineBreak t)

end Quill.Layout
