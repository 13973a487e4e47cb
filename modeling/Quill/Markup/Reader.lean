import Quill.Data.Sort
import Quill.Markup.Inline
import Quill.Text.Lines

/-!
# Reading a document

The grammar is line oriented: every line is a heading, a directive, a comment, blank, or paragraph
text. Emphasis may run over the lines of one paragraph; blank lines, headings and directives end it.
Reading never fails: what is wrong is reported next to the items that could be read.

## Main definitions

* `LineRead` — what one line gives.
* `Module.readLine` — read one line, given the emphasis signs open before it.
* `Module.read` — read a whole document.
-/

namespace Quill

/-- What one line gives: items, errors, and the emphasis signs open behind it. -/
structure LineRead where
  items : List Item
  errors : List SyntaxError
  opened : List OpenSign
  deriving DecidableEq, Repr

namespace LineRead

/-- The line of a heading. `t` starts at `offset` with an equals sign. -/
def heading (offset : Nat) (t : Text) : List Item × List SyntaxError :=
  let marks := t.takeWhile (· == Text.unit '=')
  let tail := t.drop marks.length
  let gap := tail.takeWhile Text.isSpaceOrTab
  let start := offset + marks.length + gap.length
  let content := Text.trimEnd (Inline.beforeComment 0 (tail.drop gap.length))
  let inline := Inline.scan 0 start none [] content
  let title := Text.trim (Text.collapseBlanks false (Inline.withoutLabels 0 content))
  let span : Span := ⟨offset, offset + (Text.trimEnd t).length⟩
  let empty : List SyntaxError := if title.isEmpty then [⟨.emptyHeading, span⟩] else []
  let heading : Heading :=
    { level := marks.length, title, span, titleSpan := ⟨start, start + content.length⟩
      label := (inline.items.findSome? Item.label?).map Mark.name }
  (.heading heading :: inline.items, inline.errors ++ Inline.unclosed inline.opened ++ empty)

def binding (offset : Nat) (t : Text) : List Item × List SyntaxError :=
  let word := Directive.keyword .binding
  let tail := t.drop word.length
  let gap := tail.takeWhile Text.isSpaceOrTab
  match Identifier.leading? (tail.drop gap.length) with
  | none => ([], [⟨.expectedName, ⟨offset, offset + word.length⟩⟩])
  | some name =>
    let nameStart := offset + word.length + gap.length
    let nameSpan : Span := ⟨nameStart, nameStart + name.length⟩
    let tail := (tail.drop gap.length).drop name.length
    let gap := tail.takeWhile Text.isSpaceOrTab
    match tail.drop gap.length with
    | [] => ([], [⟨.expectedEquals name, nameSpan⟩])
    | u :: tail =>
      if u == Text.unit '=' then
        let equals := nameStart + name.length + gap.length
        let gap := tail.takeWhile Text.isSpaceOrTab
        let start := equals + 1 + gap.length
        let value := Text.trimEnd (Inline.beforeComment 0 (tail.drop gap.length))
        let inline := Inline.scan 0 start none [] value
        let stop := start + value.length
        (.binding ⟨name, value, ⟨offset, stop⟩, nameSpan, ⟨start, stop⟩⟩ :: inline.items,
          inline.errors ++ Inline.unclosed inline.opened)
      else ([], [⟨.expectedEquals name, nameSpan⟩])

def inclusion (uri : Uri) (offset : Nat) (t : Text) : List Item × List SyntaxError :=
  let word := Directive.keyword .inclusion
  let tail := t.drop word.length
  let gap := tail.takeWhile Text.isSpaceOrTab
  let quoteAt := offset + word.length + gap.length
  match tail.drop gap.length with
  | [] => ([], [⟨.expectedPath, ⟨offset, offset + word.length⟩⟩])
  | u :: tail =>
    if u == Text.unit '"' then
      let specifier := tail.takeWhile (· != Text.unit '"')
      if specifier.length = tail.length then
        ([], [⟨.unterminatedString, ⟨quoteAt, offset + t.length⟩⟩])
      else
        let start := quoteAt + 1
        let stop := start + specifier.length
        if (Text.trim specifier).isEmpty then ([], [⟨.emptyPath, ⟨quoteAt, stop + 1⟩⟩])
        else
          ([.inclusion ⟨specifier, uri.include specifier, ⟨offset, stop + 1⟩, ⟨start, stop⟩⟩], [])
    else ([], [⟨.expectedPath, ⟨offset, offset + word.length⟩⟩])

def opens (d : Directive) (t : Text) : Bool :=
  t.startsWith d.keyword && !(t.drop d.keyword.length).head?.any Identifier.isPart

end LineRead

namespace Module

def readLine (uri : Uri) (opened : List OpenSign) (line : Line) : LineRead :=
  let t := Text.trimStart line.content
  let offset := line.start + (line.content.length - t.length)
  let apart (read : List Item × List SyntaxError) : LineRead :=
    ⟨read.1, Inline.unclosed opened ++ read.2, []⟩
  if t.isEmpty then ⟨[], Inline.unclosed opened, []⟩
  else if t.startsWith "//" then ⟨[], [], opened⟩
  else if t.head? == some (Text.unit '=') then apart (LineRead.heading offset t)
  else if LineRead.opens .binding t then apart (LineRead.binding offset t)
  else if LineRead.opens .inclusion t then apart (LineRead.inclusion uri offset t)
  else
    let inline := Inline.scan 0 offset none opened t
    ⟨inline.items, inline.errors, inline.opened⟩

def readLines (uri : Uri) (opened : List OpenSign) : List Line → List Item × List SyntaxError
  | [] => ([], Inline.unclosed opened)
  | line :: others =>
    let first := readLine uri opened line
    let rest := readLines uri first.opened others
    (first.items ++ rest.1, first.errors ++ rest.2)

def read (uri : Uri) (t : Text) : Module :=
  let (items, errors) := readLines uri [] t.lines
  ⟨uri, items, sortBy (fun a b => a.span.le b.span) errors⟩

end Module

end Quill
