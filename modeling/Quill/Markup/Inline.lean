import Quill.Markup.Item
import Quill.Text.Blank

/-!
# Inline markup

Paragraph lines, titles and binding values are scanned for labels, references, uses and emphasis
signs. A backslash hides the unit behind it, two slashes start a comment that ends the scan.

## Main definitions

* `Inline.scan` — the items and errors of a run of text, and the emphasis signs left open.
* `Inline.beforeComment` — a run of text up to its comment.
* `Inline.withoutLabels` — a run of text with every label made a space.
-/

namespace Quill

structure OpenSign where
  emphasis : Emphasis
  offset : Nat
  deriving DecidableEq, Repr

structure Inline where
  items : List Item
  errors : List SyntaxError
  opened : List OpenSign
  deriving DecidableEq, Repr

namespace Inline

/-- The sign that hides the unit behind it. -/
abbrev backslash : UInt16 := 92

def startsComment (u : UInt16) (behind : Text) : Bool :=
  u == Posix.slash && behind.head? == some Posix.slash

/-- The name of a label whose opening bracket stands right before the text. -/
def labelName? (t : Text) : Option Text :=
  match Identifier.leading? t with
  | some name => if (t.drop name.length).head? == some (Text.unit '>') then some name else none
  | none => none

/-- The place of a mark of `extra` signs around its name, which starts one unit behind `offset`. -/
def markAt (offset : Nat) (name : Text) (closing : Nat) : Mark :=
  let stop := offset + 1 + name.length
  ⟨name, ⟨offset, stop + closing⟩, ⟨offset + 1, stop⟩⟩

/-- Close the innermost open sign of the same kind, or open a new one. -/
def toggle (opened : List OpenSign) (e : Emphasis) (offset : Nat) : List OpenSign :=
  if opened.any (·.emphasis == e) then
    (opened.reverse.eraseP (·.emphasis == e)).reverse
  else opened ++ [⟨e, offset⟩]

/-- Whether the sign between two units is an emphasis sign; an underscore inside a word is not. -/
def emphasis? (before : Option UInt16) (u : UInt16) (behind : Text) : Option Emphasis :=
  if u == Text.unit '*' then some .strong
  else if u == Text.unit '_' then
    if before.any Identifier.isWord && behind.head?.any Identifier.isWord then none
    else some .emphasis
  else none

def consItem (i : Item) (r : Inline) : Inline := { r with items := i :: r.items }

def consError (e : SyntaxError) (r : Inline) : Inline := { r with errors := e :: r.errors }

/-- Scan the text at `offset`. The first `skip` units belong to what was found before; `before` is
the unit in front of the text, `opened` the signs open there. -/
def scan (skip offset : Nat) (before : Option UInt16) (opened : List OpenSign) : Text → Inline
  | [] => ⟨[], [], opened⟩
  | u :: rest =>
    match skip with
    | skip + 1 => scan skip (offset + 1) (some u) opened rest
    | 0 =>
      if u == backslash then scan 1 (offset + 1) (some u) opened rest
      else if startsComment u rest then ⟨[], [], opened⟩
      else if u == Text.unit '<' then
        match labelName? rest with
        | some name =>
          consItem (.label (markAt offset name 1))
            (scan (name.length + 1) (offset + 1) (some u) opened rest)
        | none => scan 0 (offset + 1) (some u) opened rest
      else if u == Text.unit '@' then
        match Identifier.leading? rest with
        | some name =>
          consItem (.reference (markAt offset name 0))
            (scan name.length (offset + 1) (some u) opened rest)
        | none => scan 0 (offset + 1) (some u) opened rest
      else if u == Text.unit '#' then
        match Identifier.leading? rest with
        | some name =>
          let mark := markAt offset name 0
          let found := scan name.length (offset + 1) (some u) opened rest
          if Directive.isReserved name then
            consError ⟨.misplacedDirective name, mark.span⟩ found
          else consItem (.use mark) found
        | none => scan 0 (offset + 1) (some u) opened rest
      else
        match emphasis? before u rest with
        | some e => scan 0 (offset + 1) (some u) (toggle opened e offset) rest
        | none => scan 0 (offset + 1) (some u) opened rest

def unclosed (opened : List OpenSign) : List SyntaxError :=
  opened.map fun o => ⟨.unclosedDelimiter o.emphasis, ⟨o.offset, o.offset + 1⟩⟩

/-- The units up to the first comment; the first `skip` units are not looked at. -/
def beforeComment (skip : Nat) : Text → Text
  | [] => []
  | u :: rest =>
    match skip with
    | skip + 1 => u :: beforeComment skip rest
    | 0 =>
      if u == backslash then u :: beforeComment 1 rest
      else if startsComment u rest then []
      else u :: beforeComment 0 rest

/-- The text with every `<name>` made one space; the first `skip` units belong to such a label. -/
def withoutLabels (skip : Nat) : Text → Text
  | [] => []
  | u :: rest =>
    match skip with
    | skip + 1 => withoutLabels skip rest
    | 0 =>
      match if u == Text.unit '<' then labelName? rest else none with
      | some name => Text.unit ' ' :: withoutLabels (name.length + 1) rest
      | none => u :: withoutLabels 0 rest

end Inline

end Quill
