import Quill.Compile.Resolution
import Quill.Layout.Document
import Quill.Markup.Includes

/-!
# Compilers

The engine works with any compiler of the language; all it needs is here. A compiler answers alike
for like arguments, which is what makes keeping its answers sound.

## Main definitions

* `Compiler` — reading, include scanning, compiling and formatting.
* `Compiler.quill` — the compiler of this library, which never fails but for a missing entry.
* `Compiler.withFaults` — a compiler that fails on texts holding a marker.
-/

namespace Quill

/-- What the engine asks of a compiler. -/
structure Compiler where
  name : Text
  read : Uri → Text → Except Failure Module
  targets : Uri → Text → Except Failure (List Uri)
  compile : World → Except Failure Compiled
  format : Int → Text → Except Failure Text

/-- Markers that make a compiler fail. -/
structure Faults where
  read : Option Text := none
  scan : Option Text := none
  compile : Option Text := none
  format : Option Text := none
  /-- Whether a plain text is raised in place of an error. -/
  plain : Bool := false
  deriving DecidableEq, Repr

namespace Faults

def failure (f : Faults) (what : Text) : Failure :=
  let message := what ++ " fault"
  if f.plain then .raised message else .error message

def guard {α : Type} (f : Faults) (what : Text) (marker : Option Text) (t : Text)
    (next : Except Failure α) : Except Failure α :=
  if marker.any fun m => Text.occursIn m t then .error (f.failure what) else next

end Faults

namespace Compiler

def quill : Compiler where
  name := "quill"
  read uri t := .ok (Module.read uri t)
  targets uri t := .ok (Includes.targets uri t)
  compile w := w.compile?
  format width t := .ok (Layout.formatText width t)

/-- A compiler that fails on texts holding a marker; a compile looks at the text of the entry. -/
def withFaults (c : Compiler) (f : Faults) : Compiler where
  name := "faulty"
  read uri t := f.guard "parse" f.read t (c.read uri t)
  targets uri t := f.guard "scan" f.scan t (c.targets uri t)
  compile w :=
    match w.source? w.entry with
    | some s => f.guard "compile" f.compile s.text (c.compile w)
    | none => c.compile w
  format width t := f.guard "format" f.format t (c.format width t)

end Compiler

end Quill
