import Quill.Debug.Channel

/-!
# What parts of the engine report

The parts of the engine are values and operations on them. What an operation wants written is part
of its result, in the order in which it is to be written.

## Main definitions

* `LogLevel` — the levels of the log.
* `Trace` — a line for the log, or a point of a debug channel with its data.
-/

namespace Quill

inductive LogLevel where
  | log
  | info
  | warn
  | error
  deriving DecidableEq, Repr

def LogLevel.word : LogLevel → Text
  | .log => "log"
  | .info => "info"
  | .warn => "warn"
  | .error => "error"

inductive Trace where
  | log (level : LogLevel) (line : Text)
  | debug (channel : Channel) (point : String) (data : List (String × Value))
  deriving Repr

/-- The part of a fingerprint that is shown in debug lines. -/
def shortFingerprint (fingerprint : Text) : Value := .text (fingerprint.take 12)

def uriValue : Option Text → Value
  | some u => .text u
  | none => .null

end Quill
