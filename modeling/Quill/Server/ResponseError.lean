import Quill.Engine.Trace
import Quill.Failure
import Quill.Server.Capabilities

/-!
# Errors as a client sees them

Failures that the engine reports on purpose have error codes of their own. Any other is logged and
becomes an internal error, so that the connection stays up.

## Main definitions

* `ResponseError` — an error code with a message.
* `ResponseError.ofFailure`, `ResponseError.ofCompile` — the error that stands for a failure.
* `Failure.report?` — the line that a failed query leaves in the log.
-/

namespace Quill

inductive ErrorCode where
  | invalidParams
  | methodNotFound
  | internalError
  | requestCancelled
  | contentModified
  deriving DecidableEq, Repr

def ErrorCode.number : ErrorCode → Int
  | .invalidParams => -32602
  | .methodNotFound => -32601
  | .internalError => -32603
  | .requestCancelled => -32800
  | .contentModified => -32801

structure ResponseError where
  code : ErrorCode
  message : Text
  deriving DecidableEq, Repr

def Failure.errorCode : Failure → ErrorCode
  | .cancelled _ => .requestCancelled
  | .superseded .. | .editConflict .. => .contentModified
  | .unknownDocument _ | .invalidRename _ => .invalidParams
  | _ => .internalError

/-- The line that a failed query leaves in the log. Cancellations, outdated results and refused
names are expected and leave none. -/
def Failure.report? (feature place : Text) (f : Failure) : Option (LogLevel × Text) :=
  match f with
  | .unknownDocument _ => some (.warn, "[" ++ feature ++ "] " ++ f.message)
  | _ =>
    if f.errorCode = .internalError then
      some (.error, "[" ++ feature ++ "] failed for " ++ place ++ ": " ++ f.inLog)
    else none

/-- The line that a failed compile leaves in the log; a missing document leaves none. -/
def Failure.compileReport? (uri : Text) (f : Failure) : Option (LogLevel × Text) :=
  match f with
  | .entryNotFound _ => none
  | _ =>
    some (.error, "[commands] " ++ Command.compile.name ++ " failed for " ++ uri ++ ": " ++ f.inLog)

namespace ResponseError

def ofFailure (f : Failure) : ResponseError := ⟨f.errorCode, f.message⟩

def ofCompile (f : Failure) : ResponseError :=
  match f with
  | .entryNotFound _ => ⟨.invalidParams, f.message⟩
  | _ => ⟨.internalError, f.message⟩

def uriExpected (c : Command) : ResponseError :=
  ⟨.invalidParams, c.name ++ " expects a document uri"⟩

def unknownCommand (name : Text) : ResponseError := ⟨.methodNotFound, "unknown command: " ++ name⟩

end ResponseError

end Quill
