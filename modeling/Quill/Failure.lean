import Quill.Path.Document

/-!
# Failures

Everything that can end a call without an answer, as its cause. The wording is in one place.

## Main definitions

* `CancelReason` — why a cancellation was asked for.
* `Failure` — the causes; `Failure.message` is the wording, `Failure.name` the name in the log.
* `Failure.isReported` — the failures that the engine reports on purpose.
* `Failure.isAbandonment` — cancellation and supersession, which end a request without failing it.
-/

namespace Quill

inductive CancelReason where
  | client
  | closed
  | disposed
  | superseded
  | abandoned
  deriving DecidableEq, Repr, Inhabited

def CancelReason.word : CancelReason → Text
  | .client => "client"
  | .closed => "closed"
  | .disposed => "disposed"
  | .superseded => "superseded"
  | .abandoned => "abandoned"

inductive Failure where
  | unknownDocument (uri : Uri)
  | staleEdit (uri : Uri) (version current : Int)
  | editConflict (uri : Uri) (detail : Text)
  | cancelled (reason : CancelReason)
  | superseded (uri : Uri) (attempts : Nat)
  | computeFailure (entry : Uri) (cause : Text)
  | invalidRename (name : Text)
  | entryNotFound (uri : Uri)
  | missingEntry (uri : Uri)
  /-- An error with its message, raised by a reader of files or a compiler. -/
  | error (message : Text)
  /-- A plain text raised in place of an error. -/
  | raised (text : Text)
  deriving DecidableEq, Repr, Inhabited

namespace Failure

def message : Failure → Text
  | unknownDocument uri => "document is not open: " ++ uri
  | staleEdit uri version current =>
    "stale edit for " ++ uri ++ ": version " ++ Text.ofInt version ++ " is not newer than " ++
      Text.ofInt current
  | editConflict uri detail => "edits for " ++ uri ++ " no longer apply: " ++ detail
  | cancelled reason => "request cancelled (" ++ reason.word ++ ")"
  | superseded uri attempts =>
    "result invalidated by a newer version of " ++ uri ++ " after " ++ Text.ofNat attempts ++
      " attempt(s)"
  | computeFailure entry cause => "compile of " ++ entry ++ " failed: " ++ cause
  | invalidRename name => "`" ++ name ++ "` is not a valid name"
  | entryNotFound uri => "cannot compile " ++ uri ++ ": file not found"
  | missingEntry uri => "entry document is not part of the world: " ++ uri
  | error message => message
  | raised text => text

def name? : Failure → Option Text
  | unknownDocument _ => some "UnknownDocumentError"
  | staleEdit .. => some "StaleEditError"
  | editConflict .. => some "EditConflictError"
  | cancelled _ => some "CancelledError"
  | superseded .. => some "SupersededError"
  | computeFailure .. => some "ComputeFailureError"
  | invalidRename _ => some "InvalidRenameError"
  | entryNotFound _ => some "EntryNotFoundError"
  | missingEntry _ => some "MissingEntryError"
  | error _ => some "Error"
  | raised _ => none

/-- The kind of a failure that the engine reports on purpose. -/
def kind? : Failure → Option Text
  | unknownDocument _ => some "unknown-document"
  | staleEdit .. => some "stale-edit"
  | editConflict .. => some "edit-conflict"
  | cancelled _ => some "cancelled"
  | superseded .. => some "superseded"
  | computeFailure .. => some "compute-failure"
  | invalidRename _ => some "invalid-rename"
  | _ => none

/-- Whether the engine reports the failure on purpose; any other is a defect somewhere. -/
def isReported (f : Failure) : Bool := f.kind?.isSome

/-- Whether the failure ends a request without being one. -/
def isAbandonment : Failure → Bool
  | cancelled _ | superseded .. => true
  | _ => false

def inLog (f : Failure) : Text :=
  match f.name? with
  | some name => name ++ ": " ++ f.message
  | none => f.message

end Failure

end Quill
