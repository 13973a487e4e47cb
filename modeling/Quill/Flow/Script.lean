import Quill.Flow.Basic

/-!
# Scripted tasks

A script says step by step what a task does: what it has read, where it waits, and how it ends. With
scripts the scheduler can be driven without documents and compiles.

## Main definitions

* `ScriptStep` — the steps.
* `Script.flow` — an attempt of a scripted task.
-/

namespace Quill

/-- What a script says of a document that it reads; without a version, it is the current one. -/
structure ScriptRead where
  uri : Uri
  origin : Origin := .memory
  version : Option Int := none
  deriving DecidableEq, Repr

inductive ScriptStep where
  | read (entries : List ScriptRead) (scope : ReadScope)
  /-- Wait for a gate; an asterisk in its name stands for the number of the attempt. -/
  | gate (name : Text)
  | checkpoint
  | note (t : Text)
  | fail (f : Failure)
  /-- Fail in one attempt only. -/
  | failIn (attempt : Nat) (f : Failure)
  deriving DecidableEq, Repr

namespace Script

/-- The name of a gate in an attempt: the first asterisk is replaced by its number. -/
def gateName (attempt : Nat) : Text → Text
  | [] => []
  | u :: rest =>
    if u = Text.unit '*' then Text.ofNat attempt ++ rest else u :: gateName attempt rest

/-- The documents read, at their current versions where none are given. -/
def readEntries (m : Moment) (entries : List ScriptRead) : List ReadEntry :=
  entries.map fun e => ⟨e.uri, e.version.getD ((m.versionOf e.uri).getD 0), e.origin⟩

/-- The steps of a script, in order; at the end stands the name of the task with its attempt. -/
def steps (name : Text) (attempt : Nat) : List ScriptStep → Flow Fact
  | [] => .done (.ok (.text (name ++ "/" ++ Text.ofNat attempt)))
  | .read entries scope :: rest =>
    .look fun m => .declare (readEntries m entries) scope (steps name attempt rest)
  | .gate g :: rest => .gate (gateName attempt g) (steps name attempt rest)
  | .checkpoint :: rest => Flow.safePoint.bind fun _ => steps name attempt rest
  | .note t :: rest =>
    .look fun m => .say
      (name ++ "#" ++ Text.ofNat attempt ++ ":" ++ t ++ ":" ++
        (if m.cancelled.isSome then "true" else "false" : Text)) (steps name attempt rest)
  | .fail f :: _ => .fail f
  | .failIn n f :: rest => if n = attempt then .fail f else steps name attempt rest

def flow (name : Text) (body : List ScriptStep) (attempt : Nat) : Flow Fact :=
  .say (name ++ "#" ++ Text.ofNat attempt) (steps name attempt body)

end Script

/-- What the diagnostics of a root are planned to be: wait for a gate, then fail or come back with a
set. Without entries the root itself is the only one, at its current version and without
problems. -/
structure Plan where
  gate : Option Text := none
  fail : Option Failure := none
  entries : Option (Dict Uri DiagnosticEntry) := none
  dependencies : Option (List Uri) := none

namespace Plan

def set (p : Plan) (root : Uri) (m : Moment) : DiagnosticSet :=
  let entries := p.entries.getD [(root, ⟨(m.versionOf root).getD 0, .memory, []⟩)]
  { root
    fingerprint := []
    entries
    dependencies := p.dependencies.getD (Dict.keys entries) }

def finish (p : Plan) (root : Uri) : Flow Fact :=
  match p.fail with
  | some f => .fail f
  | none => .look fun m => .done (.ok (.answered ⟨.diagnostics (p.set root m), [], []⟩))

/-- The diagnostics of a root, as planned for each time they are computed; the last plan serves for
all further times. -/
def diagnose (plans : Dict Uri (List Plan)) (root : Uri) (n : Nat) : Flow Fact :=
  let all := (Dict.get? plans root).getD []
  let p := (all[n]?.orElse fun _ => all.getLast?).getD {}
  .say root <|
    match p.gate with
    | some name => .gate name (p.finish root)
    | none => p.finish root

end Plan

end Quill
