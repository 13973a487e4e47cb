import Quill.Engine.Operations

/-!
# Sessions

A session is an engine with its agenda. Operations are carried out one after another; after each of
them the engine may be left to come to rest.

## Main definitions

* `Session.act`, `Session.rest`, `Session.advance` — carry out an operation, come to rest, move the
  clock.
* `Session.collect` — what has been given out since the last time.
* `EngineOutput.line?`, `EngineOutput.end?` and the like — what is of interest in it.
-/

namespace Quill

abbrev Session := Machine Engine TimerKey EngineWork EngineOutput

namespace Session

def start (e : Engine) : Session := { state := e }

/-- Carry out an operation, with all that follows at once. -/
def act (f : Engine → Engine.Step) (s : Session) : Session :=
  let (e, actions) := f s.state
  Machine.act Engine.perform e actions s

def reply {α : Type} (f : Engine → EngineReply α) (s : Session) : α × Session :=
  let r := f s.state
  (r.value, Machine.act Engine.perform r.engine r.actions s)

/-- Change the engine where nothing follows. -/
def modify (f : Engine → Engine) (s : Session) : Session := { s with state := f s.state }

def rest (s : Session) : Session := Machine.rest Engine.perform s

def advance (ms : Nat) (s : Session) : Session := Machine.advance Engine.perform ms s

def collect (s : Session) : List EngineOutput × Session :=
  let (out, agenda) := s.agenda.collect
  (out, { s with agenda })

end Session

namespace EngineOutput

def line? : EngineOutput → Option (LogLevel × Text)
  | trace (.log level line) => some (level, line)
  | _ => none

def said? : EngineOutput → Option Text
  | said t => some t
  | _ => none

def load? : EngineOutput → Option Uri
  | load uri => some uri
  | _ => none

def push? : EngineOutput → Option (Uri × Option Int × List Diagnostic)
  | push uri version ds => some (uri, version, ds)
  | _ => none

/-- What has ended under a ticket; there is no outcome when everything has come to rest. -/
def end? : EngineOutput → Option (Nat × Option (Except Failure Fact))
  | answered ticket r => some (ticket, some r)
  | rested ticket => some (ticket, none)
  | _ => none

def debugLine? (d : DebugOutput) : EngineOutput → Option Text
  | trace (.debug channel point data) => d.line? channel point data
  | _ => none

end EngineOutput

end Quill
