import Quill.Engine.Operations
import Quill.Path.Folder
import Quill.Server.Message
import Quill.Server.ResponseError
import Quill.Server.Settings

/-!
# The server

The server stands between a client and an engine. It keeps no copy of the documents: what a client
sends goes to the engine, and what the engine gives out goes to the client in the words of the
protocol.

## Main definitions

* `Client` — what the other side answers when the server asks it for something.
* `Server` — the state.
* `ServerWork`, `ServerOutput` — what there is to be done, and what the server gives out.
* `Server.onEngine` — an operation of the engine as a step of the server.
-/

namespace Quill

/-- What the other side answers when it is asked. -/
structure Client where
  settings : Value := .null
  settingsFailure : Option Failure := none
  registrationFailure : Option Failure := none
  publishFailure : Option Failure := none

def Client.answer (c : Client) : Except Failure Value :=
  match c.settingsFailure with
  | some f => .error f
  | none => .ok c.settings

/-- What the client gets when the engine is done. -/
inductive Pending where
  | feature (name place : Text)
  | compile (uri : Text)

inductive ServerOutput where
  | line (level : LogLevel) (line : Text)
  /-- The client is asked for something. -/
  | asked (what : Text)
  | published (params : Value)
  /-- The answer to a request with this ticket. -/
  | replied (ticket : Nat) (r : Except ResponseError Value)

inductive ServerWork where
  | engine (w : EngineWork)
  /-- The engine has given something out. -/
  | heard (o : EngineOutput)
  | write (level : LogLevel) (line : Text)
  /-- The client has answered with its settings. -/
  | settingsCame (answer : Except Failure Value)
  | focus (uri : Text) (source : FocusSource)
  | ask (ticket : Nat) (q : Query) (token : Option Text)
  /-- A request has failed, and those who wait for it have heard. -/
  | failed (ticket : Nat) (f : Failure)

abbrev ServerAction := Action TimerKey ServerWork ServerOutput

structure Server where
  engine : Engine
  client : Client := {}
  /-- The library that reads the path of a folder from its uri. -/
  folderOf : Text → Except Failure Text := UriParts.folderOf
  /-- The folder of the client. -/
  folder : Option Text := none
  /-- Whether the client answers when it is asked for settings. -/
  pullsSettings : Bool := false
  /-- Whether one can register for changes of the settings of the client. -/
  registers : Bool := false
  settings : Settings := .default
  debug : DebugOutput := ⟨[], .pretty⟩
  /-- The requests that the engine is at work on, by ticket. -/
  pending : Dict Nat Pending := []

namespace Server

abbrev Step := Server × List ServerAction

def logMark : Text := "[quill-ls] "

def log (level : LogLevel) (line : Text) : ServerAction := .emit (.line level (logMark ++ line))

def logAll (line : Option (LogLevel × Text)) : List ServerAction :=
  line.toList.map fun l => log l.1 l.2

def ofEngine : EngineAction → ServerAction
  | .now w => .now (.engine w)
  | .later turns w => .later turns (.engine w)
  | .soon w => .soon (.engine w)
  | .setTimer key ms w => .setTimer key ms (.engine w)
  | .clearTimer key => .clearTimer key
  | .emit o => .now (.heard o)

def onEngine (s : Server) (f : Engine → Engine.Step) : Step :=
  let (engine, actions) := f s.engine
  ({ s with engine }, actions.map ofEngine)

def replyOf {α : Type} (s : Server) (f : Engine → EngineReply α) : α × Step :=
  let r := f s.engine
  (r.value, { s with engine := r.engine }, r.actions.map ofEngine)

def andThen (r : Step) (f : Server → Step) : Step :=
  let r' := f r.1
  (r'.1, r.2 ++ r'.2)

end Server

end Quill
