import Quill.Number.Basic
import Quill.Record.Engine
import Quill.Server.Basic
import Quill.Server.Protocol

/-!
# What the server does

## Main definitions

* `Server.apply` — new settings take effect; what they leave out goes back to its default.
* `Server.pull` — ask the client for its settings.
* `Server.hear` — what becomes of what the engine gives out.
* `Server.receive` — a message of the client.
* `Server.perform` — a piece of work.
-/

namespace Quill

namespace Server

/-! ## Settings -/

def configLine (c : EngineConfig) : Text :=
  let n (k : Nat) : Text := (Number.ofNat k).render
  "[config] debounce=" ++ n c.debounceMs ++ "ms workers=" ++ n c.limits.maxWorkers ++
    " restarts=" ++
    n c.limits.maxRestarts ++ " cache=" ++ n c.maxWeight ++ " formatter=" ++ c.formatterMode.word

/-- New settings take effect. What they leave out goes back to its default. -/
def apply (s : Server) (settings : Settings) : Step :=
  let s := { s with settings, debug := { s.debug with channels := .choose none settings.channels } }
  let patch := (EngineConfig.default.patch settings.engine).toPatch
  let (config, s, actions) := s.replyOf fun e => e.configure patch
  (s, actions ++ [log .info (configLine config)])

def pull (s : Server) : List ServerAction :=
  if s.pullsSettings then
    [.emit (.asked ("getConfiguration " ++ Settings.sectionName)),
      .later 0 (.settingsCame s.client.answer)]
  else []

def settingsCame (s : Server) (answer : Except Failure Value) : Step :=
  match answer with
  | .ok v => s.apply (.ofValue v)
  | .error f => (s, [log .warn ("[config] could not read settings: " ++ f.inLog)])

def register (s : Server) : List ServerAction :=
  if s.pullsSettings && s.registers then
    .emit (.asked "register workspace/didChangeConfiguration") ::
      s.client.registrationFailure.toList.map fun f =>
        .later 0 (.write .warn
          ("[config] could not register for configuration changes: " ++ f.inLog))
  else []

/-! ## Documents -/

/-- The outcome of a change of a document. A change that `isDropped` admits is dropped with a
warning. -/
def changed (what : Text) (isDropped : Failure → Bool) (r : Except Failure Uri × Step)
    (next : List ServerAction) : Except Failure Value × Step :=
  let (outcome, s, actions) := r
  match outcome with
  | .ok _ => (.ok .null, s, actions ++ next)
  | .error f =>
    if isDropped f then
      (.ok .null, s, actions ++ [log .warn ("[" ++ what ++ "] dropped: " ++ f.message)])
    else (.error f, s, actions)

def isUnknown : Failure → Bool
  | .unknownDocument _ => true
  | _ => false

/-- Whether a change came too late. -/
def isStale : Failure → Bool
  | .staleEdit .. => true
  | _ => false

def extension : Text := ".quill"

/-- Whether a change on the disk matters: documents that are open ignore the disk. -/
def isRelevant (s : Server) (uri : Text) : Bool :=
  uri.endsWith extension && !s.engine.store.has (Uri.ofInput uri)

def filesChanged (s : Server) (uris : List Text) : Step :=
  match uris.filter s.isRelevant with
  | [] => (s, [])
  | relevant =>
    let (s, actions) := s.onEngine Engine.refresh
    (s, log .log ("didChangeWatchedFiles: " ++ Text.ofNat relevant.length ++
      " quill file(s) changed on disk") :: actions)

/-! ## Commands -/

/-- The document that an argument of a command names, by itself or in a field. -/
def documentOf? : Value → Option Text
  | .text t => some t
  | .object fields => (Dict.get? fields "uri").bind Value.text?
  | _ => none

def optionalDocument (c : Command) (argument : Value) : Except ResponseError (Option Text) :=
  match argument with
  | .null | .undefined => .ok none
  | v =>
    match documentOf? v with
    | some uri => .ok (some uri)
    | none => .error (.uriExpected c)

def uriOrNull (u : Option Uri) : Value := Record.orNull Protocol.uri u

def pinMain (s : Server) (uri : Option Text) : Value × Step :=
  let (main, s, actions) := s.replyOf fun e => e.pinMain uri
  let line := match main with
    | some u => "pinned to " ++ u
    | none => "unpinned"
  (uriOrNull main, s, actions ++ [log .info ("[commands] main " ++ line)])

def focusMain (s : Server) (uri : Option Text) : Value × Step :=
  let (_, s, actions) := s.replyOf fun e => e.focusMain uri .command
  let focus := s.engine.publisher.focus
  (uriOrNull focus, s, actions ++ [log .info ("[commands] focus " ++ focus.getD "cleared")])

def info (s : Server) : Value :=
  .record (identity ++ [("workspaceRoot", Record.orNull .text s.folder)] ++ s.engine.statistics)

def countOf (c : Compiled) (severity : Severity) : Nat :=
  ((c.diagnostics.flatMap Prod.snd).filter fun d => d.severity = severity).length

def summary (c : Compiled) : Value :=
  .record
    [("entry", Protocol.uri c.artifact.entry),
      ("files", .array (c.artifact.files.map Protocol.uri)),
      ("diagnostics", .record ([Severity.error, .warning, .info, .hint].map fun v =>
        (v.name.toString, .nat (countOf c v))))]

def execute (s : Server) (ticket : Nat) (name : Text) (argument : Value) : Step :=
  let reply (r : Except ResponseError Value) : ServerAction := .emit (.replied ticket r)
  let done (r : Value × Step) : Step := (r.2.1, r.2.2 ++ [reply (.ok r.1)])
  match Command.ofName? name with
  | some .clearCache =>
    andThen (s.onEngine Engine.clearCache) fun s =>
      (s, [log .info "[commands] cache cleared", reply (.ok .null)])
  | some .pinMain =>
    match optionalDocument .pinMain argument with
    | .ok uri => done (s.pinMain uri)
    | .error e => (s, [reply (.error e)])
  | some .focusMain =>
    match optionalDocument .focusMain argument with
    | .ok uri => done (s.focusMain uri)
    | .error e => (s, [reply (.error e)])
  | some .getServerInfo => (s, [reply (.ok s.info)])
  | some .compile =>
    match documentOf? argument with
    | some uri =>
      { s with pending := Dict.put s.pending ticket (.compile uri) }.onEngine fun e =>
        e.compile ticket uri
    | none => (s, [reply (.error (.uriExpected .compile))])
  | none => (s, [reply (.error (.unknownCommand name))])

/-! ## What the engine gives out -/

def resultOf : Fact → Value
  | .answered a => Protocol.answer a.value
  | .compiled c => summary c
  | _ => .null

/-- How many turns it takes until a failure has passed through those who wait for a request. -/
def turnsToFail : Pending → Nat
  | .feature .. => 2
  | .compile _ => 1

def hear (s : Server) : EngineOutput → List ServerAction
  | .trace (.log level line) => [log level line]
  | .trace (.debug channel point data) =>
    (s.debug.line? channel point data).toList.map fun line => .emit (.line .log line)
  | .push uri version diagnostics =>
    .emit (.published (Protocol.publication uri version diagnostics)) ::
      s.client.publishFailure.toList.map fun f =>
        .later 0 (.write .error ("[diagnostics] publish failed for " ++ uri ++ ": " ++ f.inLog))
  | .answered ticket (.ok fact) => [.emit (.replied ticket (.ok (resultOf fact)))]
  | .answered ticket (.error f) =>
    (Dict.get? s.pending ticket).toList.map fun p => .later (turnsToFail p) (.failed ticket f)
  | .rested ticket => [.emit (.replied ticket (.ok .null))]
  | .said _ | .load _ => []

/-- A request has failed: what the log and the client are told. -/
def failed (s : Server) (ticket : Nat) (f : Failure) : List ServerAction :=
  match Dict.get? s.pending ticket with
  | some (.feature name place) =>
    logAll (f.report? name place) ++ [.emit (.replied ticket (.error (.ofFailure f)))]
  | some (.compile uri) =>
    logAll (f.compileReport? uri) ++ [.emit (.replied ticket (.error (.ofCompile f)))]
  | none => []

/-! ## Messages -/

def welcome (s : Server) (p : ClientProfile) : Except Failure Value × Step :=
  let s := { s with registers := p.takesRegistrations }
  match p.folder.mapM s.folderOf with
  | .error f => (.error f, s, [])
  | .ok folder =>
    let s := { s with folder, pullsSettings := p.answersSettings }
    let line := "initialize: root=" ++ folder.getD "<cwd>" ++ " engine=" ++
      s.engine.host.compiler.name
    let step : Step := match p.settings with
      | some v => s.apply (.ofValue v)
      | none => (s, [])
    (.ok (.record [("capabilities", capabilities), ("serverInfo", .record identity)]),
      step.1, log .info line :: step.2)

/-- Requests are answered later, under the ticket; all else is answered at once. -/
def receive (s : Server) (ticket : Nat) (token : Option Text) (m : Message) :
    Except Failure Value × Step :=
  match m with
  | .start p => s.welcome p
  | .initialized => (.ok .null, s, s.register ++ s.pull)
  | .shutdown => (.ok .null, s.onEngine Engine.dispose)
  | .didOpen uri text version language =>
    let (r, s, actions) := changed "didOpen" isStale
      (s.replyOf fun e => e.open uri text version language) [.now (.focus uri .open)]
    (r, s, log .log ("didOpen " ++ uri ++ " v" ++ Text.ofInt version) :: actions)
  | .didChange uri changes version =>
    changed "didChange" (fun f => isStale f || isUnknown f)
      (s.replyOf fun e => e.edit uri changes version) []
  | .didClose uri =>
    let (r, s, actions) := changed "didClose" isUnknown (s.replyOf fun e => e.close uri) []
    (r, s, log .log ("didClose " ++ uri) :: actions)
  | .didChangeConfiguration configuration =>
    let line := log .log "didChangeConfiguration: reloading settings"
    if s.pullsSettings then (.ok .null, s, line :: s.pull)
    else
      let (s, actions) := s.apply (.ofValue (Settings.sectionOf configuration))
      (.ok .null, s, line :: actions)
  | .didChangeWatchedFiles uris => (.ok .null, s.filesChanged uris)
  | .feature f =>
    let focus : List ServerAction := if f.focuses then [.now (.focus f.place .activity)] else []
    (.ok .null, { s with pending := Dict.put s.pending ticket (.feature f.name f.place) },
      focus ++ [.now (.ask ticket f.query token)])
  | .executeCommand name argument =>
    let (s, actions) := s.execute ticket name argument
    (.ok .null, s, log .log ("executeCommand " ++ name) :: actions)

def perform (now : Nat) (w : ServerWork) (s : Server) : Step :=
  match w with
  | .engine w => s.onEngine (Engine.perform now w)
  | .heard o => (s, s.hear o)
  | .write level line => (s, [log level line])
  | .settingsCame answer => s.settingsCame answer
  | .focus uri source => (s.replyOf fun e => e.focusMain (some uri) source).2
  | .ask ticket q token => s.onEngine fun e => e.ask ticket q token
  | .failed ticket f => (s, s.failed ticket f)

end Server

end Quill
