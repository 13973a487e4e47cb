import Quill.Engine.Perform

/-!
# What an engine offers

Every operation yields its reply at once, with the engine after it and what follows. Outcomes that
take time are given out later, under the ticket that the operation was given.

## Main definitions

* `Engine.open`, `Engine.edit`, `Engine.close` — changes of documents.
* `Engine.ask`, `Engine.compile`, `Engine.run`, `Engine.cancelToken` — requests.
* `Engine.configure`, `Engine.pinMain`, `Engine.focusMain`, `Engine.refresh` — what is computed.
* `Engine.settle`, `Engine.stats`, `Engine.dispose` — watching and ending an engine.
-/

namespace Quill

structure EngineReply (α : Type) where
  engine : Engine
  actions : List EngineAction := []
  value : α

structure EngineStats where
  compiler : Text
  documents : Nat
  leasedSnapshots : Nat
  main : Option Uri
  focus : Option Uri

/-- What asks for another focus: the user, the opening of a document, or its use. -/
inductive FocusSource where
  | command
  | open
  | activity
  deriving DecidableEq, Repr

def FocusSource.word : FocusSource → Text
  | .command => "command"
  | .open => "open"
  | .activity => "activity"

namespace Engine

/-! ## Documents -/

/-- The parts of the engine hear of a change before the change is over: the scheduler first. -/
def afterStore (e : Engine) (r : StoreResult) : EngineReply (Except Failure Uri) :=
  let e := { e with store := r.store }
  match r.outcome with
  | .error f => { engine := e, actions := traces r.traces, value := .error f }
  | .ok event =>
    if e.isDisposed then { engine := e, actions := traces r.traces, value := .ok event.uri }
    else
      let (e, actions) := e.schedule (Scheduler.invalidate event)
      { engine := e
        actions := traces r.traces ++ actions ++ [.now (.changed event)]
        value := .ok event.uri }

def «open» (e : Engine) (uri text : Text) (version : Int) (language : Option Text) :
    EngineReply (Except Failure Uri) :=
  e.afterStore (e.store.open uri text version (language.getD Store.defaultLanguage))

def edit (e : Engine) (uri : Text) (changes : List ContentChange) (version : Int) :
    EngineReply (Except Failure Uri) :=
  e.afterStore (e.store.edit uri changes version e.host.library.1)

def close (e : Engine) (uri : Text) : EngineReply (Except Failure Uri) :=
  e.afterStore (e.store.close uri)

/-! ## Requests -/

/-- Submit a task on behalf of a caller with a token, if it has one. The outcome is given out under
the ticket. -/
def submitFor (e : Engine) (ticket : Nat) (spec : TaskSpec) (f : Nat → Flow Fact)
    (token : Option Text) : Step :=
  let id := e.scheduler.nextTask
  let submitted := e.submitted ++ token.toList.map fun t => (t, id)
  { e with submitted }.submit spec (.flow f) (.request ticket)
    (token.bind fun t => Dict.get? e.tokens t)

/-- Answer a query on behalf of a caller. A document that it is about must be open. -/
def ask (e : Engine) (ticket : Nat) (q : Query) (token : Option Text) : Step :=
  match q.target.filter fun uri => !e.store.has uri with
  | some uri => (e, [.emit (.answered ticket (.error (.unknownDocument uri)))])
  | none =>
    e.submitFor ticket ⟨q.question.word, .interactive, q.target⟩
      (fun _ => q.run.bind fun a => .done (.ok (.answered a))) token

/-- Run a flow by itself. The outcome is given out under the ticket. -/
def run (e : Engine) (ticket : Nat) (f : Flow Fact) : Step := (e, [.now (.go (.errand ticket) f)])

def cancelToken (e : Engine) (token : Text) (reason : CancelReason) : Step :=
  if Dict.has e.tokens token then (e, [])
  else
    let tasks := (e.submitted.filter fun s => s.1 = token).map Prod.snd
    { e with tokens := Dict.put e.tokens token reason }.schedule
      (Scheduler.forEach (Scheduler.cancel reason) tasks)

/-- A single compile that keeps nothing. The outcome is given out under the ticket. -/
def compile (e : Engine) (ticket : Nat) (uri : Text) : Step :=
  (e, [.now (.compileNext ticket (.start (Uri.ofInput (Uri.ofInput uri)) e.config.compile))])

/-! ## What is computed -/

def refresh (e : Engine) : Step :=
  e.publish fun w => Publisher.forEach (Publisher.trigger w) e.store.all

/-- Change the configuration. When the settings of compiles change, all diagnostics are computed
again. -/
def configure (e : Engine) (p : ConfigPatch) : EngineReply EngineConfig :=
  let config := e.config.patch p
  let hash (s : CompileSettings) : Text := e.host.digest.ofValue (FingerprintInput.settingsValue s)
  let changed := hash e.config.compile != hash config.compile
  let (cache, ts) := e.cache.setMaxWeight (.ofNat config.maxWeight)
  let e := { e with config, settings := config.compile, cache }
  let (e, actions) := if changed then e.refresh else (e, [])
  { engine := e
    actions := traces (ts ++ [.debug .server "configure" [("compileChanged", .bool changed)]]) ++
      actions
    value := config }

/-- Make a document the root of all that it includes, or no document. -/
def pinMain (e : Engine) (uri : Option Text) : EngineReply (Option Uri) :=
  let main := uri.map Uri.ofInput
  let (e, actions) := e.publish fun w => Publisher.pin w main
  { engine := e, actions, value := main }

/-- Focus a document, or none, unless a stronger source has had its way. The reply says whether the
focus has changed. -/
def focusMain (e : Engine) (uri : Option Text) (source : FocusSource) : EngineReply Bool :=
  let isRefused :=
    match source with
    | .command => false
    | .activity => e.focusedByCommand
    | .open => e.focusedByCommand || e.focusedByActivity
  if isRefused then { engine := e, value := false }
  else
    let e :=
      match source with
      | .command => { e with focusedByCommand := true }
      | .activity => { e with focusedByActivity := true }
      | .open => e
    let focus := uri.map Uri.ofInput
    if focus = e.publisher.focus then { engine := e, value := false }
    else
      let (e, actions) := e.publish fun w => Publisher.refocus w focus
      { engine := e
        actions := .emit (.trace (.debug .server "focus"
          [("uri", uriValue focus), ("source", .text source.word)])) :: actions
        value := true }

def clearCache (e : Engine) : Step :=
  let (cache, ts) := e.cache.clear
  ({ e with cache }, traces ts)

/-! ## Watching and ending -/

/-- Wait for all runs of the publisher, then for all tasks. -/
def settle (e : Engine) (ticket : Nat) : Step := (e, [.now (.flush ticket true)])

def stats (e : Engine) : EngineStats where
  compiler := e.host.compiler.name
  documents := e.store.size
  leasedSnapshots := e.leases.size
  main := e.publisher.main
  focus := e.publisher.focus

/-- End the engine: cancel all tasks, stop all timers, and hear of no change any more. -/
def dispose (e : Engine) : Step :=
  if e.isDisposed then (e, [])
  else
    andThen ({ e with isDisposed := true }.schedule Scheduler.dispose) fun e =>
      e.publish fun _ => Publisher.dispose

end Engine

end Quill
