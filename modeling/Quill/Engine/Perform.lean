import Quill.Engine.Basic
import Quill.Signal.Cancellation

/-!
# How the engine works

## Main definitions

* `Engine.go` — run a flow up to its next stop.
* `Engine.request` — a flow asks for a kept value.
* `Engine.perform` — do a piece of work.
-/

namespace Quill.Engine

/-! ## Kept values -/

/-- A flow asks for a kept value: it is there, it is being computed, or its computation is started,
which runs up to its first stop before the flow joins it. -/
def request (e : Engine) (now : Nat) (o : Owner) (c : Computation)
    (next : Except Failure Fact → Flow Fact) : Step :=
  match e.cancelled? o with
  | some reason => (e, [.later 0 (.go o (next (.error (.cancelled reason))))])
  | none =>
    let key : CacheKey := ⟨c.kind, c.fingerprint e.host.digest⟩
    let (cache, meeting, ts) := e.cache.ask key (.ofNat c.weight) now
    let e := { e with cache }
    match meeting with
    | .hit fact => (e, traces ts ++ [.later 0 (.go o (next (.ok fact)))])
    | .join id => (e, traces ts ++ [.now (.join id ⟨o, next⟩)])
    | .start id =>
      let start : List EngineAction :=
        match c.isImmediate, c.body e.host.compiler with
        | true, .done r => [.now (.register id), .now (.settleFlight id r)]
        | _, body => [.now (.go (.flight id) body), .now (.register id)]
      (e, traces ts ++ start ++ [.now (.join id ⟨o, next⟩)])

/-- A computation has come to its first stop, so that it can be joined. -/
def register (e : Engine) (id : Nat) : Step :=
  let (cache, ts) := e.cache.register id
  ({ e with cache }, traces ts)

/-- A flow waits for a computation, which may be over already. -/
def join (e : Engine) (id : Nat) (call : Call) : Step :=
  let (cache, waiter, outcome) := e.cache.wait id (tokenOf call.owner) call
  ({ e with cache }, outcome.toList.map fun r => .later 0 (.deliver waiter r))

/-- A computation is over; its outcome becomes known in the next turn, to those who wait after
that. -/
def settleFlight (e : Engine) (id : Nat) (r : Except Failure Fact) : Step :=
  let (cache, waiters) := e.cache.settle id r
  ({ e with cache },
    .later 0 (.publishFlight id) :: waiters.map fun n => .later 0 (.deliver n r))

def publishFlight (e : Engine) (now : Nat) (id : Nat) : Step :=
  let (cache, ts) := e.cache.publish id now
  ({ e with cache }, traces ts)

def deliver (e : Engine) (waiter : Nat) (r : Except Failure Fact) : Step :=
  let (cache, call) := e.cache.deliver waiter
  ({ e with cache }, call.toList.map fun c => .later 1 (.go c.owner (c.next r)))

/-- The token of an attempt has fired: the flows that wait on its behalf give up. -/
def fire (e : Engine) (task : Nat) (reason : CancelReason) : Step :=
  let (cache, consequences) := e.cache.cancel (.caller task) reason
  ({ e with cache }, consequences.flatMap fun c =>
    match c with
    | .trace t => [.emit (.trace t)]
    | .abandoned _ => []
    | .refused call reason => [.later 1 (.go call.owner (call.next (.error (.cancelled reason))))])

/-! ## Flows -/

/-- A flow has come to its end. A computation that ends at its first stop is settled one turn
later than others. -/
def ended (e : Engine) (o : Owner) (r : Except Failure Fact) : List EngineAction :=
  match o with
  | .attempt task => [.later 1 (.attemptEnded task r)]
  | .flight id =>
    let isStarting := (e.cache.flight? id).any (·.state == .starting)
    [.later (if isStarting then 1 else 0) (.settleFlight id r)]
  | .errand ticket => [.emit (.answered ticket r)]

def go (e : Engine) (now : Nat) (o : Owner) : Flow Fact → Step
  | .done r => (e, e.ended o r)
  | .pause next => (e, [.later 0 (.go o next)])
  | .checkpoint next =>
    match e.cancelled? o with
    | some reason => (e, [.later 0 (.go o (next (.error (.cancelled reason))))])
    | none => (e, [.soon (.wake o next)])
  | .compute c next => e.request now o c next
  | .lease scope next =>
    match Building.start e.store e.settings scope with
    | .ok b => (e, [.now (.collect (.lease o next) b)])
    | .error f => (e, [.later 1 (.go o (next (.error f)))])
  | .build scope next =>
    match Building.start e.store e.settings scope with
    | .ok b => (e, [.now (.collect (.build o next) b)])
    | .error f => (e, [.later 0 (.go o (next (.error f)))])
  | .release id next => go { e with leases := e.leases.release id } now o next
  | .declare read scope next =>
    let e :=
      match o with
      | .attempt task => { e with scheduler := e.scheduler.declare task read scope }
      | _ => e
    go e now o next
  | .look next => go e now o (next (e.moment o))
  | .trace t next =>
    let (e, actions) := go e now o next
    (e, .emit (.trace t) :: actions)
  | .say t next =>
    let (e, actions) := go e now o next
    (e, .emit (.said t) :: actions)
  | .gate name next =>
    if e.openGates.contains name then (e, [.later 0 (.go o next)])
    else ({ e with waiting := e.waiting ++ [(name, o, next)] }, [])

def openGate (e : Engine) (name : Text) : Step :=
  let (free, waiting) := e.waiting.partition fun w => w.1 = name
  ({ e with openGates := name :: e.openGates, waiting },
    free.map fun w => .later 0 (.go w.2.1 w.2.2))

/-! ## Reads -/

/-- A snapshot cannot be built: its waiter hears of it after as many turns as the failure has to
come up from. -/
def refuse (w : SnapshotWaiter) (depth : Nat) (f : Failure) : EngineAction :=
  match w with
  | .build o next => .later (depth + 1) (.go o (next (.error f)))
  | .lease o next => .later (depth + 2) (.go o (next (.error f)))

def load (e : Engine) (r : Reader) (uri : Uri) : Step :=
  if e.disk.isHeld uri then
    ({ e with parked := e.parked ++ [(uri, r)] }, [.emit (.load uri)])
  else (e, [.emit (.load uri), .now (.lookUp r uri)])

/-- Make the next read of a snapshot: open documents come from the store. -/
def collect (e : Engine) (w : SnapshotWaiter) (b : Building) : Step :=
  match b.gather.next? with
  | none => (e, [.later 0 (.assemble w b)])
  | some (uri, gather) =>
    let b := { b with gather }
    match Dict.get? e.store.documents uri with
    | some doc => (e, [.later 0 (.received w b uri (some (.ofOpen e.host.digest uri doc)))])
    | none => e.load (.building w b) uri

/-- A file has its content now. -/
def lookUp (e : Engine) (r : Reader) (uri : Uri) : List EngineAction :=
  match r, e.disk.read uri with
  | .building w b, .ok text => [.later 0 (.loaded w b uri text)]
  | .building w _, .error f => [refuse w 2 f]
  | .oneShot ticket o, text => [.later 0 (.compileLoaded ticket o uri text)]

/-- A file has been read. If it was opened meanwhile, the open document counts. -/
def loaded (e : Engine) (w : SnapshotWaiter) (b : Building) (uri : Uri) (text : Option Text) :
    List EngineAction :=
  match text, Dict.get? e.store.documents uri with
  | none, _ => [.later 0 (.received w b uri none)]
  | some _, some doc => [.later 2 (.received w b uri (some (.ofOpen e.host.digest uri doc)))]
  | some text, none => [.later 0 (.received w b uri (some (.ofFile e.host.digest uri text)))]

def received (e : Engine) (w : SnapshotWaiter) (b : Building) (uri : Uri)
    (doc : Option SnapshotDocument) : List EngineAction :=
  match b.receive e.host.compiler uri doc with
  | .ok b => [.now (.collect w b)]
  | .error f => [refuse w 0 f]

def buildTrace (s : Snapshot) : Trace :=
  .debug .snapshot "build"
    [("scope", .text s.scope.word), ("entry", uriValue s.scope.entryUri?),
      ("documents", .nat s.documents.length), ("missing", .nat s.missing.length),
      ("fingerprint", shortFingerprint s.fingerprint)]

def assemble (e : Engine) (w : SnapshotWaiter) (b : Building) : List EngineAction :=
  let s := b.assemble e.host.fingerprint
  [.emit (.trace (buildTrace s)),
    match w with
    | .build o next => .later 0 (.go o (next (.ok s)))
    | .lease o next => .later 0 (.intern o next s)]

def intern (e : Engine) (o : Owner) (next : Except Failure Lease → Flow Fact) (s : Snapshot) :
    Step :=
  let (leases, lease, shared) := e.leases.take s
  ({ e with leases },
    (shared.toList.map fun n => .emit (.trace (.debug .snapshot "lease.shared"
      [("fingerprint", shortFingerprint s.fingerprint), ("leases", .nat n)]))) ++
      [.later 0 (.go o (next (.ok lease)))])

def releaseFile (e : Engine) (uri : Uri) : Step :=
  let (free, parked) := e.parked.partition fun p => p.1 = uri
  ({ e with disk := e.disk.free uri, parked }, free.map fun p => .later 0 (.lookUp p.2 uri))

/-! ## Single compiles -/

def compileEnded (ticket : Nat) (r : Except Failure Compiled) : List EngineAction :=
  (match r with
    | .ok c => [.emit (.trace (Snapshot.compiledTrace c))]
    | .error _ => []) ++ [.emit (.answered ticket (r.map .compiled))]

/-- Make the next read of a single compile. -/
def compileNext (e : Engine) (ticket : Nat) (o : OneShot) : Step :=
  match o.gather.next? with
  | none => (e, compileEnded ticket (o.finish e.host.compiler))
  | some (uri, gather) =>
    let o := { o with gather }
    match Dict.get? e.store.documents uri with
    | some doc => (e, [.later 0 (.compileLoaded ticket o uri (.ok (some doc.text)))])
    | none => e.load (.oneShot ticket o) uri

/-- A single compile takes in what was read. -/
def compileLoaded (e : Engine) (ticket : Nat) (o : OneShot) (uri : Uri)
    (text : Except Failure (Option Text)) : List EngineAction :=
  match text.bind (o.receive e.host.compiler uri) with
  | .ok o => [.now (.compileNext ticket o)]
  | .error f => compileEnded ticket (.error f)

/-! ## Tasks -/

def begin (e : Engine) (now : Nat) (task attempt : Nat) : Step :=
  match Dict.get? e.bodies task with
  | some (.flow f) => e.go now (.attempt task) (f attempt)
  | some (.diagnose root) =>
    let n := (Dict.get? e.computed root).getD 0
    { e with computed := Dict.put e.computed root (n + 1) }.go now (.attempt task)
      (e.host.diagnose root n)
  | none => (e, [])

/-- Submit a task. `reason` is why its caller has given up already, if it has. -/
def submit (e : Engine) (spec : TaskSpec) (body : TaskBody) (watcher : Watcher)
    (reason : Option CancelReason) : Step :=
  let id := e.scheduler.nextTask
  { e with bodies := Dict.put e.bodies id body, watchers :=
    Dict.put e.watchers id watcher }.schedule
    (Scheduler.submit e.config.limits spec reason)

/-- A task is over: whoever watches it hears of it in the next turn. -/
def told (e : Engine) (task : Nat) (r : Except Failure Fact) : List EngineAction :=
  match Dict.get? e.watchers task with
  | some (.request ticket) => [.later 0 (.verify ticket r)]
  | some (.run run root) => [.later 0 (.runEnded run root r)]
  | none => []

/-- An answer made of edits must still fit the documents. -/
def verify (e : Engine) (ticket : Nat) (r : Except Failure Fact) : List EngineAction :=
  let r :=
    match r with
    | .ok (.answered a) => (a.value.verify e.store.versionOf).map fun _ => Fact.answered a
    | r => r
  [.emit (.answered ticket r)]

/-! ## Runs of the publisher -/

def submitRun (e : Engine) (run : Nat) (root : Uri) : Step :=
  e.submit ⟨"diagnostics " ++ root, .background, some root⟩ (.diagnose root) (.run run root) none

/-- The set of diagnostics that a run came back with. -/
def diagnosticSet? : Fact → Option DiagnosticSet
  | .answered ⟨.diagnostics s, _, _⟩ => some s
  | _ => none

def runEnded (e : Engine) (run : Nat) (root : Uri) (r : Except Failure Fact) : Step :=
  match r.map diagnosticSet? with
  | .ok (some s) =>
    let result := e.publisher.publishSet e.surroundings s
    ({ e with publisher := result.publisher },
      result.effects.flatMap publisherActions ++ [.later 0 (.runRefused run root result.refused)])
  | .ok none => (e, [.later 0 (.runRefused run root none)])
  | .error f => (e, [.emit (.trace (Publisher.failureTrace root f)),
      .later 0 (.runRefused run root none)])

def runRefused (run : Nat) (root : Uri) (refused : Option Failure) : List EngineAction :=
  (refused.toList.map fun f => .emit (.trace (.log .error
    ("[diagnostics] publishing " ++ root ++ " failed: " ++ f.inLog)))) ++ [.later 0 (.retire run)]

/-- A run is done with. Whoever waits for it looks again when no other run is left. -/
def retire (e : Engine) (run : Nat) : Step :=
  let flushes := e.flushes.map fun f => (f.1, f.2.1, f.2.2.erase run)
  let (free, flushes) := flushes.partition fun f => f.2.2.isEmpty
  ({ e with publisher := e.publisher.retire run, flushes },
    free.map fun f => .later 0 (.flush f.1 f.2.1))

def fireAll (e : Engine) (ticket : Nat) (thenIdle : Bool) : Step :=
  andThen (e.publish Publisher.fireAll) fun e =>
    if e.publisher.inFlight.isEmpty then
      (e, [.later 0 (if thenIdle then .idle ticket else .rested ticket)])
    else ({ e with flushes := e.flushes ++ [(ticket, thenIdle, e.publisher.inFlight)] }, [])

/-! ## All work -/

def perform (now : Nat) (w : EngineWork) (e : Engine) : Step :=
  match w with
  | .go o f => e.go now o f
  | .wake o next => (e, [.later 0 (.recheck o next)])
  | .recheck o next => (e, [.later 0 (.go o (next (throwIfCancelled (e.cancelled? o))))])
  | .register id => e.register id
  | .join id call => e.join id call
  | .settleFlight id r => e.settleFlight id r
  | .publishFlight id => e.publishFlight now id
  | .deliver waiter r => e.deliver waiter r
  | .collect w b => e.collect w b
  | .lookUp r uri => (e, e.lookUp r uri)
  | .loaded w b uri text => (e, e.loaded w b uri text)
  | .received w b uri doc => (e, e.received w b uri doc)
  | .assemble w b => (e, e.assemble w b)
  | .intern o next s => e.intern o next s
  | .compileNext ticket o => e.compileNext ticket o
  | .compileLoaded ticket o uri text => (e, e.compileLoaded ticket o uri text)
  | .begin task attempt => e.begin now task attempt
  | .fire task reason => e.fire task reason
  | .attemptEnded task r =>
    e.schedule (Scheduler.settle e.config.limits e.store.versionOf task r)
  | .demote task => e.schedule (Scheduler.demote e.config.limits task)
  | .told task r => (e, e.told task r)
  | .wakeIdle tickets => (e, tickets.map fun n => .later 0 (.rested n))
  | .changed event =>
    e.publish fun w p => if event.kind = .close then p.forget w event.uri else p.trigger w event.uri
  | .timerRanOut root => e.publish fun w p => p.fire w root
  | .submitRun run root => e.submitRun run root
  | .verify ticket r => (e, e.verify ticket r)
  | .runEnded run root r => e.runEnded run root r
  | .runRefused run root refused => (e, runRefused run root refused)
  | .retire run => e.retire run
  | .flush ticket thenIdle => e.fireAll ticket thenIdle
  | .idle ticket => e.schedule (Scheduler.idle ticket)
  | .rested ticket => (e, [.emit (.rested ticket)])

end Quill.Engine
