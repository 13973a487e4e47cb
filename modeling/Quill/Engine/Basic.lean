import Quill.Agenda.Basic
import Quill.Cache.Basic
import Quill.Disk.Basic
import Quill.Flow.Answering
import Quill.Publisher.Basic
import Quill.Scheduler.Basic

/-!
# The engine

The engine ties the parts together: the store of open documents, the files, the snapshots, the
cache, the scheduler and the publisher. Its state changes one piece of work at a time.

## Main definitions

* `Host` — what an engine is given: a compiler, a digest, and how fingerprints and the diagnostics
  of a root are computed.
* `Engine` — the state.
* `EngineWork`, `EngineOutput` — what there is to be done, and what the engine gives out.
-/

namespace Quill

/-- For whom a flow runs: an attempt of a task, a computation of the cache, or a caller of its own
with a ticket. -/
inductive Owner where
  | attempt (task : Nat)
  | flight (id : Nat)
  | errand (ticket : Nat)
  deriving DecidableEq, Repr

/-- A flow that waits for a value of the cache. -/
structure Call where
  owner : Owner
  next : Except Failure Fact → Flow Fact

inductive SnapshotWaiter where
  | build (owner : Owner) (next : Except Failure Snapshot → Flow Fact)
  | lease (owner : Owner) (next : Except Failure Lease → Flow Fact)

/-- Who waits for a file: a snapshot under way, or a single compile. -/
inductive Reader where
  | building (w : SnapshotWaiter) (b : Building)
  | oneShot (ticket : Nat) (o : OneShot)

/-- Who hears of the end of a task: the caller of a request, or a run of the publisher. -/
inductive Watcher where
  | request (ticket : Nat)
  | run (run : Nat) (root : Uri)

/-- What a task does at each attempt: a flow, or the diagnostics of a root. -/
inductive TaskBody where
  | flow (f : Nat → Flow Fact)
  | diagnose (root : Uri)

inductive TimerKey where
  | debounce (root : Uri)
  | demotion (task : Nat)
  deriving DecidableEq, Repr

inductive EngineWork where
  /-- Run a flow up to its next stop. -/
  | go (o : Owner) (f : Flow Fact)
  /-- All turns have passed since a safe point was reached. -/
  | wake (o : Owner) (next : Except Failure Unit → Flow Fact)
  /-- See whether the owner was asked to stop at its safe point. -/
  | recheck (o : Owner) (next : Except Failure Unit → Flow Fact)
  | register (flight : Nat)
  | join (flight : Nat) (call : Call)
  | settleFlight (flight : Nat) (r : Except Failure Fact)
  | publishFlight (flight : Nat)
  | deliver (waiter : Nat) (r : Except Failure Fact)
  /-- Make the next read of a snapshot. -/
  | collect (w : SnapshotWaiter) (b : Building)
  | lookUp (r : Reader) (uri : Uri)
  | loaded (w : SnapshotWaiter) (b : Building) (uri : Uri) (text : Option Text)
  | received (w : SnapshotWaiter) (b : Building) (uri : Uri) (doc : Option SnapshotDocument)
  | assemble (w : SnapshotWaiter) (b : Building)
  | intern (o : Owner) (next : Except Failure Lease → Flow Fact) (s : Snapshot)
  /-- Make the next read of a single compile. -/
  | compileNext (ticket : Nat) (o : OneShot)
  | compileLoaded (ticket : Nat) (o : OneShot) (uri : Uri) (text : Except Failure (Option Text))
  | begin (task attempt : Nat)
  | fire (task : Nat) (reason : CancelReason)
  | attemptEnded (task : Nat) (r : Except Failure Fact)
  | demote (task : Nat)
  | told (task : Nat) (r : Except Failure Fact)
  | wakeIdle (tickets : List Nat)
  /-- The publisher hears of a change of a document. -/
  | changed (e : StoreEvent)
  | timerRanOut (root : Uri)
  | submitRun (run : Nat) (root : Uri)
  | verify (ticket : Nat) (r : Except Failure Fact)
  | runEnded (run : Nat) (root : Uri) (r : Except Failure Fact)
  | runRefused (run : Nat) (root : Uri) (refused : Option Failure)
  | retire (run : Nat)
  | flush (ticket : Nat) (thenIdle : Bool)
  | idle (ticket : Nat)
  | rested (ticket : Nat)

inductive EngineOutput where
  | trace (t : Trace)
  | push (uri : Uri) (version : Option Int) (diagnostics : List Diagnostic)
  /-- The outcome of what was asked for under a ticket. -/
  | answered (ticket : Nat) (r : Except Failure Fact)
  /-- Everything has come to rest, for whom asked under a ticket. -/
  | rested (ticket : Nat)
  | said (t : Text)
  | load (uri : Uri)

abbrev EngineAction := Action TimerKey EngineWork EngineOutput

structure Host where
  compiler : Compiler
  digest : Digest
  fingerprint : Fingerprint
  /-- The diagnostics of a root, computed for the n-th time. -/
  diagnose : Uri → Nat → Flow Fact
  /-- What changes the texts of open documents. -/
  library : { library : TextLibrary // library.IsLawful } :=
    ⟨.lineByLine, TextLibrary.isLawful_lineByLine⟩
  /-- The documents that the receiver refuses pushes for. -/
  refuses : Uri → Option Failure := fun _ => none

namespace Host

def askDiagnostics (root : Uri) : Flow Fact :=
  (Query.run ⟨some root, .diagnostics⟩).call.bind fun a => .done (.ok (.answered a))

def ofCompiler (compiler : Compiler) (digest : Digest) : Host where
  compiler := compiler
  digest := digest
  fingerprint := .ofDigest digest
  diagnose := fun root _ => askDiagnostics root

end Host

structure Engine where
  host : Host
  config : EngineConfig
  /-- The settings that snapshots are built with. -/
  settings : CompileSettings
  store : Store := {}
  disk : Disk := {}
  /-- The readers of files that are held, in the order in which they came. -/
  parked : List (Uri × Reader) := []
  leases : Leases := {}
  cache : Cache Nat Call Fact Number
  scheduler : Scheduler := {}
  publisher : Publisher := {}
  bodies : Dict Nat TaskBody := []
  watchers : Dict Nat Watcher := []
  /-- The tokens of callers that have fired. -/
  tokens : Dict Text CancelReason := []
  /-- The tasks submitted under each token of a caller. -/
  submitted : List (Text × Nat) := []
  openGates : List Text := []
  waiting : List (Text × Owner × Flow Fact) := []
  /-- How often the diagnostics of each root have been computed. -/
  computed : Dict Uri Nat := []
  /-- Who waits for all runs of the publisher: a ticket, whether to wait for all tasks then, and the
  runs that were under way. -/
  flushes : List (Nat × Bool × List Nat) := []
  focusedByCommand : Bool := false
  focusedByActivity : Bool := false
  isDisposed : Bool := false

namespace Engine

def start (host : Host) (config : EngineConfig) : Engine where
  host := host
  config := config
  settings := config.compile
  cache := { maxWeight := .ofNat config.maxWeight }

abbrev Step := Engine × List EngineAction

def andThen (r : Step) (f : Engine → Step) : Step :=
  let r' := f r.1
  (r'.1, r.2 ++ r'.2)

def traces (ts : List Trace) : List EngineAction := ts.map fun t => .emit (.trace t)

/-- Why the owner of a flow was asked to stop, if it was. -/
def cancelled? (e : Engine) : Owner → Option CancelReason
  | .attempt task => e.scheduler.cancelled? task
  | .flight id => if e.cache.isAbandoned id then some .abandoned else none
  | .errand _ => none

def tokenOf : Owner → Option (Token Nat)
  | .attempt task => some (.caller task)
  | .flight id => some (.flight id)
  | .errand _ => none

def moment (e : Engine) (o : Owner) : Moment := ⟨e.config, e.store.versionOf, e.cancelled? o⟩

def surroundings (e : Engine) : Surroundings where
  versionOf := e.store.versionOf
  debounceMs := e.config.debounceMs
  refuses := e.host.refuses
  digest := e.host.digest

def schedulerActions : SchedulerEffect Fact → List EngineAction
  | .trace t => [.emit (.trace t)]
  | .begin task attempt => [.now (.begin task attempt)]
  | .fire task reason => [.now (.fire task reason)]
  | .resolve task value => [.now (.told task (.ok value))]
  | .reject task f => [.now (.told task (.error f))]
  | .startTimer task ms => [.setTimer (.demotion task) ms (.demote task)]
  | .stopTimer task => [.clearTimer (.demotion task)]
  | .wakeIdle tickets => [.now (.wakeIdle tickets)]

def publisherActions : PublisherEffect → List EngineAction
  | .trace t => [.emit (.trace t)]
  | .setTimer root ms => [.setTimer (.debounce root) ms (.timerRanOut root)]
  | .clearTimer root => [.clearTimer (.debounce root)]
  | .push uri version diagnostics => [.emit (.push uri version diagnostics)]
  | .compute run root => [.now (.submitRun run root)]

def schedule (e : Engine) (f : Scheduler → Scheduler.Result Fact) : Step :=
  let (scheduler, effects) := f e.scheduler
  ({ e with scheduler }, effects.flatMap schedulerActions)

def publish (e : Engine) (f : Surroundings → Publisher → Publisher.Result) : Step :=
  let r := f e.surroundings e.publisher
  ({ e with publisher := r.publisher }, r.effects.flatMap publisherActions)

end Engine

end Quill
