import Quill.Engine.Trace
import Quill.Query.Answer
import Quill.Value.Canonical

/-!
# The publisher

Changes of documents become pushes of diagnostics. A change triggers the roots whose diagnostics may
depend on the document; triggers of one root within the debounce time become one run. Every document
has one root that owns it at a time, so two roots that include one file never push over each other.
A push is left out when a newer version has been pushed, or the same diagnostics.

An operation yields the publisher after it and what is to be done, in order. A push may be refused;
then the rest of the operation is not carried out.

## Main definitions

* `Publisher` — the pinned and the focused document, the timers, and what was pushed for which root.
* `Surroundings` — what the publisher sees of everything else.
* `Publisher.ownerOf?`, `Publisher.rootsOf` — who pushes for a document, and whom a change concerns.
* `Publisher.trigger`, `Publisher.fire`, `Publisher.publishSet`, `Publisher.forget`,
  `Publisher.pin`, `Publisher.refocus`, `Publisher.dispose` — the operations.
-/

namespace Quill

/-- What was pushed last for a document. -/
structure Published where
  version : Int
  hash : Text
  root : Uri
  deriving DecidableEq, Repr

/-- The pinned and the focused document, the roots whose timers run, what was pushed for each
document, and for each root the documents of its last set and all that this set was computed from.
Runs under way are known by number. -/
structure Publisher where
  main : Option Uri := none
  focus : Option Uri := none
  timers : List Uri := []
  published : Dict Uri Published := []
  rootDocuments : Dict Uri (List Uri) := []
  rootDependencies : Dict Uri (List Uri) := []
  isDisposed : Bool := false
  inFlight : List Nat := []
  nextRun : Nat := 0
  deriving DecidableEq, Repr

/-- What the publisher sees of everything else: the versions of the open documents, the debounce
time, which documents the receiver refuses pushes for, and the digest in use. -/
structure Surroundings where
  versionOf : Uri → Option Int
  debounceMs : Nat
  refuses : Uri → Option Failure := fun _ => none
  digest : Digest

def Surroundings.isOpen (w : Surroundings) (uri : Uri) : Bool := (w.versionOf uri).isSome

/-- What an operation asks for. -/
inductive PublisherEffect where
  | trace (t : Trace)
  | setTimer (root : Uri) (ms : Nat)
  | clearTimer (root : Uri)
  | push (uri : Uri) (version : Option Int) (diagnostics : List Diagnostic)
  /-- Compute the diagnostics of a root. -/
  | compute (run : Nat) (root : Uri)

namespace Publisher

/-- The publisher after an operation, what is to be done, and why the operation stopped early, if it
did. -/
structure Result where
  publisher : Publisher
  effects : List PublisherEffect := []
  refused : Option Failure := none

/-- One operation after another; nothing follows a refusal. -/
def Result.andThen (r : Result) (f : Publisher → Result) : Result :=
  match r.refused with
  | some _ => r
  | none =>
    let r' := f r.publisher
    { r' with effects := r.effects ++ r'.effects }

def forEach {β : Type} (f : β → Publisher → Result) (items : List β) (p : Publisher) : Result :=
  items.foldl (fun r b => r.andThen (f b)) { publisher := p }

def note (point : String) (data : List (String × Value)) : PublisherEffect :=
  .trace (.debug .publisher point data)

/-- The document that owns its closure: the pinned one, else the focused one. -/
def mainInEffect (p : Publisher) : Option Uri := p.main.orElse fun _ => p.focus

/-- Whether the last set of a root was computed from a document. -/
def dependsOn (p : Publisher) (root uri : Uri) : Bool :=
  (Dict.get? p.rootDependencies root).any (·.contains uri)

/-- Who pushes for a document: the main document for its closure, else an open document for itself,
else the first open root with the document in its last set. -/
def ownerOf? (w : Surroundings) (p : Publisher) (uri : Uri) : Option Uri :=
  match p.mainInEffect.filter fun main =>
      w.isOpen main && (main == uri || p.dependsOn main uri) with
  | some main => some main
  | none =>
    if w.isOpen uri then some uri
    else
      (Text.sort ((p.rootDocuments.filter fun e =>
        e.2.contains uri && w.isOpen e.1).map Prod.fst)).head?

/-- The open roots to compute again when a document changes: its owner, and all whose last set was
computed from it, even if it was absent then. -/
def rootsOf (w : Surroundings) (p : Publisher) (uri : Uri) : List Uri :=
  let owner := ((p.ownerOf? w uri).filter w.isOpen).toList
  let others := (Dict.keys p.rootDependencies).filter fun root =>
    p.dependsOn root uri && w.isOpen root
  Text.sort (owner ++ others).eraseDups

def documentsOf (p : Publisher) (root : Uri) : List Uri :=
  Text.sort ((Dict.get? p.rootDocuments root).getD [])

def cancelTimer (root : Uri) (p : Publisher) : Result :=
  if p.timers.contains root then
    { publisher := { p with timers := p.timers.erase root }, effects := [.clearTimer root] }
  else { publisher := p }

def schedule (w : Surroundings) (root : Uri) (p : Publisher) : Result :=
  (cancelTimer root p).andThen fun p =>
    { publisher := { p with timers := p.timers ++ [root] }
      effects := [.setTimer root w.debounceMs,
        note "schedule" [("root", .text root), ("delay", .nat w.debounceMs)]] }

/-- Schedule every root whose diagnostics may depend on a document. -/
def trigger (w : Surroundings) (uri : Uri) (p : Publisher) : Result :=
  if p.isDisposed then { publisher := p } else forEach (schedule w) (p.rootsOf w uri) p

def send (w : Surroundings) (uri : Uri) (version : Option Int) (diagnostics : List Diagnostic)
    (p : Publisher) : Result :=
  { publisher := p, effects := [.push uri version diagnostics], refused := w.refuses uri }

/-- A document that a closed root owned is cleared and handed to whoever owns it now. -/
def handBack (w : Surroundings) (doc : Uri) (p : Publisher) : Result :=
  (send w doc (w.versionOf doc) [] { p with published := Dict.erase p.published doc }).andThen
    fun p => if w.isOpen doc then trigger w doc p else { publisher := p }

/-- A document was closed: forget it, clear it, hand back what it owned, and compute the roots that
depend on it again. -/
def forget (w : Surroundings) (uri : Uri) (p : Publisher) : Result :=
  (cancelTimer uri p).andThen fun p =>
    let dependents := (Dict.keys p.rootDependencies).filter fun root =>
      root != uri && p.dependsOn root uri
    let p := { p with
      rootDocuments := Dict.erase p.rootDocuments uri
      rootDependencies := Dict.erase p.rootDependencies uri
      published := Dict.erase p.published uri }
    let owned := (p.published.filter fun e => e.2.root == uri).map Prod.fst
    (((send w uri none [] p).andThen (forEach (handBack w) owned)).andThen fun p =>
      { publisher := p
        effects := [note "forget" [("uri", .text uri), ("dependents", .nat dependents.length)]] }
      ).andThen (forEach (schedule w) dependents)

def fire (w : Surroundings) (root : Uri) (p : Publisher) : Result :=
  (cancelTimer root p).andThen fun p =>
    if p.isDisposed || !w.isOpen root then { publisher := p }
    else
      { publisher := { p with inFlight := p.inFlight ++ [p.nextRun], nextRun := p.nextRun + 1 }
        effects := [.compute p.nextRun root] }

def fireAll (w : Surroundings) (p : Publisher) : Result := forEach (fire w) p.timers p

/-- Push the diagnostics of one document of a set, unless a newer version or the same diagnostics
have been pushed. -/
def publishEntry (w : Surroundings) (root uri : Uri) (e : DiagnosticEntry) (p : Publisher) :
    Result :=
  let last := Dict.get? p.published uri
  match last.filter fun l => e.version < l.version with
  | some l =>
    { publisher := p
      effects := [note "drop.older" [("uri", .text uri), ("version", .int e.version),
        ("published", .int l.version)]] }
  | none =>
    let hash := w.digest.ofValue (.array (e.diagnostics.map Diagnostic.toValue))
    let p := { p with published := Dict.put p.published uri ⟨e.version, hash, root⟩ }
    if last.any (·.hash == hash) then
      { publisher := p
        effects := [note "skip.unchanged" [("uri", .text uri), ("version", .int e.version)]] }
    else
      ({ publisher := p
         effects := [note "publish" [("uri", .text uri), ("version", .int e.version),
           ("count", .nat e.diagnostics.length)]] } : Result).andThen
        (send w uri (if e.origin = .memory then some e.version else none) e.diagnostics)

/-- A document dropped out of the sets of a root: clear it, if the root pushed for it last. -/
def clearDropped (w : Surroundings) (root uri : Uri) (p : Publisher) : Result :=
  if (Dict.get? p.published uri).any (·.root == root) then
    ({ publisher := { p with published := Dict.erase p.published uri }
       effects := [note "clear" [("root", .text root), ("uri", .text uri)]] } : Result).andThen
      (send w uri (w.versionOf uri) [])
  else { publisher := p }

/-- A root has a new set: push it for the documents that the root owns, and clear those that dropped
out. -/
def publishSet (w : Surroundings) (s : DiagnosticSet) (p : Publisher) : Result :=
  if p.isDisposed then { publisher := p }
  else
    let previous := (Dict.get? p.rootDocuments s.root).getD []
    let p := { p with
      rootDocuments := Dict.put p.rootDocuments s.root (Dict.keys s.entries)
      rootDependencies := Dict.put p.rootDependencies s.root s.dependencies.eraseDups }
    (forEach (fun e p =>
        if p.ownerOf? w e.1 = some s.root then publishEntry w s.root e.1 e.2 p
        else { publisher := p }) s.entries p).andThen
      (forEach (clearDropped w s.root) (previous.filter fun uri => !Dict.has s.entries uri))

/-- What is written when the diagnostics of a root could not be computed. -/
def failureTrace (root : Uri) (f : Failure) : Trace :=
  match f with
  | .cancelled _ | .superseded .. | .unknownDocument _ =>
    .debug .publisher "abandoned" [("root", .text root), ("reason", .text f.message)]
  | _ => .log .error ("[diagnostics] " ++ root ++ " failed: " ++ f.inLog)

def retire (run : Nat) (p : Publisher) : Publisher := { p with inFlight := p.inFlight.erase run }

/-- Change the main document; when another one is in effect then, the closures of the old and of the
new one are triggered. -/
def moveMain (w : Surroundings) (update : Publisher → Publisher) (p : Publisher) : Result :=
  let before := p.mainInEffect
  let p := update p
  let after := p.mainInEffect
  if before = after then { publisher := p }
  else
    (forEach (trigger w)
        ((before.bind fun uri => Dict.get? p.rootDocuments uri).getD []) p).andThen
      (forEach (trigger w) after.toList)

def pin (w : Surroundings) (uri : Option Uri) (p : Publisher) : Result :=
  ({ publisher := p, effects := [note "pin-main" [("uri", uriValue uri)]] } : Result).andThen
    (moveMain w fun p => { p with main := uri })

def refocus (w : Surroundings) (uri : Option Uri) (p : Publisher) : Result :=
  ({ publisher := p, effects := [note "focus" [("uri", uriValue uri)]] } : Result).andThen
    (moveMain w fun p => { p with focus := uri })

def dispose (p : Publisher) : Result :=
  { publisher := { p with isDisposed := true, timers := [] }
    effects := p.timers.map .clearTimer }

end Publisher

end Quill
