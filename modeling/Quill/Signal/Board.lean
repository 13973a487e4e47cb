import Quill.Signal.Cancellation
import Quill.Text.Basic

/-!
# A board of signals

An emitter delivers values to its listeners in the order in which they came. Delivery goes to those
who listened when it began, even to one that was removed meanwhile. A bag holds things to dispose of
together, the last one first. Sources, emitters and bags are on a board under names, together with
the subscriptions that were made under the names of their listeners. Ending the subscription of a
name ends the latest one made under it.

## Main definitions

* `Emitter` — the listeners of an emitter under their numbers.
* `Emitter.deliver` — one delivery.
* `Bag` — a bag; `Bag.add` and `Bag.dispose` say what is disposed of.
* `Board` — everything on the board.
* `Board.listen`, `Board.on`, `Board.unsubscribe` — make and end subscriptions.
* `Board.emit`, `Board.dispose` — deliver a value, dispose of a bag or of the links of a source.
* `CancelSources.passCheckpoint` — a safe point during which a source may be cancelled.
-/

namespace Quill

/-- What a listener does with a value besides noting it: nothing, fail, or end another
subscription. -/
inductive Reaction where
  | none
  | fail
  | unsubscribe (name : Text)
  deriving DecidableEq, Repr

structure Subscriber where
  number : Nat
  name : Text
  reaction : Reaction
  deriving DecidableEq, Repr

structure Emitter where
  name : Text
  subscribers : List Subscriber := []
  deriving DecidableEq, Repr

namespace Emitter

def add (e : Emitter) (s : Subscriber) : Emitter := { e with subscribers := e.subscribers ++ [s] }

def remove (e : Emitter) (number : Nat) : Emitter :=
  { e with subscribers := e.subscribers.filter (·.number != number) }

def failureLine (e : Emitter) (s : Subscriber) : Text :=
  "[" ++ e.name ++ "] listener failed: " ++ s.name ++ " broke"

/-- One delivery: the names told, the lines logged for listeners that failed, and the names whose
subscriptions are ended. -/
def deliver (e : Emitter) : List Text × List Text × List Text :=
  (e.subscribers.map Subscriber.name,
    (e.subscribers.filter (·.reaction == .fail)).map e.failureLine,
    e.subscribers.filterMap fun s =>
      match s.reaction with
      | .unsubscribe name => some name
      | _ => Option.none)

end Emitter

/-- Things to dispose of together. -/
structure Bag where
  items : List Text := []
  isDisposed : Bool := false
  deriving DecidableEq, Repr

namespace Bag

/-- Add a thing; a bag that was emptied disposes of it at once. The second part lists what is
disposed of. -/
def add (b : Bag) (item : Text) : Bag × List Text :=
  if b.isDisposed then (b, [item]) else ({ b with items := b.items ++ [item] }, [])

def dispose (b : Bag) : Bag × List Text := (⟨[], true⟩, b.items.reverse)

end Bag

/-! ## The board -/

/-- Where a listener has subscribed. -/
inductive Subscription where
  | source (name : Text) (number : Nat)
  | emitter (name : Text) (number : Nat)
  | ended
  deriving DecidableEq, Repr

structure Board where
  sources : CancelSources := {}
  emitters : Dict Text Emitter := []
  bags : Dict Text Bag := []
  subscriptions : Dict Text Subscription := []
  deriving Repr

namespace Board

def remember (b : Board) (listener : Text) (s : Subscription) : Board :=
  { b with subscriptions := Dict.put b.subscriptions listener s }

def listen (b : Board) (source listener : Text) (l : Listener) : Board :=
  match b.sources.listen source l with
  | (sources, some n) => { b with sources }.remember listener (.source source n)
  | (sources, none) => { b with sources }.remember listener .ended

def on (b : Board) (emitter listener : Text) (reaction : Reaction) : Board :=
  let e := (Dict.get? b.emitters emitter).getD { name := emitter }
  let n := b.sources.nextNumber
  { b with
    emitters := Dict.put b.emitters emitter (e.add ⟨n, listener, reaction⟩)
    sources := { b.sources with nextNumber := n + 1 } }.remember listener (.emitter emitter n)

/-- End the latest subscription made under the name of a listener. -/
def unsubscribe (b : Board) (listener : Text) : Board :=
  match Dict.get? b.subscriptions listener with
  | some (.source name n) => { b with sources := b.sources.unlisten name n }
  | some (.emitter name n) =>
    match Dict.get? b.emitters name with
    | some e => { b with emitters := Dict.put b.emitters name (e.remove n) }
    | none => b
  | _ => b

def emit (b : Board) (emitter : Text) : Board × List Text × List Text :=
  match Dict.get? b.emitters emitter with
  | some e =>
    let (told, logged, ended) := e.deliver
    (ended.foldl unsubscribe b, told, logged)
  | none => (b, [], [])

/-- Add a thing to a bag; the second part lists what is disposed of. -/
def addToBag (b : Board) (bag item : Text) : Board × List Text :=
  let (bag', disposed) := ((Dict.get? b.bags bag).getD {}).add item
  ({ b with bags := Dict.put b.bags bag bag' }, disposed)

/-- Dispose of a bag, or cut a linked source off; the second part lists what is disposed of. -/
def dispose (b : Board) (name : Text) : Board × List Text :=
  match Dict.get? b.bags name with
  | some bag =>
    let (bag, disposed) := bag.dispose
    ({ b with bags := Dict.put b.bags name bag }, disposed)
  | none => ({ b with sources := b.sources.unlink name }, [])

def forgetCalls (b : Board) : Board := { b with sources := { b.sources with calls := [] } }

end Board

/-- A safe point: work stops when its source is cancelled before it, or while other work runs there,
which is when a `reason` cancels it. -/
def CancelSources.passCheckpoint (s : CancelSources) (name : Text) (reason : Option CancelReason) :
    CancelSources × Except Failure Unit :=
  let s' := match reason with
    | some r => s.cancel name r
    | none => s
  (s', (throwIfCancelled (s.reason? name)).bind fun _ => throwIfCancelled (s'.reason? name))

end Quill
