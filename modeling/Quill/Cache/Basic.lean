import Quill.Data.Dict
import Quill.Engine.Trace
import Quill.Failure

/-!
# The cache

Values are kept under a kind and a fingerprint. A value that is missing is computed once, however
many callers ask for it meanwhile; a computation that no caller waits for any more is abandoned.
Only values that were computed in full are kept, as many as the weight allows.

## Main definitions

* `Weight` — the numbers in which weights are given: doubles, or integers that are added exactly.
* `EvictionPolicy` — a score for every candidate, the lowest of which is evicted first;
  `EvictionPolicy.default` is roughly least-recently-used, with values that took long to compute
  kept longer.
* `CacheKey`, `CacheEntry`, `Flight`, `Waiter`, `Cache` — keys, stored values, running computations,
  callers that wait, and all of them together.
* `Cache.ask` — what a call meets: a stored value, a computation to join, or one to start.
* `Cache.register`, `Cache.wait`, `Cache.settle`, `Cache.publish`, `Cache.deliver` — the life of a
  computation and of a caller.
* `Cache.cancel` — callers under a token give up.
* `Cache.prune`, `Cache.setMaxWeight`, `Cache.clear`, `Cache.invalidateKind` — what removes values.
-/

namespace Quill

/-! ## Weights -/

class Weight (W : Type) where
  zero : W
  add : W → W → W
  sub : W → W → W
  /-- Whether the first weight is below the second one. -/
  lt : W → W → Bool
  toNumber : W → Number

instance : Weight Number := ⟨.zero, Number.add, Number.sub, Number.lt, id⟩

/-- Integers, which are added without rounding. -/
instance : Weight Int := ⟨0, (· + ·), (· - ·), fun a b => a < b, .ofInt⟩

/-! ## Scores

Which value is evicted first is decided by a score. Scores are exact quotients, so that no two
different ones are taken for equal. -/

/-- What is known of a cached value: its kind, how many milliseconds it took, its weight, the
generation of its last use and how often it was used. -/
structure Candidate where
  kind : Text
  cost : Int
  weight : Number
  lastUsed : Nat
  hits : Nat
  deriving DecidableEq, Repr

/-- A quotient with a positive denominator, or no bound. -/
inductive Score where
  | ratio (num : Int) (den : Nat)
  | unbounded
  deriving DecidableEq, Repr

namespace Score

def lt : Score → Score → Bool
  | ratio a b, ratio c d => a * d < c * b
  | ratio .., unbounded => true
  | unbounded, _ => false

def ofNumber : Number → Score
  | .finite s m e => .ratio (Number.units (.finite s m e)) (Nat.pow 2 (-Number.minExponent).toNat)
  | .infinity _ | .nan => .unbounded

def toNumber : Score → Number
  | ratio num den => Number.ofRatio (num < 0) num.natAbs den
  | unbounded => .infinity false

end Score

/-- A score for every candidate in every generation; the lowest is evicted first. -/
abbrev EvictionPolicy := Candidate → Nat → Score

namespace EvictionPolicy

/-- The time a value took to compute, plus one, over its age, plus one. -/
def default : EvictionPolicy := fun c generation =>
  .ratio (c.cost + 1) (1 + generation - c.lastUsed)

end EvictionPolicy

/-! ## The cache -/

/-- The kind of a value and the fingerprint of what it was computed from. -/
structure CacheKey where
  kind : Text
  fingerprint : Text
  deriving DecidableEq, Repr

namespace CacheKey

def text (k : CacheKey) : Text := k.kind ++ 0 :: k.fingerprint

/-- The place where the value of a key is kept. Keys with the same text share it: of a kind with a
zero in it the rest counts as fingerprint. -/
def place (k : CacheKey) : CacheKey :=
  ⟨k.text.takeWhile (· != 0), (k.text.dropWhile (· != 0)).drop 1⟩

theorem place_eq_self {k : CacheKey} (plain : 0 ∉ k.kind) : k.place = k := by
  have stops : ∀ u ∈ k.kind, (u != 0) = true := fun u mem => by
    simpa using fun eq : u = 0 => plain (eq ▸ mem)
  simp [place, text, List.takeWhile_append_of_pos stops, List.dropWhile_append_of_pos stops]

end CacheKey

structure CacheEntry (α W : Type) where
  value : α
  kind : Text
  cost : Int
  weight : W
  lastUsed : Nat
  hits : Nat
  deriving Repr

def CacheEntry.candidate {α W : Type} [Weight W] (e : CacheEntry α W) : Candidate :=
  ⟨e.kind, e.cost, Weight.toNumber e.weight, e.lastUsed, e.hits⟩

/-- What makes callers give up: a token of theirs, or a computation that was abandoned, on behalf of
which they called. -/
inductive Token (τ : Type) where
  | caller (t : τ)
  | flight (id : Nat)
  deriving DecidableEq, Repr

/-- A computation before its first pause, under way, abandoned, or displaced by another one that was
begun for its key before it and has come to its first pause after it. -/
inductive FlightState where
  | starting
  | running
  | abandoned
  | displaced
  deriving DecidableEq, Repr

/-- A computation: how many callers wait for it, and its outcome from when it is over until the
outcome is made known. -/
structure Flight (α W : Type) where
  id : Nat
  key : CacheKey
  kind : Text
  weight : W
  startedAt : Int
  state : FlightState
  waiters : Nat
  outcome : Option (Except Failure α)

structure Waiter (τ ω : Type) where
  id : Nat
  flight : Nat
  token : Option (Token τ)
  call : ω

structure CacheCounters where
  hits : Nat := 0
  misses : Nat := 0
  coalesced : Nat := 0
  evictions : Nat := 0
  failures : Nat := 0
  abandoned : Nat := 0
  deriving DecidableEq, Repr

/-- The cache of values `α` with weights `W`; callers are known by `ω` and their tokens by `τ`. -/
structure Cache (τ ω α W : Type) [Weight W] where
  policy : EvictionPolicy := .default
  maxWeight : W
  entries : Dict CacheKey (CacheEntry α W) := []
  weight : W := Weight.zero
  generation : Nat := 0
  flights : List (Flight α W) := []
  nextFlight : Nat := 0
  waiters : List (Waiter τ ω) := []
  nextWaiter : Nat := 0
  counters : CacheCounters := {}

namespace Cache

variable {τ ω α W : Type} [Weight W]

def count (c : Cache τ ω α W) (f : CacheCounters → CacheCounters) : Cache τ ω α W :=
  { c with counters := f c.counters }

def note (point : String) (data : List (String × Value)) : Trace := .debug .cache point data

/-- A computation that has not been made known yet. -/
def flight? (c : Cache τ ω α W) (id : Nat) : Option (Flight α W) := c.flights.find? (·.id == id)

def running? (c : Cache τ ω α W) (key : CacheKey) : Option (Flight α W) :=
  c.flights.find? fun f => f.key = key && f.state == .running

def inFlight (c : Cache τ ω α W) : Nat := (c.flights.filter (·.state == .running)).length

def modifyFlight (c : Cache τ ω α W) (id : Nat) (f : Flight α W → Flight α W) : Cache τ ω α W :=
  { c with flights := c.flights.map fun fl => if fl.id = id then f fl else fl }

def isAbandoned (c : Cache τ ω α W) (id : Nat) : Bool :=
  (c.flight? id).any (·.state == .abandoned)

inductive Meeting (α : Type) where
  | hit (value : α)
  | join (flight : Nat)
  | start (flight : Nat)

/-- A call for a key. A value that is there counts as used; a computation under way is joined; else
a computation is to be started, which takes the number given. -/
def ask (c : Cache τ ω α W) (key : CacheKey) (weight : W) (now : Int) :
    Cache τ ω α W × Meeting α × List Trace :=
  match Dict.get? c.entries key.place with
  | some e =>
    let generation := c.generation + 1
    let entries := Dict.put c.entries key.place
      { e with lastUsed := generation, hits := e.hits + 1 }
    (({ c with entries, generation } : Cache τ ω α W).count fun s => { s with hits := s.hits + 1 },
      .hit e.value,
      [note "hit" [("kind", .text key.kind), ("fingerprint", shortFingerprint key.fingerprint)]])
  | none =>
    match c.running? key.place with
    | some f =>
      (c.count fun s => { s with coalesced := s.coalesced + 1 }, .join f.id,
        [note "dedupe.hit" [("kind", .text key.kind), ("waiters", .nat (f.waiters + 1))]])
    | none =>
      let f : Flight α W := ⟨c.nextFlight, key.place, key.kind, weight, now, .starting, 0, none⟩
      (({ c with flights := c.flights ++ [f], nextFlight := c.nextFlight + 1 } :
          Cache τ ω α W).count fun s => { s with misses := s.misses + 1 },
        .start f.id, [])

/-- The computation under way for a key cannot be joined any more, and its value will not be
stored. -/
def displace (c : Cache τ ω α W) (key : CacheKey) : Cache τ ω α W :=
  { c with flights := c.flights.map fun f =>
      if f.key = key && f.state == .running then { f with state := .displaced } else f }

/-- A computation has come to its first pause or to its end: from now on it may be joined. It takes
the place of one that it has started for its own key. -/
def register (c : Cache τ ω α W) (id : Nat) : Cache τ ω α W × List Trace :=
  match c.flight? id with
  | some f =>
    ((c.displace f.key).modifyFlight id fun f => { f with state := .running },
      [note "compute.start" [("kind", .text f.kind)]])
  | none => (c, [])

/-- A call waits for a computation. The outcome is given if the computation is over. -/
def wait (c : Cache τ ω α W) (id : Nat) (token : Option (Token τ)) (call : ω) :
    Cache τ ω α W × Nat × Option (Except Failure α) :=
  let n := c.nextWaiter
  ({ c.modifyFlight id fun f => { f with waiters := f.waiters + 1 } with
      waiters := c.waiters ++ [⟨n, id, token, call⟩], nextWaiter := n + 1 },
    n, (c.flight? id).bind Flight.outcome)

/-- A computation is over. The numbers are those of the calls to tell, in order. -/
def settle (c : Cache τ ω α W) (id : Nat) (outcome : Except Failure α) : Cache τ ω α W × List Nat :=
  (c.modifyFlight id fun f => { f with outcome := some outcome },
    (c.waiters.filter (·.flight == id)).map Waiter.id)

def remove (c : Cache τ ω α W) (key : CacheKey) (e : CacheEntry α W) : Cache τ ω α W :=
  { c with entries := Dict.erase c.entries key, weight := Weight.sub c.weight e.weight }

/-- The first stored value with the lowest score below `lowest`, the one under `keep` excepted. -/
def victim? (policy : EvictionPolicy) (generation : Nat) (keep : Option CacheKey)
    (best : Option (CacheKey × CacheEntry α W)) (lowest : Score) :
    List (CacheKey × CacheEntry α W) → Option (CacheKey × CacheEntry α W × Score)
  | [] => best.map fun b => (b.1, b.2, lowest)
  | (key, e) :: rest =>
    let score := policy e.candidate generation
    if some key ≠ keep && score.lt lowest then victim? policy generation keep (some (key, e)) score
      rest
    else victim? policy generation keep best lowest rest

/-- Evict at most `n` values, until the weight fits or nothing is left that may go. -/
def pruneAtMost (keep : Option CacheKey) : Nat → Cache τ ω α W → Cache τ ω α W × List Trace
  | 0, c => (c, [])
  | n + 1, c =>
    if Weight.lt c.maxWeight c.weight then
      match victim? c.policy c.generation keep none .unbounded c.entries with
      | none => (c, [])
      | some (key, e, score) =>
        let (c', traces) := pruneAtMost keep n
          ((c.remove key e).count fun s => { s with evictions := s.evictions + 1 })
        (c', note "evict" [("kind", .text e.kind), ("score", .number score.toNumber)] :: traces)
    else (c, [])

/-- Evict values until the weight fits or nothing is left that may go. -/
def prune (c : Cache τ ω α W) (keep : Option CacheKey) : Cache τ ω α W × List Trace :=
  pruneAtMost keep c.entries.length c

/-- Make the outcome of a computation known: a value is stored, unless nobody waited for it to the
end or another computation took its place, and a failure is counted, unless it is a cancellation. -/
def publish (c : Cache τ ω α W) (id : Nat) (now : Int) : Cache τ ω α W × List Trace :=
  match c.flight? id with
  | none => (c, [])
  | some f =>
    let c := { c with flights := c.flights.filter (·.id != id) }
    match f.outcome with
    | none => (c, [])
    | some (.ok value) =>
      if f.state != .running then (c, [])
      else
        let cost := max 0 (now - f.startedAt)
        let generation := c.generation + 1
        let c := { c with
          generation
          entries := Dict.put c.entries f.key ⟨value, f.kind, cost, f.weight, generation, 0⟩
          weight := Weight.add c.weight f.weight }
        let (c, traces) := c.prune (some f.key)
        (c, note "compute.stored" [("kind", .text f.kind), ("cost", .int cost)] :: traces)
    | some (.error (.cancelled _)) => (c, [])
    | some (.error e) =>
      (c.count fun s => { s with failures := s.failures + 1 },
        [note "compute.failed" [("kind", .text f.kind), ("message", .text e.message)]])

def waiter? (c : Cache τ ω α W) (id : Nat) : Option (Waiter τ ω) := c.waiters.find? (·.id == id)

def dropWaiter (c : Cache τ ω α W) (w : Waiter τ ω) : Cache τ ω α W :=
  { c.modifyFlight w.flight fun f => { f with waiters := f.waiters - 1 } with
    waiters := c.waiters.filter (·.id != w.id) }

def deliver (c : Cache τ ω α W) (id : Nat) : Cache τ ω α W × Option ω :=
  match c.waiter? id with
  | some w => (c.dropWaiter w, some w.call)
  | none => (c, none)

inductive Consequence (ω : Type) where
  | trace (t : Trace)
  | abandoned (flight : Nat)
  | refused (call : ω) (reason : CancelReason)

/-- Whether nobody waits for a computation under way. -/
def isDeserted (c : Cache τ ω α W) (id : Nat) : Bool :=
  (c.flight? id).any fun f => f.state == .running && f.waiters == 0

def abandon (c : Cache τ ω α W) (id : Nat) : Cache τ ω α W :=
  (c.modifyFlight id fun f => { f with state := .abandoned }).count fun s =>
    { s with abandoned := s.abandoned + 1 }

def abandonTrace (c : Cache τ ω α W) (id : Nat) : Trace :=
  note "compute.abandoned"
    [("key", .text (((c.flight? id).map fun f => f.key.text.take 40).getD []))]

/-- One call gives up. When it was the last one to wait, the computation is abandoned and with it
the calls made on its behalf, which `deeper` cancels. -/
def giveUp [DecidableEq τ]
    (deeper : Cache τ ω α W → Token τ → CancelReason → Cache τ ω α W × List (Consequence ω))
    (reason : CancelReason) (c : Cache τ ω α W) (w : Waiter τ ω) :
    Cache τ ω α W × List (Consequence ω) :=
  match c.waiter? w.id with
  | none => (c, [])
  | some w =>
    let c := c.dropWaiter w
    if c.isDeserted w.flight then
      let (c', more) := deeper (c.abandon w.flight) (.flight w.flight) .abandoned
      (c', .trace (c.abandonTrace w.flight) :: .abandoned w.flight :: more ++
        [.refused w.call reason])
    else (c, [.refused w.call reason])

/-- The calls under a token give up, in the order in which they came; `depth` bounds how deep one
abandoned computation waits for another. -/
def cancelDeep [DecidableEq τ] :
    Nat → Cache τ ω α W → Token τ → CancelReason → Cache τ ω α W × List (Consequence ω)
  | 0, c, _, _ => (c, [])
  | depth + 1, c, token, reason =>
    (c.waiters.filter (·.token == some token)).foldl (fun (acc : _ × _) w =>
      let (c, more) := giveUp (cancelDeep depth) reason acc.1 w
      (c, acc.2 ++ more)) (c, [])

/-- The calls under a token give up. A computation is abandoned once, so the number of computations
bounds the depth. -/
def cancel [DecidableEq τ] (c : Cache τ ω α W) (token : Token τ) (reason : CancelReason) :
    Cache τ ω α W × List (Consequence ω) :=
  cancelDeep (c.flights.length + 1) c token reason

/-- The value stored at a place, without counting it as used. -/
def peek? (c : Cache τ ω α W) (key : CacheKey) : Option α :=
  (Dict.get? c.entries key).map CacheEntry.value

def has (c : Cache τ ω α W) (key : CacheKey) : Bool := Dict.has c.entries key

def isInFlight (c : Cache τ ω α W) (key : CacheKey) : Bool := (c.running? key).isSome

/-- Drop the stored values of a kind; the second part says how many there were. -/
def invalidateKind (c : Cache τ ω α W) (kind : Text) : Cache τ ω α W × Nat × List Trace :=
  let gone := c.entries.filter (·.2.kind == kind)
  (gone.foldl (fun c e => c.remove e.1 e.2) c, gone.length,
    [note "invalidate.kind" [("kind", .text kind), ("removed", .nat gone.length)]])

def clear (c : Cache τ ω α W) : Cache τ ω α W × List Trace :=
  ({ c with entries := [], weight := Weight.zero }, [note "clear" []])

def setMaxWeight (c : Cache τ ω α W) (maxWeight : W) : Cache τ ω α W × List Trace :=
  ({ c with maxWeight } : Cache τ ω α W).prune none

end Cache

end Quill
