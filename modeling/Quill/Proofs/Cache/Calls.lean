import Quill.Cache.Basic

/-!
# Calls of the cache

The cache is called for values, by anybody and by computations, and in between tokens fire,
computations are over, outcomes become known, callers are told and stored values go. A run is a list
of such acts, in any order.

A call that starts a computation runs the first part of the computation at once, and only then the
computation can be joined. In its first part a computation may call for other values and start
further computations, but it does not call for its own.

## Main definitions

* `Cache.Scene` — a cache, the tokens that have fired, and what has become of calls and
  computations.
* `Cache.Act`, `Act.apply`, `Act.Allowed` — the acts.
* `Cache.Act.Clashes` — the calls that the cache cannot tell from others: one for a value whose
  computation has begun but cannot be joined yet, and one for a key that shares its place.
* `Cache.Happening` — what an act did to calls and computations.
* `Cache.Reached` — a scene is reached by a history, the latest moment first.
* `Cache.Runs` — the same without calls that clash.
* `Cache.play` — the history of given acts.
-/

namespace Quill.Cache

variable {τ α W : Type} [Weight W] [DecidableEq τ]

/-- A call that has started a computation whose first part is running. -/
structure Beginning (τ : Type) where
  flight : Nat
  key : CacheKey
  call : Nat
  token : Option (Token τ)

/-- A cache and what surrounds it. Calls have numbers. The computations that run their first part
are those of `beginnings`, the latest first; those of `known` have been made known with their
outcome. -/
structure Scene (τ α W : Type) [Weight W] where
  cache : Cache τ Nat α W
  nextCall : Nat := 0
  beginnings : List (Beginning τ) := []
  fired : Dict τ CancelReason := []
  abandoned : List Nat := []
  known : Dict Nat (Except Failure α) := []

inductive Happening (τ α : Type) where
  | called (call : Nat) (key : CacheKey) (token : Option (Token τ))
  /-- A call finds a stored value. -/
  | hit (call : Nat) (value : α)
  | started (flight : Nat) (key : CacheKey)
  | joined (call flight : Nat)
  /-- A call is told the outcome of the computation it joined. -/
  | told (call : Nat) (outcome : Except Failure α)
  /-- The token of a call has fired. -/
  | refused (call : Nat) (reason : CancelReason)
  | ended (flight : Nat) (outcome : Except Failure α)
  | known (flight : Nat)
  /-- The token of a computation fires. -/
  | abandoned (flight : Nat)

def Happening.answer? (call : Nat) : Happening τ α → Option (Except Failure α)
  | .hit n value => if n = call then some (.ok value) else none
  | .told n outcome => if n = call then some outcome else none
  | .refused n reason => if n = call then some (.error (.cancelled reason)) else none
  | _ => none

def abandonedOf (cs : List (Consequence Nat)) : List Nat :=
  cs.filterMap fun
    | .abandoned id => some id
    | _ => none

/-- What follows from a cancellation, for calls and computations. -/
def happeningsOf (cs : List (Consequence Nat)) : List (Happening τ α) :=
  cs.filterMap fun
    | .abandoned id => some (.abandoned id)
    | .refused call reason => some (.refused call reason)
    | .trace _ => none

namespace Scene

def reason? (s : Scene τ α W) : Token τ → Option CancelReason
  | .caller t => Dict.get? s.fired t
  | .flight id => if id ∈ s.abandoned then some .abandoned else none

def take (s : Scene τ α W) (r : Cache τ Nat α W × List (Consequence Nat)) : Scene τ α W :=
  { s with cache := r.1, abandoned := s.abandoned ++ abandonedOf r.2 }

def cancel (s : Scene τ α W) (token : Token τ) (reason : CancelReason) :
    Scene τ α W × List (Happening τ α) :=
  let r := s.cache.cancel token reason
  (s.take r, happeningsOf r.2)

end Scene

inductive Act (τ α W : Type) where
  | call (key : CacheKey) (weight : W) (now : Int) (token : Option (Token τ))
  /-- The first part of the latest computation is over. -/
  | pause
  /-- A computation is over. -/
  | settle (flight : Nat) (outcome : Except Failure α)
  /-- The outcome of a computation becomes known. -/
  | publish (flight : Nat) (now : Int)
  /-- A call that waits is told the outcome. -/
  | deliver (waiter : Nat)
  | fire (token : τ) (reason : CancelReason)
  | clear
  | invalidateKind (kind : Text)
  | setMaxWeight (maxWeight : W)

namespace Act

/-- What an act does. A call whose token has fired is refused; one whose token fired while the first
part of its computation ran gives up as soon as it waits. -/
def apply (s : Scene τ α W) : Act τ α W → Scene τ α W × List (Happening τ α)
  | .call key weight now token =>
    let n := s.nextCall
    let called : Happening τ α := .called n key token
    match token.bind s.reason? with
    | some reason => ({ s with nextCall := n + 1 }, [called, .refused n reason])
    | none =>
      match s.cache.ask key weight now with
      | (cache, .hit v, _) => ({ s with cache, nextCall := n + 1 }, [called, .hit n v])
      | (cache, .join id, _) =>
        ({ s with cache := (cache.wait id token n).1, nextCall := n + 1 }, [called, .joined n id])
      | (cache, .start id, _) =>
        ({ s with
            cache, nextCall := n + 1
            beginnings := ⟨id, key.place, n, token⟩ :: s.beginnings },
          [called, .started id key])
  | .pause =>
    match s.beginnings with
    | [] => (s, [])
    | b :: rest =>
      let cache := ((s.cache.register b.flight).1.wait b.flight b.token b.call).1
      let s := { s with cache, beginnings := rest }
      match b.token with
      | none => (s, [.joined b.call b.flight])
      | some token =>
        match s.reason? token with
        | none => (s, [.joined b.call b.flight])
        | some reason =>
          let (s, hs) := s.cancel token reason
          (s, .joined b.call b.flight :: hs)
  | .settle id r => ({ s with cache := (s.cache.settle id r).1 }, [.ended id r])
  | .publish id now =>
    match (s.cache.flight? id).bind Flight.outcome with
    | none => (s, [])
    | some r =>
      ({ s with cache := (s.cache.publish id now).1, known := Dict.put s.known id r }, [.known id])
  | .deliver waiter =>
    match (s.cache.waiter? waiter).bind fun w => Dict.get? s.known w.flight with
    | none => (s, [])
    | some r =>
      let (cache, n) := s.cache.deliver waiter
      ({ s with cache }, n.toList.map fun n => .told n r)
  | .fire token reason =>
    { s with fired := Dict.put s.fired token reason }.cancel (.caller token) reason
  | .clear => ({ s with cache := s.cache.clear.1 }, [])
  | .invalidateKind kind => ({ s with cache := (s.cache.invalidateKind kind).1 }, [])
  | .setMaxWeight maxWeight => ({ s with cache := (s.cache.setMaxWeight maxWeight).1 }, [])

/-- A computation does not call for its own value, and is over once, behind its first part; what is
not over is not made known, what is not known is not told; and a token fires once. While first parts
run, it is the latest computation that calls. -/
def Allowed (s : Scene τ α W) : Act τ α W → Bool
  | .call key _ _ _ => s.beginnings.head?.all (·.key ≠ key.place)
  | .pause => !s.beginnings.isEmpty
  | .settle id _ => (s.cache.flight? id).any fun f => f.state != .starting && f.outcome.isNone
  | .publish id _ => (s.cache.flight? id).any (·.outcome.isSome)
  | .deliver waiter => (s.cache.waiter? waiter).any fun w => Dict.has s.known w.flight
  | .fire token _ => !Dict.has s.fired token
  | .clear | .invalidateKind _ | .setMaxWeight _ => true

/-- A call for a key that is not its own place, or for a value whose computation is running its
first part. -/
def Clashes (s : Scene τ α W) : Act τ α W → Bool
  | .call key _ _ _ => key.place ≠ key || s.beginnings.any (·.key = key)
  | _ => false

def Orderly (s : Scene τ α W) (a : Act τ α W) : Bool := a.Allowed s && !a.Clashes s

end Act

structure Moment (τ α W : Type) [Weight W] where
  before : Scene τ α W
  act : Act τ α W

namespace Moment

def after (m : Moment τ α W) : Scene τ α W := (m.act.apply m.before).1

def happenings (m : Moment τ α W) : List (Happening τ α) := (m.act.apply m.before).2

end Moment

/-- The scene `s` is reached from an empty cache by a history, the latest moment first. -/
inductive Reached : List (Moment τ α W) → Scene τ α W → Prop where
  | start (policy : EvictionPolicy) (maxWeight : W) : Reached [] { cache := { policy, maxWeight } }
  | step {m : Moment τ α W} {h : List (Moment τ α W)} (before : Reached h m.before)
      (allowed : m.act.Allowed m.before) : Reached (m :: h) m.after

/-- The scene `s` is reached by a history without calls that clash. -/
inductive Runs : List (Moment τ α W) → Scene τ α W → Prop where
  | start (policy : EvictionPolicy) (maxWeight : W) : Runs [] { cache := { policy, maxWeight } }
  | step {m : Moment τ α W} {h : List (Moment τ α W)} (before : Runs h m.before)
      (orderly : m.act.Orderly m.before) : Runs (m :: h) m.after

theorem Reached.runs {h : List (Moment τ α W)} {s : Scene τ α W} (reached : Reached h s)
    (apart : h.all fun m => !m.act.Clashes m.before) : Runs h s := by
  induction reached with
  | start policy maxWeight => exact .start policy maxWeight
  | step before allowed ih =>
    obtain ⟨first, apart⟩ := Bool.and_eq_true_iff.1 apart
    exact .step (ih apart) (Bool.and_eq_true_iff.2 ⟨allowed, first⟩)

def logOf (h : List (Moment τ α W)) : List (Happening τ α) := h.flatMap Moment.happenings

@[simp] theorem logOf_nil : logOf ([] : List (Moment τ α W)) = [] := rfl

@[simp] theorem logOf_cons (m : Moment τ α W) (h : List (Moment τ α W)) :
    logOf (m :: h) = m.happenings ++ logOf h := rfl

/-- The history of given acts, the latest first as well. -/
def play (policy : EvictionPolicy) (maxWeight : W) :
    List (Act τ α W) → List (Moment τ α W) × Scene τ α W
  | [] => ([], { cache := { policy, maxWeight } })
  | a :: earlier =>
    let (h, s) := play policy maxWeight earlier
    let m : Moment τ α W := ⟨s, a⟩
    (m :: h, m.after)

/-- Acts that are all allowed when they are done make a run. -/
theorem reached_play (policy : EvictionPolicy) (maxWeight : W) (acts : List (Act τ α W))
    (allowed : (play policy maxWeight acts).1.all fun m => m.act.Allowed m.before) :
    Reached (play policy maxWeight acts).1 (play policy maxWeight acts).2 := by
  induction acts with
  | nil => exact .start policy maxWeight
  | cons a earlier ih =>
    simp only [play, List.all_cons, Bool.and_eq_true] at allowed ⊢
    exact .step (ih allowed.2) allowed.1

end Quill.Cache
