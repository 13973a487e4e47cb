import Quill.Cache.Basic
import Quill.Signal.Cancellation

/-!
# Using the cache directly

Between two calls nothing else may be going on; then a computation that ends tells everybody at
once, and a call is one operation. Calls and their tokens are known by name. A computation that is
not over at once is ended under the name of the call that started it.

## Main definitions

* `Cache.finish` — a computation ends, and all who wait for it are told.
* `Cache.call` — a call, with the outcome of the computation it may start, if that ends at once.
* `NamedCache` — a cache at rest, its clock, the tokens that have fired and the computations under
  way.
* `NamedCache.call`, `NamedCache.finish`, `NamedCache.cancel` — the operations, with a `Report`.
-/

namespace Quill.Cache

variable {τ ω α W : Type} [Weight W]

/-- Tell the calls with the given numbers; the second part lists those that still waited. -/
def deliverAll (c : Cache τ ω α W) (ids : List Nat) : Cache τ ω α W × List ω :=
  ids.foldl (fun acc id =>
    let (c, call) := acc.1.deliver id
    (c, acc.2 ++ call.toList)) (c, [])

def finish (c : Cache τ ω α W) (id : Nat) (outcome : Except Failure α) (now : Int) :
    Cache τ ω α W × List ω :=
  let (c, ids) := c.settle id outcome
  let (c, _) := c.publish id now
  c.deliverAll ids

/-- What became of a call: the number of the computation it started, and the calls that are over,
itself perhaps among them, with their outcome. -/
structure CallResult (ω α : Type) where
  started : Option Nat := none
  told : List ω := []
  outcome : Option (Except Failure α) := none

def call (c : Cache τ ω α W) (key : CacheKey) (weight : W) (now : Int) (token : Option (Token τ))
    (name : ω) (immediate : Option (Except Failure α)) : Cache τ ω α W × CallResult ω α :=
  match c.ask key weight now with
  | (c, .hit v, _) => (c, { told := [name], outcome := some (.ok v) })
  | (c, .join id, _) => ((c.wait id token name).1, {})
  | (c, .start id, _) =>
    let c := (c.register id).1
    let c := (c.wait id token name).1
    match immediate with
    | none => (c, { started := some id })
    | some outcome =>
      let (c, told) := c.finish id outcome now
      (c, { started := some id, told, outcome := some outcome })

end Quill.Cache

namespace Quill

/-- What became of calls: the one that started a computation, those that are over, and the
computations that were abandoned, by the names of the calls that started them. -/
structure NamedCache.Report (α : Type) where
  started : List Text := []
  ended : List (Text × Except Failure α) := []
  abandoned : List Text := []

/-- A cache at rest, its clock, the tokens that have fired, and the computations under way. -/
structure NamedCache (α : Type) where
  cache : Cache Text Text α Number
  now : Int := 0
  fired : Dict Text CancelReason := []
  flights : Dict Text Nat := []

namespace NamedCache

variable {α : Type}

def call (c : NamedCache α) (name : Text) (key : CacheKey) (weight : Number) (token : Option Text)
    (immediate : Option (Except Failure α)) : NamedCache α × Report α :=
  match throwIfCancelled (token.bind (Dict.get? c.fired)) with
  | .error e => (c, { ended := [(name, .error e)] })
  | .ok () =>
    let (cache, r) := c.cache.call key weight c.now (token.map .caller) name immediate
    let flights :=
      match r.started, r.outcome with
      | some id, none => Dict.put c.flights name id
      | _, _ => c.flights
    ({ c with cache, flights },
      { started := if r.started.isSome then [name] else []
        ended := r.outcome.toList.flatMap fun o => r.told.map fun n => (n, o) })

def finish (c : NamedCache α) (name : Text) (outcome : Except Failure α) :
    NamedCache α × Report α :=
  match Dict.get? c.flights name with
  | none => (c, {})
  | some id =>
    let (cache, told) := c.cache.finish id outcome c.now
    ({ c with cache, flights := Dict.erase c.flights name },
      { ended := told.map fun n => (n, outcome) })

def cancel (c : NamedCache α) (token : Text) (reason : CancelReason) : NamedCache α × Report α :=
  if Dict.has c.fired token then (c, {})
  else
    let (cache, consequences) := c.cache.cancel (.caller token) reason
    let starter (id : Nat) : List Text := (c.flights.find? (·.2 == id)).toList.map Prod.fst
    ({ c with cache, fired := Dict.put c.fired token reason },
      { abandoned := consequences.flatMap fun e =>
          match e with
          | .abandoned id => starter id
          | _ => []
        ended := consequences.filterMap fun e =>
          match e with
          | .refused n r => some (n, .error (.cancelled r))
          | _ => none })

def modify (c : NamedCache α) (f : Cache Text Text α Number → Cache Text Text α Number) :
    NamedCache α :=
  { c with cache := f c.cache }

end NamedCache

end Quill
