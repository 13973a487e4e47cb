import Quill.Compile.World
import Quill.Number.Shortest
import Quill.Value.Basic

/-!
# Configuration of the engine

A configuration is changed by a patch, in which every field is optional. Each field is taken over on
its own: one that is absent, of the wrong type or out of range keeps its value.

## Main definitions

* `EngineConfig` — the configuration; `EngineConfig.default` is the initial one.
* `ConfigPatch` — a change; `ConfigPatch.ofValue` keeps the fields of the right type.
* `EngineConfig.patch` — a configuration with a patch applied.
-/

namespace Quill

inductive FormatterMode where
  | builtin
  | disable
  deriving DecidableEq, Repr

def FormatterMode.word : FormatterMode → Text
  | .builtin => "builtin"
  | .disable => "disable"

def FormatterMode.ofValue? : Value → Option FormatterMode
  | .text t => if t = "builtin" then some .builtin else if t = "disable" then some .disable
    else none
  | _ => none

/-- How much work may run at once and how often it is tried again. A budget of zero is none. -/
structure Limits where
  maxWorkers : Nat
  maxRestarts : Nat
  backgroundBudgetMs : Nat
  deriving DecidableEq, Repr

/-- The configuration of the engine; times are in milliseconds. -/
structure EngineConfig where
  debounceMs : Nat
  limits : Limits
  maxWeight : Nat
  compile : CompileSettings
  formatterMode : FormatterMode
  printWidth : Nat
  deriving DecidableEq, Repr

def EngineConfig.default : EngineConfig where
  debounceMs := 150
  limits := ⟨2, 2, 500⟩
  maxWeight := 512
  compile := .default
  formatterMode := .builtin
  printWidth := 80

structure CompilePatch where
  inputs : Option (Dict Text Text) := none
  fontRevision : Option Text := none
  deriving DecidableEq, Repr

structure FormatterPatch where
  mode : Option FormatterMode := none
  printWidth : Option Number := none
  deriving DecidableEq, Repr

/-- A change of the configuration. Numbers are as they were sent; the groups may be absent. -/
structure ConfigPatch where
  debounceMs : Option Number := none
  maxWorkers : Option Number := none
  maxRestarts : Option Number := none
  backgroundBudgetMs : Option Number := none
  /-- The weight that the cache may hold, in its group. -/
  cache : Option (Option Number) := none
  compile : Option CompilePatch := none
  formatter : Option FormatterPatch := none
  deriving DecidableEq, Repr

namespace ConfigPatch

def number? (v : Value) : Option Number := v.number?.filter Number.isFinite

def inputText? : Value → Option Text
  | .text t => some t
  | .number n => some n.render
  | .bool b => some (if b then "true" else "false")
  | _ => none

/-- The inputs in an object; entries without a text are dropped, and so is one named `__proto__`,
which no object keeps as a name. -/
def inputs? : Value → Option (Dict Text Text)
  | .object fields =>
    some (fields.filterMap fun e =>
      if e.1 = ("__proto__" : Text) then none else (inputText? e.2).map fun t => (e.1, t))
  | _ => none

def compileOfValue (v : Value) : CompilePatch where
  inputs := inputs? (v.field "inputs")
  fontRevision := (v.field "fontRevision").text?

def formatterOfValue (v : Value) : FormatterPatch where
  mode := FormatterMode.ofValue? (v.field "mode")
  printWidth := number? (v.field "printWidth")

def ofValue (v : Value) : ConfigPatch where
  debounceMs := number? (v.field "debounceMs")
  maxWorkers := number? (v.field "maxWorkers")
  maxRestarts := number? (v.field "maxRestarts")
  backgroundBudgetMs := number? (v.field "backgroundBudgetMs")
  cache := some (number? ((v.field "cache").field "maxWeight"))
  compile := some (compileOfValue (v.field "compile"))
  formatter := some (formatterOfValue (v.field "formatter"))

end ConfigPatch

namespace EngineConfig

def takeNat (n : Option Number) (old least : Nat) : Nat :=
  match n.bind Number.floor? with
  | some (.ofNat k) => if least ≤ k then k else old
  | _ => old

def takeText (t : Option Text) (old : Text) : Text :=
  match t with
  | some (u :: rest) => u :: rest
  | _ => old

def patch (c : EngineConfig) (p : ConfigPatch) : EngineConfig where
  debounceMs := takeNat p.debounceMs c.debounceMs 0
  limits :=
    { maxWorkers := takeNat p.maxWorkers c.limits.maxWorkers 1
      maxRestarts := takeNat p.maxRestarts c.limits.maxRestarts 0
      backgroundBudgetMs := takeNat p.backgroundBudgetMs c.limits.backgroundBudgetMs 0 }
  maxWeight := takeNat p.cache.join c.maxWeight 1
  compile :=
    { inputs := (p.compile.bind CompilePatch.inputs).getD c.compile.inputs
      fontRevision := takeText (p.compile.bind CompilePatch.fontRevision) c.compile.fontRevision }
  formatterMode := (p.formatter.bind FormatterPatch.mode).getD c.formatterMode
  printWidth := takeNat (p.formatter.bind FormatterPatch.printWidth) c.printWidth 1

def toPatch (c : EngineConfig) : ConfigPatch where
  debounceMs := some (.ofNat c.debounceMs)
  maxWorkers := some (.ofNat c.limits.maxWorkers)
  maxRestarts := some (.ofNat c.limits.maxRestarts)
  backgroundBudgetMs := some (.ofNat c.limits.backgroundBudgetMs)
  cache := some (some (.ofNat c.maxWeight))
  compile := some ⟨some c.compile.inputs, some c.compile.fontRevision⟩
  formatter := some ⟨some c.formatterMode, some (.ofNat c.printWidth)⟩

/-- An empty patch changes nothing. -/
@[simp] theorem patch_empty (c : EngineConfig) : c.patch {} = c := by
  simp [patch, takeNat, takeText]

theorem le_takeNat (n : Option Number) {old least : Nat} (h : least ≤ old) :
    least ≤ takeNat n old least := by
  simp only [takeNat]
  split <;> try split
  all_goals omega

end EngineConfig

end Quill
