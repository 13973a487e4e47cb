import Quill.Compile.Compiler
import Quill.Engine.Config
import Quill.Record.Basic

/-!
# Configuration as data

## Main definitions

* `EngineConfig.record`, `ConfigPatch.record` — a configuration and a change of one.
* `Compiler.ofRecord` — a compiler with the faults that data describes.
* `CompileSettings.ofRecord`, `Limits.ofRecord` — settings and limits from data.
-/

namespace Quill

open Record

def CompileSettings.record (s : CompileSettings) : Value :=
  obj [("inputs", pairs s.inputs), ("fontRevision", str s.fontRevision)]

def CompileSettings.ofRecord (v : Value) : CompileSettings where
  inputs := (v.get "inputs").textFields
  fontRevision := (v.get "fontRevision").text?.getD CompileSettings.default.fontRevision

def EngineConfig.record (c : EngineConfig) : Value :=
  obj [("debounceMs", .nat c.debounceMs), ("maxWorkers", .nat c.limits.maxWorkers),
    ("maxRestarts", .nat c.limits.maxRestarts),
    ("backgroundBudgetMs", .nat c.limits.backgroundBudgetMs),
    ("cache", obj [("maxWeight", .nat c.maxWeight)]),
    ("compile", c.compile.record),
    ("formatter", obj [("mode", str c.formatterMode.word), ("printWidth", .nat c.printWidth)])]

def ConfigPatch.record (p : ConfigPatch) : Value :=
  obj [("debounceMs", orAbsent .number p.debounceMs), ("maxWorkers", orAbsent .number p.maxWorkers),
    ("maxRestarts", orAbsent .number p.maxRestarts),
    ("backgroundBudgetMs", orAbsent .number p.backgroundBudgetMs),
    ("cache", orAbsent (fun w => obj [("maxWeight", orAbsent .number w)]) p.cache),
    ("compile", orAbsent (fun (c : CompilePatch) =>
      obj [("inputs", orAbsent pairs c.inputs), ("fontRevision", orAbsent str c.fontRevision)])
      p.compile),
    ("formatter", orAbsent (fun (f : FormatterPatch) =>
      obj [("mode", orAbsent (fun m => str (FormatterMode.word m)) f.mode),
        ("printWidth", orAbsent .number f.printWidth)]) p.formatter)]

/-- Limits from data; a field that is missing keeps its value. -/
def Limits.ofRecord (base : Limits) (v : Value) : Limits :=
  let take (key : String) (old : Nat) : Nat :=
    match v.field? (Text.ofString key) with
    | some n => n.asNat
    | none => old
  ⟨take "maxWorkers" base.maxWorkers, take "maxRestarts" base.maxRestarts,
    take "backgroundBudgetMs" base.backgroundBudgetMs⟩

/-- The compiler of this library, with the faults that data describes, if it describes any. -/
def Compiler.ofRecord (v : Value) : Compiler :=
  match v with
  | .object _ => Compiler.quill.withFaults
    { read := (v.get "parse").text?, scan := (v.get "scan").text?
      compile := (v.get "compile").text?, format := (v.get "format").text?
      plain := (v.get "raw").isTrue }
  | _ => .quill

end Quill
