import Quill.Engine.Config

/-!
# Settings of the server

The settings are one section of the configuration of the client, sent as a value. Every field is
optional and looked at on its own, so a bad setting only falls back to its default.

## Main definitions

* `Settings` — a patch for the engine and the debug channels asked for.
* `Settings.ofValue` — the settings in a section.
* `Settings.sectionOf` — the section in a whole configuration.
-/

namespace Quill

/-- What the client asks of the server. Without a list of channels the environment decides. -/
structure Settings where
  engine : ConfigPatch
  channels : Option (List Text)
  deriving DecidableEq, Repr

namespace Settings

def default : Settings := ⟨{}, none⟩

def sectionName : Text := "quill"

def sectionOf (configuration : Value) : Value := configuration.field sectionName

def channels? : Value → Option (List Text)
  | .text t => some (Text.split (· == Text.unit ',') t)
  | .array xs => some (xs.filterMap Value.text?)
  | _ => none

/-- The settings in a section; a section that is no object asks for nothing. -/
def ofValue (v : Value) : Settings :=
  match v with
  | .object _ =>
    let workers := v.field "scheduler"
    { engine :=
        { debounceMs := ConfigPatch.number? ((v.field "diagnostics").field "debounceMs")
          maxWorkers := ConfigPatch.number? (workers.field "maxWorkers")
          maxRestarts := ConfigPatch.number? (workers.field "maxRestarts")
          backgroundBudgetMs := ConfigPatch.number? (workers.field "backgroundBudgetMs")
          cache := some (ConfigPatch.number? ((v.field "cache").field "maxWeight"))
          compile := some (ConfigPatch.compileOfValue (v.field "compile"))
          formatter := some (ConfigPatch.formatterOfValue (v.field "formatter")) }
      channels := channels? ((v.field "debug").field "channels") }
  | _ => default

end Settings

end Quill
