import Quill.Flow.Script
import Quill.Record.Query

/-!
# Scripts as data

## Main definitions

* `ScriptStep.ofRecord` — a step of a script from data.
* `Plan.ofRecord` — a plan from data.
-/

namespace Quill

/-- What a script says of a document, from data: its uri, its origin and its version. -/
def ScriptRead.ofRecord (v : Value) : ScriptRead where
  uri := (v.nth 0).asText
  origin := .ofRecord (v.nth 1)
  version := (v.nth 2).asInt?

/-- A step of a script from data: its name and its arguments. -/
def ScriptStep.ofRecord (v : Value) : ScriptStep :=
  match (v.nth 0).word with
  | "read" =>
    .read ((v.nth 1).items.map ScriptRead.ofRecord)
      (if (v.nth 2).isWord "workspace" then .workspace else .document)
  | "gate" => .gate (v.nth 1).asText
  | "checkpoint" => .checkpoint
  | "note" => .note (v.nth 1).asText
  | "fail" => .fail (.error (v.nth 1).asText)
  | "fail_on" => .failIn (v.nth 1).asNat (.error (v.nth 2).asText)
  | _ => .fail (.cancelled (.ofRecord (v.nth 1)))

/-- How a plan fails, from data: three words name failures, any other text is raised as it is. -/
def Plan.failure (t : Text) : Failure :=
  match t.toString with
  | "unknown" => .unknownDocument []
  | "cancelled" => .cancelled .client
  | "superseded" => .superseded [] 0
  | _ => .raised t

def Plan.diagnostic (message : Text) : Diagnostic :=
  { Diagnostic.ofFinding (.unknownLabel []) .zero [] with message }

def Plan.ofRecord (v : Value) : Plan where
  gate := (v.get "gate").text?
  fail := (v.get "fail").text?.map failure
  entries := (v.get "entries").items?.map fun es => Dict.ofList (es.map fun e =>
    ((e.nth 0).asText,
      ⟨(e.nth 1).asInt, .ofRecord (e.nth 2), (e.nth 3).texts.map diagnostic⟩))
  dependencies := (v.get "dependencies").items?.map fun ds => ds.map Value.asText

def Plan.allOfRecord (v : Value) : Dict Uri (List Plan) :=
  match v with
  | .object fields => fields.map fun e => (e.1, e.2.items.map Plan.ofRecord)
  | _ => []

end Quill
