import Quill.Query.Basic
import Quill.Record.Basic
import Quill.Store.Basic

/-!
# Messages of a client

## Main definitions

* `Feature` — a query of a client, with the name it has in the log.
* `Message` — what a client can send.
* `Message.ofParams?` — a message from its method and its parameters.
-/

namespace Quill

/-- A query of a client. In the log it goes by a name and the document as the client names it. -/
structure Feature where
  name : Text
  place : Text
  query : Query
  /-- Whether the query shows that the document is in use. -/
  focuses : Bool := false

/-- What a client says of itself when it starts. -/
structure ClientProfile where
  folder : Option Text
  /-- Whether it answers when it is asked for settings. -/
  answersSettings : Bool
  /-- Whether one can register for changes of its settings. -/
  takesRegistrations : Bool
  /-- Settings sent along, if there are any. -/
  settings : Option Value

inductive Message where
  | start (profile : ClientProfile)
  | initialized
  | shutdown
  | didOpen (uri text : Text) (version : Int) (language : Option Text)
  | didChange (uri : Text) (changes : List ContentChange) (version : Int)
  | didClose (uri : Text)
  | didChangeConfiguration (configuration : Value)
  | didChangeWatchedFiles (uris : List Text)
  | feature (f : Feature)
  | executeCommand (command : Text) (argument : Value)

namespace Message

def isRequest : Message → Bool
  | feature _ | executeCommand .. => true
  | _ => false

def profileOf (params : Value) : ClientProfile :=
  let workspace := (params.get "capabilities").get "workspace"
  { folder := (params.get "rootUri").text?.filter (!·.isEmpty)
    answersSettings := (workspace.get "configuration").isTrue
    takesRegistrations :=
      ((workspace.get "didChangeConfiguration").get "dynamicRegistration").isTrue
    settings := params.field? "initializationOptions" }

def featureOf (name : Text) (params : Value) (question : Question) (focuses : Bool := false) :
    Message :=
  let place := (params.get "textDocument").textAt "uri"
  .feature { name, place, query := ⟨some (Uri.ofInput place), question⟩, focuses }

/-- What stands in the log for a query about everything that is open. -/
def everywhere : Text := "<workspace>"

def ofParams? (method : Text) (params : Value) : Option Message :=
  let document := params.get "textDocument"
  let uri := document.textAt "uri"
  let version := document.intAt "version"
  let position := Position.ofRecord (params.get "position")
  match method.toString with
  | "initialize" => some (.start (profileOf params))
  | "initialized" => some .initialized
  | "shutdown" => some .shutdown
  | "textDocument/didOpen" =>
    some (.didOpen uri (document.textAt "text") version (document.get "languageId").text?)
  | "textDocument/didChange" =>
    some (.didChange uri ((params.itemsAt "contentChanges").map .ofValue) version)
  | "textDocument/didClose" => some (.didClose uri)
  | "workspace/didChangeConfiguration" => some (.didChangeConfiguration (params.get "settings"))
  | "workspace/didChangeWatchedFiles" =>
    some (.didChangeWatchedFiles ((params.itemsAt "changes").map fun c => c.textAt "uri"))
  | "textDocument/completion" => some (featureOf "completion" params (.completion position))
  | "textDocument/hover" => some (featureOf "hover" params (.hover position) true)
  | "textDocument/definition" => some (featureOf "definition" params (.definition position))
  | "textDocument/references" =>
    some (featureOf "references" params
      (.references position ((params.get "context").get "includeDeclaration").isTrue))
  | "textDocument/prepareRename" =>
    some (featureOf "prepareRename" params (.prepareRename position))
  | "textDocument/rename" =>
    some (featureOf "rename" params (.rename position (params.textAt "newName")))
  | "textDocument/formatting" => some (featureOf "formatting" params .formatting)
  | "textDocument/documentSymbol" => some (featureOf "documentSymbol" params .documentSymbols)
  | "textDocument/foldingRange" => some (featureOf "foldingRange" params .foldingRanges true)
  | "workspace/symbol" =>
    some (.feature ⟨"workspaceSymbol", everywhere,
      ⟨none, .workspaceSymbols (params.textAt "query")⟩, false⟩)
  | "workspace/executeCommand" =>
    some (.executeCommand (params.textAt "command") ((params.get "arguments").nth 0))
  | _ => none

end Message

end Quill
