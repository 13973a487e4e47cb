import Quill.Record.Basic

/-!
# What the server offers

## Main definitions

* `Command` — the commands that a client can have executed.
* `Server.identity` — the name and the version of the server.
* `Server.capabilities` — what a client is told that the server can do.
-/

namespace Quill

inductive Command where
  | clearCache
  | pinMain
  | focusMain
  | getServerInfo
  | compile
  deriving DecidableEq, Repr

namespace Command

def name : Command → Text
  | clearCache => "quill.clearCache"
  | pinMain => "quill.pinMain"
  | focusMain => "quill.focusMain"
  | getServerInfo => "quill.getServerInfo"
  | compile => "quill.compile"

def all : List Command := [clearCache, pinMain, focusMain, getServerInfo, compile]

def ofName? (n : Text) : Option Command := all.find? fun c => c.name = n

end Command

namespace Server

open Record

def identity : List (String × Value) := [("name", .str "quill-ls"), ("version", .str "0.4.0")]

/-- The number that stands for documents sent change by change. -/
def incrementalSync : Nat := 2

def capabilities : Value :=
  obj
    [("textDocumentSync", obj [("openClose", .bool true), ("change", .nat incrementalSync)]),
      ("completionProvider", obj [("triggerCharacters", arr [.str "@", .str "#"])]),
      ("hoverProvider", .bool true),
      ("definitionProvider", .bool true),
      ("referencesProvider", .bool true),
      ("renameProvider", obj [("prepareProvider", .bool true)]),
      ("documentFormattingProvider", .bool true),
      ("documentSymbolProvider", .bool true),
      ("workspaceSymbolProvider", .bool true),
      ("foldingRangeProvider", .bool true),
      ("executeCommandProvider",
        obj [("commands", arr (Command.all.map fun c => str c.name))])]

end Server

end Quill
