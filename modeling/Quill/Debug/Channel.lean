import Quill.Text.Blank
import Quill.Text.LowerCase
import Quill.Value.Json

/-!
# Debug channels

Every part of the engine has a debug channel. A line on a channel names a point and carries data;
it is written only while the channel is enabled. Names of channels are compared without regard to
case, and the name `*` stands for all of them.

## Main definitions

* `Channel` — the channels.
* `Channels` — a set of enabled names; `Channels.ofSetting` reads the text of a setting.
* `DebugFormat.line` — the line for a point with its data.
-/

namespace Quill

inductive Channel where
  | store
  | snapshot
  | cache
  | scheduler
  | publisher
  | query
  | compile
  | server
  deriving DecidableEq, Repr

def Channel.name : Channel → Text
  | .store => "store"
  | .snapshot => "snapshot"
  | .cache => "cache"
  | .scheduler => "scheduler"
  | .publisher => "publisher"
  | .query => "query"
  | .compile => "compile"
  | .server => "server"

def Channel.all : List Channel :=
  [.store, .snapshot, .cache, .scheduler, .publisher, .query, .compile, .server]

abbrev Channels := List Text

namespace Channels

def every : Text := "*"

/-- The channels named in a list; blanks around a name do not count, and empty names are dropped. -/
def ofNames (names : List Text) : Channels :=
  (names.map fun n => (Text.trim n).lower).filter (!·.isEmpty)

/-- The channels that the text of a setting enables: none, all, or those in a list with commas. -/
def ofSetting (t : Text) : Channels :=
  if t = [] || t = "0" || t = "false" then []
  else if t = "*" || t = "1" || t = "true" then [every]
  else ofNames (Text.split (· == Text.unit ',') t)

def choose (environment : Option Text) (names : Option (List Text)) : Channels :=
  match names with
  | some ns => ofNames ns
  | none => ofSetting (environment.getD [])

def isEnabled (cs : Channels) (name : Text) : Bool := cs.contains every || cs.contains name.lower

@[simp] theorem isEnabled_nil (name : Text) : isEnabled [] name = false := rfl

end Channels

inductive DebugFormat where
  | pretty
  | json
  deriving DecidableEq, Repr

namespace DebugFormat

/-- The greatest length of a text that is shown in full. -/
def shownLength : Nat := 60

mutual
def shown : Value → Text
  | .null => "null"
  | .undefined => "undefined"
  | .text t =>
    if shownLength < t.length then Text.unit '"' :: t.take (shownLength - 3) ++ "...\""
    else Text.unit '"' :: t ++ "\""
  | .array xs =>
    if 3 < xs.length then "[" ++ Text.ofNat xs.length ++ " items]"
    else "[" ++ Text.join ", " (shownItems xs) ++ "]"
  | .object fields =>
    match Dict.get? fields "kind" with
    | some (.text kind) => "<" ++ kind ++ ">"
    | _ => "\x7b...\x7d"
  | .map _ | .set _ => "\x7b...\x7d"
  | v => v.inMessage

def shownItems : List Value → List Text
  | [] => []
  | x :: xs => shown x :: shownItems xs
end

def line (f : DebugFormat) (channel point : Text) (data : Option (Dict Text Value)) : Option Text :=
  match f with
  | .json =>
    let data := match data with
      | some fields => [("data", Value.object fields)]
      | none => []
    (Value.record ([("channel", .text channel), ("point", .text point)] ++ data)).toJson
  | .pretty =>
    let label := "[" ++ channel ++ "." ++ point ++ "]"
    match data.getD [] with
    | [] => some label
    | fields =>
      let parts := fields.map fun e => e.1 ++ "=" ++ shown e.2
      some (label ++ " \x7b " ++ Text.join ", " parts ++ " \x7d")

end DebugFormat

/-- The debug output of a program: the names enabled and the format. -/
structure DebugOutput where
  channels : Channels
  format : DebugFormat := .pretty
  deriving Repr

def DebugOutput.line? (d : DebugOutput) (c : Channel) (point : String)
    (data : List (String × Value)) : Option Text :=
  if d.channels.isEnabled c.name then
    d.format.line c.name point (some (data.map fun e => (Text.ofString e.1, e.2)))
  else none

end Quill
