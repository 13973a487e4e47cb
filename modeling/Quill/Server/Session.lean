import Quill.Server.Perform

/-!
# Sessions with a client

## Main definitions

* `ServerSession.send` — a message of the client.
* `ServerSession.act`, `ServerSession.modify` — operations on the engine from outside.
* `ServerSession.rest`, `ServerSession.advance`, `ServerSession.collect` — come to rest, move the
  clock, and take what has been given out.
-/

namespace Quill

abbrev ServerSession := Machine Server TimerKey ServerWork ServerOutput

namespace ServerSession

def start (e : Engine) : ServerSession := { state := { engine := e } }

/-- A message of the client, with all that follows at once. Requests are answered later, under the
ticket. -/
def send (ticket : Nat) (token : Option Text) (m : Message) (s : ServerSession) :
    Except Failure Value × ServerSession :=
  let (r, server, actions) := s.state.receive ticket token m
  (r, Machine.act Server.perform server actions s)

/-- Carry out an operation of the engine, with all that follows at once. -/
def act (f : Engine → Engine.Step) (s : ServerSession) : ServerSession :=
  let (server, actions) := s.state.onEngine f
  Machine.act Server.perform server actions s

/-- Change the server where nothing follows. -/
def modify (f : Server → Server) (s : ServerSession) : ServerSession :=
  { s with state := f s.state }

def rest (s : ServerSession) : ServerSession := Machine.rest Server.perform s

def advance (ms : Nat) (s : ServerSession) : ServerSession := Machine.advance Server.perform ms s

def collect (s : ServerSession) : List ServerOutput × ServerSession :=
  let (out, agenda) := s.agenda.collect
  (out, { s with agenda })

end ServerSession

namespace ServerOutput

def line? : ServerOutput → Option (Text × Text)
  | line level l => some (level.word, l)
  | asked what => some ("client", what)
  | _ => none

def published? : ServerOutput → Option Value
  | published params => some params
  | _ => none

def replied? : ServerOutput → Option (Nat × Except ResponseError Value)
  | replied ticket r => some (ticket, r)
  | _ => none

end ServerOutput

end Quill
