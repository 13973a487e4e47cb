import Quill.Compile.Compiler

/-!
# Gathering a closure

Documents are read one after another, starting from some roots; every document read may name further
ones. A gathering is the state between two reads, so that whoever drives it may wait for each read
as long as it likes.

## Main definitions

* `Gather` — what has been found, what is missing and what is still to be read.
* `Gather.next?` — the next document to read.
* `Gather.add`, `Gather.skip` — the answer to a read.
* `OneShot` — the gathering of the sources of a single compile.
* `OneShot.run` — a single compile over files that do not change.
-/

namespace Quill

/-- Documents read so far with what was made of them, documents that could not be read, and
documents to look at, which may repeat. -/
structure Gather (α : Type) where
  pending : List Uri
  found : Dict Uri α
  missing : List Uri

namespace Gather

variable {α : Type}

def start (roots : List Uri) : Gather α := ⟨roots, [], []⟩

def isSettled (g : Gather α) (uri : Uri) : Bool := Dict.has g.found uri || g.missing.contains uri

/-- The next document to read, and the gathering without it; documents already settled are passed
over. -/
def next? (g : Gather α) : Option (Uri × Gather α) :=
  match g.pending.dropWhile g.isSettled with
  | [] => none
  | uri :: rest => some (uri, { g with pending := rest })

/-- A document was read and names `targets`. -/
def add (g : Gather α) (uri : Uri) (a : α) (targets : List Uri) : Gather α :=
  { g with pending := g.pending ++ targets, found := Dict.put g.found uri a }

/-- A document could not be read. -/
def skip (g : Gather α) (uri : Uri) : Gather α := { g with missing := g.missing ++ [uri] }

theorem isSettled_of_next? {g g' : Gather α} {uri : Uri} (h : g.next? = some (uri, g')) :
    g.isSettled uri = false := by
  simp only [next?] at h
  split at h
  · simp at h
  next u rest hd =>
    simp only [Option.some.injEq, Prod.mk.injEq] at h
    have := List.head?_dropWhile_not g.isSettled g.pending
    rw [hd] at this
    simp only [List.head?_cons] at this
    rw [← h.1]
    simpa using this

end Gather

/-- A single compile under way: its entry and the sources gathered so far. -/
structure OneShot where
  entry : Uri
  settings : CompileSettings
  gather : Gather Source

namespace OneShot

def start (entry : Uri) (settings : CompileSettings) : OneShot := ⟨entry, settings, .start [entry]⟩

def receive (c : Compiler) (o : OneShot) (uri : Uri) (text : Option Text) :
    Except Failure OneShot :=
  match text with
  | none =>
    if uri = o.entry then .error (.entryNotFound uri)
    else .ok { o with gather := o.gather.skip uri }
  | some t => do
    let m ← c.read uri t
    let targets ← c.targets uri t
    .ok { o with gather := o.gather.add uri ⟨uri, t, m⟩ targets }

def finish (c : Compiler) (o : OneShot) : Except Failure Compiled :=
  c.compile (.ofSources o.entry (Dict.values o.gather.found) o.settings)

/-- Answer the reads from `files` until nothing is left to read, then compile. The second part lists
the reads in order; `fuel` bounds their number. -/
def runAux (c : Compiler) (files : Uri → Except Failure (Option Text)) :
    Nat → OneShot → Except Failure Compiled × List Uri
  | 0, o => (o.finish c, [])
  | fuel + 1, o =>
    match o.gather.next? with
    | none => (o.finish c, [])
    | some (uri, gather) =>
      match (files uri).bind (receive c { o with gather } uri) with
      | .error e => (.error e, [uri])
      | .ok o =>
        let (result, reads) := runAux c files fuel o
        (result, uri :: reads)

/-- A single compile over files that do not change, with the reads in order. `total` is the length
of all texts together; no text names more documents than it has units. -/
def run (c : Compiler) (files : Uri → Except Failure (Option Text)) (total : Nat) (entry : Uri)
    (settings : CompileSettings) : Except Failure Compiled × List Uri :=
  runAux c files (total + 2) (start entry settings)

end OneShot

end Quill
