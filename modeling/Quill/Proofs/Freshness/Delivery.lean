import Quill.Proofs.Freshness.Requests

/-!
# What is delivered is current

When the task of a request completes and its value is delivered, the documents that the value was
computed from are still open at the versions they had, or still not open. Their texts are still the
same too, and nothing that is open is missing from an answer about everything, but for changes made
while the attempt had not yet said what it reads.

## Main definitions

* `History.requests` — the tasks of requests.
* `Session.delivery?` — the value that is delivered next.

## Main statements

* `Run.delivered_current` — the documents that a value was computed from, when it is delivered.
* `Run.delivered_complete` — the documents that are open when an answer about everything is
  delivered.
-/

namespace Quill

def Query.body (q : Query) : Nat → Flow Fact :=
  fun _ => q.run.bind fun a => .done (.ok (.answered a))

/-- What comes back from a run of a query, as the end of an attempt. -/
def Query.report : Except Failure Answered → Flow Fact
  | .ok a => .done (.ok (.answered a))
  | .error e => .done (.error e)

theorem Query.body_eq (q : Query) (n : Nat) : q.body n = q.run.andThen report := by
  unfold body Flow.bind
  congr
  funext r
  cases r <;> rfl

theorem Query.reports_report : Flow.Reports report :=
  ⟨fun f v eq => by simp at eq, fun a v eq => (Except.ok.inj eq).symm⟩

def Session.requests? (s : Session) : Happening → Option (Nat × Query)
  | .operation (.ask _ q _) =>
    match q.target.filter fun uri => !s.state.store.has uri with
    | some _ => none
    | none => some (s.state.scheduler.nextTask, q)
  | _ => none

/-- The tasks of requests with what they answer, the latest first. -/
def History.requests (h : History) : List (Nat × Query) := h.filterMap fun p => p.1.requests? p.2

/-- The documents that a value says it was computed from. -/
def Fact.reads : Fact → List Uri
  | .answered a => a.readSet.map (·.uri)
  | _ => []

/-- The value that a task delivers with the next thing that happens. -/
def Session.delivery? (s : Session) : Option (Nat × Fact) :=
  match s.agenda.actions with
  | .now (.attemptEnded task r) :: _ =>
    (Scheduler.settle s.state.config.limits s.state.store.versionOf task r
      s.state.scheduler).2.findSome? fun
        | .resolve i v => some (i, v)
        | _ => none
  | _ => none

namespace Flow.Walks

variable {o : Owner} {s s' : Scheduler} {f f' : Flow Fact}

theorem nextTask (h : f.Walks o s s' f') : s'.nextTask = s.nextTask := by
  induction h with
  | refl => rfl
  | release _ ih | trace _ ih | say _ ih => exact ih
  | look m _ ih => exact ih
  | @declare s s' read scope next f h ih =>
    rw [ih]
    cases o with
    | flight id | errand ticket => rfl
    | attempt id =>
      simp only [Scheduler.declareFor, Scheduler.declare]
      split
      · split <;> rfl
      · rfl

end Flow.Walks

theorem Engine.Moves.next_le {e : Engine} {w : EngineWork} {begun : List (Nat × Nat)}
    {s' : Scheduler} (h : Moves e w begun s') : e.scheduler.nextTask ≤ s'.nextTask := by
  cases h with
  | leads leads _ _ => exact leads.next_le
  | ended _ ends leads _ => exact ends.nextTask ▸ leads.next_le
  | walks h | begins h => exact Nat.le_of_eq h.nextTask.symm

namespace Session

variable {s s' : Session} {x : Happening} {task : Nat} {q : Query}

/-- What a task does never changes. -/
theorem Sound.bodies (sound : s.Sound) (d : x.Does s s') (lt : task < s.state.scheduler.nextTask) :
    task < s'.state.scheduler.nextTask ∧
      Dict.get? s'.state.bodies task = Dict.get? s.state.bodies task := by
  cases d with
  | shuffles parked state pieces =>
    rw [state]
    exact ⟨lt, rfl⟩
  | @performs _ w _ others head state old new =>
    obtain ⟨begun, performed⟩ := sound.exists_performed head
    rw [state]
    exact ⟨Nat.lt_of_lt_of_le lt performed.scheduler.next_le, performed.bodies.get?_eq lt⟩
  | @operates _ o state old new =>
    obtain ⟨begun, done⟩ := Engine.apply_operated sound.scheduler o
    rw [state]
    exact ⟨Nat.lt_of_lt_of_le lt done.scheduler.next_le, done.bodies.get?_eq lt⟩

/-- The task of a request answers its query. -/
theorem Sound.requests (sound : s.Sound) (next : x.after? s = some s')
    (request : s.requests? x = some (task, q)) :
    task < s'.state.scheduler.nextTask ∧ Dict.get? s'.state.bodies task = some (.flow q.body) := by
  unfold requests? at request
  split at request
  next ticket q' token =>
    split at request
    · simp at request
    next isOpen =>
      obtain ⟨rfl, rfl⟩ : s.state.scheduler.nextTask = task ∧ q' = q := by simpa using request
      have state : s'.state = (s.state.submitFor ticket ⟨q'.question.word, .interactive, q'.target⟩
          q'.body token).1 := by
        simp only [Happening.after?] at next
        split at next
        · obtain rfl := Option.some.inj next
          simp only [operate, Operation.apply, Engine.ask, isOpen]
          rfl
        · simp at next
      rw [state]
      refine ⟨Scheduler.nextTask_lt_submit (α := Fact) _ _ sound.scheduler, ?_⟩
      simp [Engine.submitFor, Engine.submit, Engine.schedule]
  next => simp at request

/-- A value is delivered at the end of a live attempt, whose documents are where they were. -/
theorem Sound.delivery {v : Fact} (sound : s.Sound) (delivers : s.delivery? = some (task, v)) :
    ∃ t, s.state.scheduler.task? task = some t ∧ t.IsLive ∧
      .attemptEnded task (.ok v) ∈ s.pieces ∧ t.staleUri? s.state.store.versionOf = none := by
  unfold delivery? at delivers
  split at delivers
  next id r rest head =>
    obtain ⟨effect, mem, eq⟩ := List.exists_of_findSome?_eq_some delivers
    have piece : .attemptEnded id r ∈ s.pieces := by simp [pieces, works, head, Action.work?]
    cases effect <;> simp only [Option.some.injEq, Prod.mk.injEq, reduceCtorEq] at eq
    obtain ⟨rfl, rfl⟩ := eq
    obtain ⟨t, ht, rfl, live, rfl, current⟩ :=
      Scheduler.resolve_settle _ r sound.scheduler (sound.isBusy_of_attemptEnded piece) mem
    exact ⟨t, ht, live, piece, current⟩
  next => simp at delivers

end Session

namespace Run

variable {host : Host} {config : EngineConfig} {h : History} {s : Session} {task : Nat} {q : Query}
  {v : Fact}

/-- Throughout a run, the task of a request does what it was submitted for. -/
theorem bodies (run : Run host config h s) (request : (task, q) ∈ h.requests) :
    task < s.state.scheduler.nextTask ∧ Dict.get? s.state.bodies task = some (.flow q.body) := by
  induction run with
  | start => simp [History.requests] at request
  | step x run next ih =>
    obtain ⟨⟨s₀, y⟩, mem, eq⟩ := List.mem_filterMap.1 request
    rcases List.mem_cons.1 mem with same | mem
    · obtain ⟨rfl, rfl⟩ := Prod.mk.inj same
      exact run.sound.requests next eq
    · obtain ⟨lt, body⟩ := ih (List.mem_filterMap.2 ⟨_, mem, eq⟩)
      obtain ⟨lt', same⟩ := run.sound.bodies (Happening.does next) lt
      exact ⟨lt', same.trans body⟩

/-- What comes back is an answer, from a snapshot that fits, and that the scheduler has found to be
current. -/
theorem delivered (run : Run host config h s) (apart : h.TellsApart)
    (request : (task, q) ∈ h.requests) (delivers : s.delivery? = some (task, v)) :
    ∃ t held a, s.state.scheduler.task? task = some t ∧ held ∈ h.assembled ∧ v = .answered a ∧
      q.Answers held a ∧ q.scope? = .ok held.scope ∧ held.Fits task t.attempts h s.state.store ∧
      ∀ entry ∈ held.readSet, Task.isCurrent s.state.store.versionOf entry := by
  obtain ⟨t, ht, live, piece, current⟩ := run.sound.delivery delivers
  have body := (run.bodies request).2
  have asks : s.state.Asks task q Query.report := by
    unfold Engine.Asks
    rw [body]
    exact q.body_eq
  cases (run.informed apart).stage ht live asks Query.reports_report piece rfl with
  | @answers held _ read depends scope made fits goes =>
    obtain ⟨a, eq, answers⟩ := goes v rfl
    refine ⟨t, held, a, ht, made, eq, answers, scope, fits, ?_⟩
    exact Task.staleUri?_eq_none_iff.1 current _ read
  | fails goes => exact absurd rfl (goes v)

/-- When the task of a request delivers its value, every document of the snapshot it was computed
from that was open is still open at the version it had, and every other entry of what was read is
still not open. An open document has the text that it had, too, unless it got another one at the
same version and the attempt did not hear of it: before it had said what it had read, or by an edit
that broke off. -/
theorem delivered_current (run : Run host config h s) (apart : h.TellsApart)
    (request : (task, q) ∈ h.requests) (delivers : s.delivery? = some (task, v)) :
    ∃ t held a, s.state.scheduler.task? task = some t ∧ held ∈ h.assembled ∧ v = .answered a ∧
      q.Answers held a ∧
      (∀ d ∈ held.ordered, d.origin = .memory →
        ∃ doc, Dict.get? s.state.store.documents d.uri = some doc ∧ doc.version = d.version ∧
          (doc.text = d.text ∨ h.Overlooked task t.attempts d)) ∧
      ∀ entry ∈ a.readSet, entry.origin ≠ .memory → s.state.store.has entry.uri = false := by
  obtain ⟨t, held, a, ht, made, eq, answers, -, fits, current⟩ :=
    run.delivered apart request delivers
  refine ⟨t, held, a, ht, made, eq, answers, fun d hd memory => ?_, fun entry mem other => ?_⟩
  · have entry : d.readEntry ∈ held.readSet := List.mem_append_left _ (List.mem_map.2 ⟨d, hd, rfl⟩)
    have version : s.state.store.versionOf d.uri = some d.version := by
      simpa [Task.isCurrent, SnapshotDocument.readEntry, memory] using current _ entry
    obtain ⟨doc, found, same⟩ := Option.map_eq_some_iff.1 version
    refine ⟨doc, found, same, ?_⟩
    by_cases text : doc.text = d.text
    · exact .inl text
    · exact .inr (fits.fresh d hd memory ⟨doc, found, same, text⟩)
  · rw [answers.readSet] at mem
    have none : s.state.store.versionOf entry.uri = none := by
      simpa [Task.isCurrent, other] using current entry mem
    simp [Store.has_eq_isSome_versionOf, none]

/-- A definition is asked for in a document that is open alone, and found. -/
def defining : List Happening :=
  .operation (.open "/m" "= T <x>\nSee @x" 1 none) :: works 10 ++
    .operation (.ask 0 ⟨some "/m", .definition ⟨1, 5⟩⟩ none) :: works 135

theorem delivered_current_defining : ∃ v, (sample defining).2.delivery? = some (1, v) ∧
    ∃ held a, held ∈ (sample defining).1.assembled ∧ v = .answered a ∧
      ∀ d ∈ held.ordered, d.origin = .memory →
        ∃ doc, Dict.get? (sample defining).2.state.store.documents d.uri = some doc ∧
          doc.version = d.version := by
  obtain ⟨⟨⟨task, v⟩, delivers, rfl⟩, request, apart⟩ :
      (∃ p, (sample defining).2.delivery? = some p ∧ p.1 = 1) ∧
      (1, ⟨some "/m", .definition ⟨1, 5⟩⟩) ∈ (sample defining).1.requests ∧
      (sample defining).1.TellsApart := by
    rw [← Option.map_eq_some_iff]
    decide +kernel
  obtain ⟨t, held, a, -, made, eq, -, current, -⟩ :=
    delivered_current (of_sample defining) apart request delivers
  refine ⟨v, delivers, held, a, made, eq, fun d hd memory => ?_⟩
  obtain ⟨doc, found, version, -⟩ := current d hd memory
  exact ⟨doc, found, version⟩

/-- While a read waits that is needed for the definition, the document it is in is opened again,
with other text at the same version. -/
def reopening : List Happening :=
  [.operation (.write "/b" (some (.ok "text"))), .operation (.hold "/b"),
    .operation (.open "/m" "#include \"a\"\n#include \"b\"\nSee @x" 1 none)] ++ works 20 ++
  .operation (.open "/a" "= T <x>" 1 none) :: works 20 ++
  .operation (.ask 0 ⟨some "/m", .definition ⟨2, 5⟩⟩ none) :: works 60 ++
  .operation (.open "/a" "\n= T <x>" 1 none) :: works 20 ++
  .operation (.release "/b") :: works 185

/-- What is delivered need not be current. -/
theorem not_delivered_current :
    ¬ ∀ {host : Host} {config : EngineConfig} {h : History} {s : Session}
    {task : Nat} {q : Query} {v : Fact}, Run host config h s → h.TellsApart →
    (task, q) ∈ h.requests → s.delivery? = some (task, v) →
    ∃ held a, held ∈ h.assembled ∧ v = .answered a ∧ q.Answers held a ∧
      (∀ d ∈ held.ordered, d.origin = .memory →
        ∃ doc, Dict.get? s.state.store.documents d.uri = some doc ∧ doc.version = d.version ∧
          doc.text = d.text) ∧
      ∀ entry ∈ a.readSet, entry.origin ≠ .memory → s.state.store.has entry.uri = false := by
  intro current
  -- every snapshot of the run holds the text that has been replaced
  obtain ⟨⟨⟨task, v⟩, delivers, rfl⟩, request, apart, stale⟩ :
      (∃ p, (sample reopening).2.delivery? = some p ∧ p.1 = 1) ∧
      (1, ⟨some "/m", .definition ⟨2, 5⟩⟩) ∈ (sample reopening).1.requests ∧
      (sample reopening).1.TellsApart ∧
      ∀ held ∈ (sample reopening).1.assembled, ∃ d ∈ held.ordered, d.origin = .memory ∧
        ∀ doc ∈ Dict.get? (sample reopening).2.state.store.documents d.uri, doc.text ≠ d.text := by
    rw [← Option.map_eq_some_iff]
    decide +kernel
  obtain ⟨held, a, made, -, -, fresh, -⟩ := current (of_sample reopening) apart request delivers
  obtain ⟨d, hd, memory, other⟩ := stale held made
  obtain ⟨doc, found, -, same⟩ := fresh d hd memory
  exact other doc found same

/-- When the task of a request about everything delivers its value, every open document is among
what was read, unless it was opened while the attempt had not yet said what it had read. -/
theorem delivered_complete (run : Run host config h s) (apart : h.TellsApart)
    (request : (task, q) ∈ h.requests) (global : q.question.isGlobal)
    (delivers : s.delivery? = some (task, v)) :
    ∃ t a, s.state.scheduler.task? task = some t ∧ v = .answered a ∧ ∀ x, s.state.store.has x →
      (∃ entry ∈ a.readSet, entry.uri = x) ∨ h.Missed task t.attempts x := by
  obtain ⟨t, held, a, ht, -, eq, answers, scope, fits, -⟩ := run.delivered apart request delivers
  have everything : held.scope = .workspace := by
    unfold Query.scope? at scope
    split at scope
    · rw [← Except.ok.inj scope]
      exact Question.scopeOf_eq_workspace_iff.2 global
    · rw [if_pos global] at scope
      exact (Except.ok.inj scope).symm
  refine ⟨t, a, ht, eq, fun x isOpen => (fits.full everything x isOpen).imp_left ?_⟩
  rintro ⟨d, hd, rfl⟩
  rw [answers.readSet]
  exact ⟨d.readEntry, List.mem_append_left _ (List.mem_map.2 ⟨d, hd, rfl⟩), rfl⟩

def naming : List Happening :=
  .operation (.open "/m" "= T" 1 none) :: works 10 ++
    .operation (.ask 0 ⟨none, .workspaceSymbols ""⟩ none) :: works 79

theorem delivered_complete_naming : ∃ v, (sample naming).2.delivery? = some (1, v) ∧
    ∃ a, v = .answered a ∧
      ((∃ entry ∈ a.readSet, entry.uri = "/m") ∨ ∃ n, (sample naming).1.Missed 1 n "/m") := by
  obtain ⟨⟨⟨task, v⟩, delivers, rfl⟩, request, apart, isOpen⟩ :
      (∃ p, (sample naming).2.delivery? = some p ∧ p.1 = 1) ∧
      (1, ⟨none, .workspaceSymbols ""⟩) ∈ (sample naming).1.requests ∧
      (sample naming).1.TellsApart ∧
      (sample naming).2.state.store.has "/m" := by
    rw [← Option.map_eq_some_iff]
    decide +kernel
  obtain ⟨t, a, -, eq, full⟩ := delivered_complete (of_sample naming) apart request rfl delivers
  exact ⟨v, delivers, a, eq, (full "/m" isOpen).imp_right fun missed => ⟨t.attempts, missed⟩⟩

/-- While a read waits that is needed for the symbols, a document is opened. -/
def joining : List Happening :=
  [.operation (.write "/b" (some (.ok "text"))), .operation (.hold "/b"),
    .operation (.open "/m" "#include \"b\"" 1 none)] ++ works 20 ++
  .operation (.ask 0 ⟨none, .workspaceSymbols ""⟩ none) :: works 60 ++
  .operation (.open "/n" "= New" 1 none) :: works 20 ++
  .operation (.release "/b") :: works 126

/-- A document that is open may be missing from an answer about everything. -/
theorem not_delivered_complete :
    ¬ ∀ {host : Host} {config : EngineConfig} {h : History} {s : Session}
    {task : Nat} {q : Query} {v : Fact}, Run host config h s → h.TellsApart →
    (task, q) ∈ h.requests → q.question.isGlobal → s.delivery? = some (task, v) →
    ∃ a, v = .answered a ∧ ∀ x, s.state.store.has x → ∃ entry ∈ a.readSet, entry.uri = x := by
  intro complete
  obtain ⟨⟨⟨task, v⟩, delivers, eq⟩, request, apart, isOpen⟩ :
      (∃ p, (sample joining).2.delivery? = some p ∧ (p.1, p.2.reads) =
        (1, (["/b", "/m"] : List Uri))) ∧
      (1, ⟨none, .workspaceSymbols ""⟩) ∈ (sample joining).1.requests ∧
      (sample joining).1.TellsApart ∧
      (sample joining).2.state.store.has "/n" := by
    rw [← Option.map_eq_some_iff]
    decide +kernel
  obtain ⟨rfl, reads⟩ : task = 1 ∧ v.reads = (["/b", "/m"] : List Uri) := Prod.mk.inj eq
  obtain ⟨a, rfl, full⟩ := complete (of_sample joining) apart request rfl delivers
  obtain ⟨entry, mem, eq⟩ := full "/n" isOpen
  have read : entry.uri ∈ (Fact.answered a).reads := List.mem_map.2 ⟨entry, mem, rfl⟩
  rw [reads, eq] at read
  exact absurd read (by decide)

end Run

end Quill
