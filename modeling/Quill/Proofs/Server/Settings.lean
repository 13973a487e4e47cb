import Quill.Proofs.Engine.Config
import Quill.Proofs.Run.Threads
import Quill.Server.Perform

/-!
# Settings that a client is asked for

A server asks its client for settings, and asks again when it hears that they have changed. Each
answer is taken when it arrives, whichever question it is for: it replaces all settings there are,
unless the client has refused to answer.

## Main definitions

* `Settings.resolved` — the configuration that settings ask for.
* `Server.Exchange` — a server, the questions it has asked, and the answers that have arrived.
* `Server.Exchange.Run` — what can happen between a server and its client, answers arriving in any
  order.

## Main statements

* `Server.sameSettings_receive`, `Server.sameSettings_perform` — nothing but settings changes the
  configuration.
* `Server.Exchange.Run.config_eq` — the configuration is what the answer that arrived last asks for.
-/

namespace Quill

/-! ## What leaves the configuration alone -/

namespace Engine

theorem config_go (e : Engine) (now : Nat) (o : Owner) (f : Flow Fact) :
    (e.go now o f).1.config = e.config := by
  obtain ⟨_, _, _, went⟩ := e.go_wentTo now o f
  exact went.world.config

theorem config_load (e : Engine) (r : Reader) (uri : Uri) : (e.load r uri).1.config = e.config := by
  unfold load
  split <;> rfl

/-- No work of an engine changes its configuration. -/
theorem config_perform (e : Engine) (now : Nat) (w : EngineWork) :
    (e.perform now w).1.config = e.config := by
  cases w with
  | go o f => exact config_go e now o f
  | collect w b =>
    simp only [perform, collect]
    split
    · rfl
    · split
      · rfl
      · exact config_load ..
  | compileNext ticket o =>
    simp only [perform, compileNext]
    split
    · rfl
    · split
      · rfl
      · exact config_load ..
  | begin task attempt =>
    simp only [perform, begin]
    split
    · exact config_go ..
    · exact config_go ..
    · rfl
  | runEnded run root r =>
    simp only [perform, runEnded]
    split <;> rfl
  | flush ticket thenIdle =>
    simp only [perform, fireAll, andThen]
    split <;> rfl
  | _ => rfl

theorem config_afterStore (e : Engine) (r : StoreResult) :
    (e.afterStore r).engine.config = e.config := by
  unfold afterStore
  split
  · rfl
  · simp only
    split <;> rfl

theorem config_focusMain (e : Engine) (uri : Option Text) (source : FocusSource) :
    (e.focusMain uri source).engine.config = e.config := by
  simp only [focusMain]
  split_ifs
  · rfl
  · cases source <;> rfl
  · cases source <;> rfl

theorem config_dispose (e : Engine) : e.dispose.1.config = e.config := by
  unfold dispose
  split <;> rfl

theorem config_ask (e : Engine) (ticket : Nat) (q : Query) (token : Option Text) :
    (e.ask ticket q token).1.config = e.config := by
  unfold ask
  split <;> rfl

/-- A patch of the configuration takes effect as a whole. -/
theorem config_configure (e : Engine) (p : ConfigPatch) :
    (e.configure p).engine.config = e.config.patch p := by
  simp only [configure]
  split <;> rfl

end Engine

namespace Server

variable {s s' : Server}

/-- What only settings, and the start of a client, change. -/
structure SameSettings (s s' : Server) : Prop where
  config : s'.engine.config = s.engine.config
  pulls : s'.pullsSettings = s.pullsSettings

theorem SameSettings.refl (s : Server) : SameSettings s s := ⟨rfl, rfl⟩

theorem sameSettings_onEngine
    {f : Engine → Engine.Step} (same : (f s.engine).1.config = s.engine.config) :
    SameSettings s (s.onEngine f).1 := ⟨same, rfl⟩

theorem sameSettings_replyOf {α : Type} {f : Engine → EngineReply α}
    (same : (f s.engine).engine.config = s.engine.config) : SameSettings s (s.replyOf f).2.1 :=
      ⟨same, rfl⟩

theorem sameSettings_changed {what : Text} {isDropped : Failure → Bool}
    {r : Except Failure Uri × Step} {next : List ServerAction} (same : SameSettings s r.2.1) :
    SameSettings s (changed what isDropped r next).2.1 := by
  obtain ⟨outcome, s', actions⟩ := r
  unfold changed
  cases outcome with
  | ok => exact same
  | error f =>
    dsimp only
    split <;> exact same

theorem sameSettings_execute (s : Server) (ticket : Nat) (name : Text) (argument : Value) :
    SameSettings s (s.execute ticket name argument).1 := by
  cases command : Command.ofName? name with
  | none => simp only [execute, command]; exact .refl s
  | some c =>
    cases c with
    | clearCache => simp only [execute, command]; exact ⟨rfl, rfl⟩
    | getServerInfo => simp only [execute, command]; exact .refl s
    | pinMain =>
      simp only [execute, command]
      split
      · exact ⟨rfl, rfl⟩
      · exact .refl s
    | focusMain =>
      simp only [execute, command]
      split
      next uri _ =>
        exact sameSettings_replyOf (f := fun e => e.focusMain uri .command)
          (s.engine.config_focusMain uri .command)
      next => exact .refl s
    | compile =>
      simp only [execute, command]
      split
      · exact ⟨rfl, rfl⟩
      · exact .refl s

/-- Work other than the answer of a client leaves the settings alone. -/
theorem sameSettings_perform (s : Server) (now : Nat)
    {w : ServerWork} (other : ∀ a, w ≠ .settingsCame a) :
    SameSettings s (s.perform now w).1 := by
  cases w with
  | engine w => exact sameSettings_onEngine (s.engine.config_perform now w)
  | settingsCame a => exact absurd rfl (other a)
  | focus uri source => exact sameSettings_replyOf (s.engine.config_focusMain (some uri) source)
  | ask ticket q token => exact sameSettings_onEngine (s.engine.config_ask ticket q token)
  | heard o => exact .refl s
  | write level line => exact .refl s
  | failed ticket f => exact .refl s

/-- A message other than the start of a client leaves the settings alone, if the server asks for
them. -/
theorem sameSettings_receive (pulls : s.pullsSettings) (ticket : Nat) (token : Option Text)
    {m : Message}
    (running : ∀ p, m ≠ .start p) : SameSettings s (s.receive ticket token m).2.1 := by
  cases m with
  | start p => exact absurd rfl (running p)
  | initialized => exact .refl s
  | shutdown => exact sameSettings_onEngine s.engine.config_dispose
  | didOpen uri text version language =>
    exact sameSettings_changed
      (sameSettings_replyOf (f := fun e => e.open uri text version language)
      (s.engine.config_afterStore _))
  | didChange uri changes version =>
    exact sameSettings_changed (sameSettings_replyOf (f := fun e => e.edit uri changes version)
      (s.engine.config_afterStore _))
  | didClose uri =>
    exact sameSettings_changed
      (sameSettings_replyOf (f := fun e => e.close uri) (s.engine.config_afterStore _))
  | didChangeConfiguration configuration =>
    simp only [receive, pulls, if_true]
    exact .refl s
  | didChangeWatchedFiles uris =>
    simp only [receive, filesChanged]
    split
    · exact .refl s
    · exact ⟨rfl, rfl⟩
  | feature f => exact ⟨rfl, rfl⟩
  | executeCommand name argument => exact sameSettings_execute s ticket name argument

/-! ## Answers -/

end Server

/-- The configuration that settings ask for; what they leave out has its default. -/
def Settings.resolved (v : Value) : EngineConfig :=
  EngineConfig.default.patch (Settings.ofValue v).engine

namespace Server

theorem pullsSettings_settingsCame (s : Server) (answer : Except Failure Value) :
    (s.settingsCame answer).1.pullsSettings = s.pullsSettings := by
  cases answer <;> rfl

/-- An answer replaces the configuration, whatever it was. -/
theorem config_settingsCame (s : Server) {v : Value} (plain : v.IsPlain) :
    (s.settingsCame (.ok v)).1.engine.config = Settings.resolved v := by
  have carried := EngineConfig.isCarried_patch EngineConfig.isCarried_default
      (Settings.isDouble_ofValue plain)
  exact (Engine.config_configure _ _).trans (EngineConfig.patch_toPatch carried _)

def isPull : ServerAction → Bool
  | .later _ (.settingsCame _) => true
  | _ => false

theorem isPull_ofEngine (a : EngineAction) : isPull (ofEngine a) = false := by
  cases a <;> rfl

theorem countP_isPull_ofEngine (actions : List EngineAction) :
    (actions.map ofEngine).countP isPull = 0 := by
  simp [List.countP_map, List.countP_eq_zero, isPull_ofEngine]

/-- Settings are taken without a further question. -/
theorem countP_isPull_settingsCame (s : Server) (answer : Except Failure Value) :
    (s.settingsCame answer).2.countP isPull = 0 := by
  cases answer with
  | ok v =>
    simp only [settingsCame, apply, replyOf, List.countP_append, countP_isPull_ofEngine]
    rfl
  | error f => rfl

/-! ## Exchanges -/

/-- What a server and its client have asked each other for. Questions have numbers in the order in
which they were asked. -/
structure Exchange where
  server : Server
  /-- How many times the server has asked for settings. -/
  pulls : ℕ := 0
  /-- The questions that have no answer yet. -/
  unanswered : List ℕ := []
  /-- The questions that have an answer, in the order in which the answers arrived. -/
  arrived : List ℕ := []

namespace Exchange

variable {answers : ℕ → Except Failure Value} {s : Server} {x y : Exchange}

def after (x : Exchange) (r : Server.Step) : Exchange :=
  let asked := r.2.countP isPull
  { x with
    server := r.1
    pulls := x.pulls + asked
    unanswered := x.unanswered ++ List.range' x.pulls asked }

def take (x : Exchange) (k : ℕ) : Exchange :=
  { x with unanswered := x.unanswered.erase k, arrived := x.arrived ++ [k] }

/-- What can happen next: a message of the client that is already running, any work of the server,
or the arrival of an answer. Nothing is said of the order of these. -/
inductive Step (answers : ℕ → Except Failure Value) (x : Exchange) : Exchange → Prop where
  | received (ticket : ℕ) (token : Option Text) {m : Message} (running : ∀ p, m ≠ .start p) :
      Step answers x (x.after (x.server.receive ticket token m).2)
  | performed (now : ℕ) {w : ServerWork} (other : ∀ a, w ≠ .settingsCame a) :
      Step answers x (x.after (x.server.perform now w))
  | answered (now : ℕ) {k : ℕ} (mem : k ∈ x.unanswered) :
      Step answers x ((x.take k).after (x.server.perform now (.settingsCame (answers k))))

/-- What can happen from a server that has asked nothing yet. -/
def Run (answers : ℕ → Except Failure Value) (s : Server) (x : Exchange) : Prop :=
  Relation.ReflTransGen (Step answers) { server := s } x

/-- Hearing of a change, the server asks once, and does nothing else. -/
theorem after_didChangeConfiguration (pulling : x.server.pullsSettings = true) (ticket : ℕ)
    (token : Option Text)
    (v : Value) : x.after (x.server.receive ticket token (.didChangeConfiguration v)).2 =
      { x with pulls := x.pulls + 1, unanswered := x.unanswered ++ [x.pulls] } := by
  simp [receive, pulling, after, pull, isPull, log, List.countP_cons]

theorem after_settingsCame (x : Exchange) (answer : Except Failure Value) :
    x.after (x.server.settingsCame answer) =
      { x with server := (x.server.settingsCame answer).1 } := by
  simp [after, countP_isPull_settingsCame]

/-! ### Every order of answers -/

theorem run_asked (pulling : s.pullsSettings = true) (n : ℕ) :
    Run answers s { server := s, pulls := n, unanswered := List.range n } := by
  induction n with
  | zero => exact .refl
  | succ n run =>
    refine run.tail ?_
    have step : Step answers ⟨s, n, List.range n, []⟩ _ :=
      .received 0 none (m := .didChangeConfiguration .null) (fun p => by simp)
    rwa [after_didChangeConfiguration pulling, ← List.range_succ] at step

theorem exists_answered (run : Run answers s x) {order : List ℕ} (perm : x.unanswered.Perm order) :
    ∃ y, Run answers s y ∧ y.arrived = x.arrived ++ order ∧ y.unanswered = [] ∧
    y.pulls = x.pulls := by
  induction order generalizing x with
  | nil => exact ⟨x, run, by simp, perm.eq_nil, rfl⟩
  | cons k order ih =>
    have mem : k ∈ x.unanswered := perm.mem_iff.2 (List.mem_cons_self ..)
    have step : Step answers x _ := .answered 0 mem
    simp only [perform] at step
    rw [show x.server = (x.take k).server from rfl, after_settingsCame] at step
    obtain ⟨y, run, arrived, none, pulls⟩ := ih (run.tail step) (by simpa [take] using perm.erase k)
    exact ⟨y, run, by simpa [take] using arrived, none, pulls⟩

/-- However many times the server asks before it hears an answer, all answers arrive in any given
order. -/
theorem exists_run_of_perm (answers : ℕ → Except Failure Value) (pulling : s.pullsSettings = true)
    {n : ℕ} {order : List ℕ} (perm : (List.range n).Perm order) :
    ∃ x, Run answers s x ∧ x.arrived = order ∧ x.unanswered = [] ∧ x.pulls = n :=
  exists_answered (run_asked pulling n) perm

/-! ### What the answers come to -/

/-- The settings among answers, in the order in which they arrived; a refusal has none. -/
def given (answers : ℕ → Except Failure Value) (arrived : List ℕ) : List Value :=
  arrived.filterMap fun k => (answers k).toOption

/-- The configuration after answers: what the last settings among them ask for, the one there was if
there are none. -/
def configAfter (answers : ℕ → Except Failure Value) (c : EngineConfig) (arrived : List ℕ) :
    EngineConfig :=
  ((given answers arrived).getLast?.map Settings.resolved).getD c

theorem configAfter_concat_ok {k : ℕ} {v : Value} (ok : answers k = .ok v) (c : EngineConfig)
    (arrived : List ℕ) :
    configAfter answers c (arrived ++ [k]) = Settings.resolved v := by
  simp [configAfter, given, List.filterMap_append, ok, Except.toOption]

theorem configAfter_concat_error {k : ℕ} {f : Failure} (error : answers k = .error f)
    (c : EngineConfig) (arrived : List ℕ) :
    configAfter answers c (arrived ++ [k]) = configAfter answers c arrived := by
  simp [configAfter, given, List.filterMap_append, error, Except.toOption]

/-- What a run keeps. -/
structure Holds (answers : ℕ → Except Failure Value) (c : EngineConfig) (x : Exchange) : Prop where
  pulls : x.server.pullsSettings = true
  config : x.server.engine.config = configAfter answers c x.arrived
  numbered : (x.arrived ++ x.unanswered).Perm (List.range x.pulls)

variable {c : EngineConfig}

theorem numbered_after (numbered : (x.arrived ++ x.unanswered).Perm (List.range x.pulls))
    (r : Server.Step) :
    ((x.after r).arrived ++ (x.after r).unanswered).Perm (List.range (x.after r).pulls) := by
  simp only [after]
  rw [← List.append_assoc, List.range_eq_range', ← List.range'_append_1, Nat.zero_add,
    ← List.range_eq_range']
  exact numbered.append_right _

theorem numbered_take {k : ℕ} (mem : k ∈ x.unanswered) :
    ((x.take k).arrived ++ (x.take k).unanswered).Perm (x.arrived ++ x.unanswered) := by
  simp only [take, List.append_assoc]
  exact (List.perm_cons_erase mem).symm.append_left _

theorem Holds.after_of_same (holds : x.Holds answers c)
    {r : Server.Step} (same : SameSettings x.server r.1) :
    (x.after r).Holds answers c :=
  ⟨same.pulls.trans holds.pulls, same.config.trans holds.config, numbered_after holds.numbered r⟩

theorem Holds.step (plain : ∀ k v, answers k = .ok v → v.IsPlain) (holds : x.Holds answers c)
    (step : Step answers x y) : y.Holds answers c := by
  cases step with
  | received ticket token running =>
    exact holds.after_of_same (sameSettings_receive holds.pulls ticket token running)
  | performed now other => exact holds.after_of_same (sameSettings_perform x.server now other)
  | answered now mem =>
    rename_i k
    refine ⟨(pullsSettings_settingsCame x.server _).trans holds.pulls, ?_,
      numbered_after ((numbered_take mem).trans holds.numbered) _⟩
    cases answer : answers k with
    | ok v =>
      calc (x.server.settingsCame (.ok v)).1.engine.config
        _ = Settings.resolved v := config_settingsCame _ (plain k v answer)
        _ = configAfter answers c (x.arrived ++ [k]) := (configAfter_concat_ok answer ..).symm
    | error f => exact holds.config.trans (configAfter_concat_error answer ..).symm

theorem Run.holds (pulling : s.pullsSettings = true) (plain : ∀ k v, answers k = .ok v → v.IsPlain)
    (run : Run answers s x) : x.Holds answers s.engine.config := by
  induction run with
  | refl => exact ⟨pulling, rfl, .refl _⟩
  | tail _ step holds => exact holds.step plain step

/-- The settings to arrive last win, whatever the configuration was before. -/
theorem Run.config_eq (pulling : s.pullsSettings = true)
    (plain : ∀ k v, answers k = .ok v → v.IsPlain) (run : Run answers s x) :
    x.server.engine.config = configAfter answers s.engine.config x.arrived ∧
      (x.arrived ++ x.unanswered).Perm (List.range x.pulls) ∧
      (∀ ticket token v, x.after (x.server.receive ticket token (.didChangeConfiguration v)).2 =
        { x with pulls := x.pulls + 1, unanswered := x.unanswered ++ [x.pulls] }) ∧
      ∀ raw, x.arrived.getLast? = some (x.pulls - 1) → answers (x.pulls - 1) = .ok raw →
        x.server.engine.config = Settings.resolved raw := by
  have holds := run.holds pulling plain
  refine ⟨holds.config, holds.numbered, after_didChangeConfiguration holds.pulls,
    fun raw newest answer => ?_⟩
  obtain ⟨before, eq⟩ := List.getLast?_eq_some_iff.1 newest
  rw [holds.config, eq, configAfter_concat_ok answer]

def unformatted : Value := .record [("formatter", .record [("mode", .text "disable")])]

theorem isPlain_unformatted : unformatted.IsPlain := by
  have mode : (Value.record [("mode", .text "disable")]).IsPlain :=
    .object (by decide) (by rintro _ (_ | ⟨_, ⟨⟩⟩); exact .text _)
  exact .object (by decide) (by rintro _ (_ | ⟨_, ⟨⟩⟩); exact mode)

/-- A client that first answers with settings that turn formatting off, then with other ones or a
refusal. -/
def first (next : Except Failure Value) : ℕ → Except Failure Value
  | 0 => .ok unformatted
  | _ => next

theorem isPlain_first {next : Except Failure Value} (plain : ∀ v, next = .ok v → v.IsPlain)
    (k : ℕ) (v : Value) (ok : first next k = .ok v) : v.IsPlain := by
  cases k with
  | zero => obtain rfl := Except.ok.inj ok; exact isPlain_unformatted
  | succ => exact plain v ok

def takingBack : ℕ → Except Failure Value := first (.ok (.object []))

theorem isPlain_takingBack : ∀ k v, takingBack k = .ok v → v.IsPlain :=
  isPlain_first fun v eq => by
    obtain rfl := Except.ok.inj eq
    exact .object List.nodup_nil (by simp)

/-- A client that refuses to answer again. -/
def refusing : ℕ → Except Failure Value := first (.error (.error "refused"))

theorem isPlain_refusing : ∀ k v, refusing k = .ok v → v.IsPlain :=
  isPlain_first fun v eq => by simp at eq

def asking : Server :=
  { engine := Engine.start (.ofCompiler .quill .sha256) .default, pullsSettings := true }

theorem config_eq_crossed : ∃ x, Run takingBack asking x ∧ x.arrived = [1, 0] ∧ x.unanswered = [] ∧
    x.server.engine.config = Settings.resolved unformatted := by
  obtain ⟨x, run, arrived, none, -⟩ := exists_run_of_perm takingBack (s := asking) rfl (n := 2)
    (List.Perm.swap 1 0 [])
  have config := (run.config_eq rfl isPlain_takingBack).1
  exact ⟨x, run, arrived, none, by rw [config, arrived]; rfl⟩

theorem resolved_unformatted_ne : Settings.resolved unformatted ≠ EngineConfig.default := fun eq =>
  absurd (congrArg EngineConfig.formatterMode eq) (by decide)

/-- It is not the answer to the newest question that wins: an older one that comes after it does,
and so does an older one when the newest question is refused. -/
theorem not_config_eq_newest :
    (∃ x, Run takingBack asking x ∧ x.unanswered = [] ∧ x.pulls = 2 ∧
      takingBack 1 = .ok (.object []) ∧
      x.server.engine.config ≠ Settings.resolved (.object [])) ∧
    ∃ x, Run refusing asking x ∧ x.unanswered = [] ∧ x.pulls = 2 ∧ x.arrived = [0, 1] ∧
      x.server.engine.config = Settings.resolved unformatted ∧ x.server.engine.config ≠
        EngineConfig.default := by
  constructor
  · obtain ⟨x, run, arrived, none, pulls⟩ :=
      exists_run_of_perm takingBack (s := asking) rfl (n := 2)
      (List.Perm.swap 1 0 [])
    have config := (run.holds rfl isPlain_takingBack).config
    rw [arrived] at config
    exact ⟨x, run, none, pulls, rfl, config ▸ resolved_unformatted_ne⟩
  · obtain ⟨x, run, arrived, none, pulls⟩ := exists_run_of_perm refusing (s := asking) rfl (n := 2)
      (.refl _)
    have config := (run.holds rfl isPlain_refusing).config
    rw [arrived] at config
    exact ⟨x, run, none, pulls, arrived, config, config ▸ resolved_unformatted_ne⟩

end Exchange

end Server

end Quill
