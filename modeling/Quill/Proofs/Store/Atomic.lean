import Quill.Proofs.Data.Dict
import Quill.Proofs.Run.Events

/-!
# Changes of documents as a whole

A document is opened, edited or closed as a whole or not at all: a call that is refused leaves every
document as it is and nobody hears of it, one that is accepted changes its document alone and is one
event. There is one exception. The changes of an edit are made in place, so an edit with a malformed
change keeps the changes before that one. All of this holds whatever library makes the changes, as
long as it makes them one after the other and sets the version last.

## Main definitions

* `Store.shown?` — what there is to see of a document.
* `DocumentCall` — a call on the store, with `DocumentCall.Accepted` and what it leaves of its
  document.
* `DocumentCall.Tears` — an edit that is refused after its text has changed.
* `DocumentCall.TakesEffect` — what a call does to the documents and to those that hear of changes.

## Main statements

* `TextLibrary.IsLawful.update_unknown` — the changes that are made are those before the first
  malformed one.
* `DocumentCall.accepted_iff_of_failure` — what fails may be asked again.
* `DocumentCall.takes_effect` — every call in every store.
* `DocumentCall.not_atomic` — an edit that tears.
-/

namespace Quill

/-! ## Changes of a text -/

namespace TextLibrary.IsLawful

variable {library : TextLibrary} {changes before : List ContentChange}

theorem update_known (lawful : library.IsLawful) (known : .malformed ∉ changes) (d : OpenDocument)
    (version : Int) : ∃ d', library.update d changes version = (d', none) ∧ d'.version = version ∧
      d'.language = d.language := by
  induction changes generalizing d with
  | nil => exact ⟨_, lawful.versionAtEnd d version, rfl, rfl⟩
  | cons c rest ih =>
    rw [List.mem_cons, not_or] at known
    obtain ⟨d', made⟩ : ∃ d', library.change? d c = some d' :=
      Option.ne_none_iff_exists'.1 fun unknown => known.1 ((lawful.unknown_iff d c).1 unknown).symm
    obtain ⟨d'', all, isNew, language⟩ := ih known.2 d'
    exact ⟨d'', by rw [lawful.inOrder made, all], isNew,
      language.trans (lawful.textAlone made).2⟩

/-- The changes behind a malformed one are not looked at, and the version stays. -/
theorem update_unknown (lawful : library.IsLawful) (known : .malformed ∉ before)
    (behind : List ContentChange) (d : OpenDocument) (version : Int) :
    library.update d (before ++ .malformed :: behind) version =
      ({ (library.update d before version).1 with version := d.version },
        some Store.malformedChange) := by
  induction before generalizing d with
  | nil =>
    have unknown := (lawful.unknown_iff d .malformed).2 rfl
    rw [List.nil_append, lawful.throws unknown, lawful.versionAtEnd]
  | cons c rest ih =>
    rw [List.mem_cons, not_or] at known
    obtain ⟨d', made⟩ : ∃ d', library.change? d c = some d' :=
      Option.ne_none_iff_exists'.1 fun unknown => known.1 ((lawful.unknown_iff d c).1 unknown).symm
    rw [List.cons_append, lawful.inOrder made, ih known.2, lawful.inOrder made,
      (lawful.textAlone made).1]

/-- A text is left behind in the middle of the changes exactly if those before the first malformed
one lead to it. -/
theorem left_iff (lawful : library.IsLawful) {d : OpenDocument} {version : Int} {left : Text} :
    ((library.update d changes version).2 ≠ none ∧ (library.update d changes version).1.text =
      left) ↔
      ∃ before behind, changes = before ++ .malformed :: behind ∧ .malformed ∉ before ∧
        (library.update d before version).1.text = left := by
  constructor
  · rintro ⟨failed, is⟩
    have mem : .malformed ∈ changes := Classical.byContradiction fun known => by
      obtain ⟨d', all, -⟩ := lawful.update_known known d version
      exact failed (congrArg Prod.snd all)
    obtain ⟨before, behind, rfl, known⟩ := List.eq_append_cons_of_mem mem
    rw [lawful.update_unknown known] at is
    exact ⟨before, behind, rfl, known, is⟩
  · rintro ⟨before, behind, rfl, known, is⟩
    rw [lawful.update_unknown known]
    exact ⟨by simp, is⟩

end TextLibrary.IsLawful

/-! ## Calls -/

def StoreResult.events (r : StoreResult) : List StoreEvent := r.outcome.toOption.toList

def OpenDocument.shown (d : OpenDocument) : Text × Int × Text := (d.text, d.version, d.language)

def Store.shown? (s : Store) (uri : Uri) : Option (Text × Int × Text) :=
  (Dict.get? s.documents uri).map OpenDocument.shown

inductive DocumentCall where
  | open (input text : Text) (version : Int) (language : Text)
  | edit (input : Text) (changes : List ContentChange) (version : Int)
  | close (input : Text)

namespace DocumentCall

def run (library : TextLibrary) (s : Store) : DocumentCall → StoreResult
  | .open input text version language => s.open input text version language
  | .edit input changes version => s.edit input changes version library
  | .close input => s.close input

def perform (e : Engine) : DocumentCall → EngineReply (Except Failure Uri)
  | .open input text version language => e.open input text version (some language)
  | .edit input changes version => e.edit input changes version
  | .close input => e.close input

def uri : DocumentCall → Uri
  | .open input .. | .edit input .. | .close input => Uri.ofInput input

def event (c : DocumentCall) : StoreEvent :=
  match c with
  | .open _ _ version _ => ⟨.open, c.uri, some version⟩
  | .edit _ _ version => ⟨.edit, c.uri, some version⟩
  | .close _ => ⟨.close, c.uri, none⟩

/-- The call is not refused: versions do not go back, those of edits grow, and only an open document
is edited or closed, by changes of which none is malformed. -/
def Accepted (s : Store) (c : DocumentCall) : Prop :=
  match c with
  | .open _ _ version _ => ∀ current, s.versionOf c.uri = some current → current ≤ version
  | .edit _ changes version =>
    .malformed ∉ changes ∧ ∃ current, s.versionOf c.uri = some current ∧ current < version
  | .close _ => s.has c.uri

def result? (library : TextLibrary) (s : Store) (c : DocumentCall) : Option (Text × Int × Text) :=
  match c with
  | .open _ text version language => some (text, version, language)
  | .edit _ changes version => (Dict.get? s.documents c.uri).map fun d =>
      ((library.update d changes version).1.text, version, d.language)
  | .close _ => none

/-- An edit of `d` is refused for a malformed change after those before it have left another
text. -/
def Tears (library : TextLibrary) (s : Store) (c : DocumentCall) (d : OpenDocument) (torn : Text) :
    Prop :=
  Dict.get? s.documents c.uri = some d ∧ torn ≠ d.text ∧
    match c with
    | .edit _ changes version => d.version < version ∧ ∃ before behind,
        changes = before ++ .malformed :: behind ∧ .malformed ∉ before ∧
          (library.update d before version).1.text = torn
    | _ => False

end DocumentCall

def EngineWork.event? : EngineWork → Option StoreEvent
  | .changed event => some event
  | _ => none

def Engine.passedOn (actions : List EngineAction) : List StoreEvent :=
  (worksOf actions).filterMap EngineWork.event?

namespace Store

variable {s : Store} {uri : Uri} {d d' : OpenDocument}

theorem shown?_put (s : Store) (uri : Uri) (d : OpenDocument) (x : Uri) :
    (s.put uri d).shown? x = if x = uri then some d.shown else s.shown? x := by
  rw [shown?, put, Dict.get?_put]
  split
  · rfl
  · rfl

/-- A document whose version does not go back is opened. -/
theorem open_of_current {input : Text} {version : Int} (text language : Text)
    (forward : ∀ current, s.versionOf (Uri.ofInput input) = some current → current ≤ version) :
    ∃ ts, s.open input text version language =
      ⟨s.put (Uri.ofInput input) { text, version, language }, ts,
        .ok ⟨.open, Uri.ofInput input, some version⟩⟩ := by
  cases before : s.versionOf (Uri.ofInput input) with
  | none =>
    simp only [Store.open, before]
    exact ⟨_, rfl⟩
  | some current =>
    simp only [Store.open, before, Int.not_lt.2 (forward current before), if_false]
    exact ⟨_, rfl⟩

/-- A document keeps its version and language. -/
def SameButText (s s' : Store) : Prop :=
  ∀ x, (s'.shown? x).map Prod.snd = (s.shown? x).map Prod.snd

theorem SameButText.versionOf {s' : Store} (same : s.SameButText s') (x : Uri) :
    s'.versionOf x = s.versionOf x := by
  simpa [Store.versionOf, shown?, OpenDocument.shown, Function.comp_def] using
    congrArg (Option.map Prod.fst) (same x)

theorem sameButText_refl (s : Store) : s.SameButText s := fun _ => rfl

theorem sameButText_put (found : Dict.get? s.documents uri = some d)
    (same : d'.version = d.version ∧ d'.language = d.language) : s.SameButText (s.put uri d') := by
  intro x
  rw [shown?_put]
  split
  next own => simp [own, shown?, found, OpenDocument.shown, same]
  next => rfl

end Store

namespace DocumentCall

variable {library : TextLibrary} {s : Store} {c : DocumentCall}

structure TakesEffect (library : TextLibrary) (s : Store) (c : DocumentCall) : Prop where
  /-- The call succeeds exactly if nothing speaks against it. -/
  succeeds_iff : (∃ event, (c.run library s).outcome = .ok event) ↔ c.Accepted s
  /-- A success is one event, with the uri of the document and its version from now on. -/
  success : ∀ event, (c.run library s).outcome = .ok event →
    (c.run library s).events = [event] ∧ event = c.event ∧ event.uri = c.uri ∧
      event.version = (c.run library s).store.versionOf c.uri
  /-- A success makes the change as a whole, and in this document alone. -/
  changed : ∀ event, (c.run library s).outcome = .ok event → ∀ x,
    (c.run library s).store.shown? x = if x = c.uri then c.result? library s else s.shown? x
  /-- A failure is no event, and changes no version and no language. -/
  failure : ∀ f, (c.run library s).outcome = .error f →
    (c.run library s).events = [] ∧ s.SameButText (c.run library s).store
  /-- A failure changes no text either, unless it tears one. -/
  unchanged_iff : ∀ f, (c.run library s).outcome = .error f →
    ((∀ x, (c.run library s).store.shown? x = s.shown? x) ↔ ¬ ∃ d torn, c.Tears library s d torn)
  /-- What is torn has the changes before the malformed one. -/
  torn : ∀ d torn, c.Tears library s d torn →
    (c.run library s).outcome = .error Store.malformedChange ∧ ∀ x,
      (c.run library s).store.shown? x =
        if x = c.uri then some (torn, d.version, d.language) else s.shown? x
  /-- The scheduler and the publisher of an engine hear of the events, and of nothing else. -/
  heard : ∀ e : Engine, e.store = s → e.host.library.1 = library → e.isDisposed = false →
    (c.perform e).engine.store = (c.run library s).store ∧
    Engine.passedOn (c.perform e).actions = (c.run library s).events ∧
    (c.perform e).engine.scheduler = (c.run library s).events.foldl
      (fun scheduler event => (Scheduler.invalidate event scheduler : Scheduler.Result Fact).1)
      e.scheduler

/-! ## What follows a change in the engine -/

end DocumentCall

namespace Engine

theorem passedOn_traces (ts : List Trace) : passedOn (traces ts) = [] := by simp [passedOn]

theorem passedOn_scheduler (effects : List (SchedulerEffect Fact)) :
    passedOn (effects.flatMap schedulerActions) = [] := by
  rw [passedOn, List.filterMap_eq_nil_iff]
  intro w hw
  obtain ⟨a, ha, hw⟩ := List.mem_filterMap.1 hw
  obtain ⟨f, -, ha⟩ := List.mem_flatMap.1 ha
  cases f <;> simp only [schedulerActions, List.mem_singleton] at ha <;> subst ha <;>
    simp only [Action.work?, Option.some.injEq, reduceCtorEq] at hw <;> subst hw <;> rfl

theorem passedOn_afterStore {e : Engine} (alive : e.isDisposed = false) (r : StoreResult) :
    passedOn (e.afterStore r).actions = r.events := by
  unfold afterStore
  simp only [StoreResult.events]
  split
  next f refused => rw [refused, passedOn_traces]; rfl
  next event done =>
    have silent := passedOn_scheduler
        (Scheduler.invalidate event e.scheduler : Scheduler.Result Fact).2
    rw [passedOn] at silent
    simp [alive, passedOn, schedule, silent, done, Action.work?, EngineWork.event?, Except.toOption]

theorem scheduler_afterStore {e : Engine} (alive : e.isDisposed = false) (r : StoreResult) :
    (e.afterStore r).engine.scheduler = r.events.foldl
      (fun scheduler event => (Scheduler.invalidate event scheduler : Scheduler.Result Fact).1)
        e.scheduler := by
  cases done : r.outcome with
  | error f => simp [afterStore, StoreResult.events, done, Except.toOption]
  | ok event => simp [afterStore_scheduler alive done, StoreResult.events, done, Except.toOption]

end Engine

namespace DocumentCall

variable {library : TextLibrary} {s : Store} {c : DocumentCall}

theorem perform_eq (e : Engine) (c : DocumentCall) :
    c.perform e = e.afterStore (c.run e.host.library.1 e.store) := by cases c <;> rfl

/-! ## The kinds of outcomes -/

theorem tears_edit_iff (lawful : library.IsLawful) {input : Text} {changes : List ContentChange}
    {version : Int} {d : OpenDocument} {torn : Text} :
    Tears library s (.edit input changes version) d torn ↔
      Dict.get? s.documents (Uri.ofInput input) = some d ∧ torn ≠ d.text ∧ d.version < version ∧
        (library.update d changes version).2 ≠ none ∧
        (library.update d changes version).1.text = torn := by
  rw [lawful.left_iff]
  rfl

theorem event_uri (c : DocumentCall) : c.event.uri = c.uri := by cases c <;> rfl

/-- An event has the version of what the call leaves. -/
theorem event_version (accepted : c.Accepted s) :
    c.event.version = (c.result? library s).map (·.2.1) := by
  cases c with
  | «open» | close => rfl
  | edit input changes version =>
    obtain ⟨-, current, before, -⟩ := accepted
    obtain ⟨d, found, -⟩ := Option.map_eq_some_iff.1 before
    rw [result?, found]
    rfl

/-- How a call comes out: it is done as a whole, or fails and changes a text at most, if it tears
it. -/
inductive Ends (library : TextLibrary) (s : Store) (c : DocumentCall) : Prop where
  | done (accepted : c.Accepted s) (ok : (c.run library s).outcome = .ok c.event)
      (change : ∀ x, (c.run library s).store.shown? x =
        if x = c.uri then c.result? library s else s.shown? x)
  | failed {f : Failure} (not : ¬ c.Accepted s) (error : (c.run library s).outcome = .error f)
      (kept : s.SameButText (c.run library s).store)
      (same : (∀ x, (c.run library s).store.shown? x = s.shown? x) ↔
        ¬ ∃ d torn, c.Tears library s d torn)

/-- Nothing comes of a call. -/
theorem Ends.refused {f : Failure} {ts : List Trace} (not : ¬ c.Accepted s)
    (left : c.run library s = ⟨s, ts, .error f⟩) (whole : ∀ d torn, ¬ c.Tears library s d torn) :
    Ends library s c := by
  refine .failed not (congrArg StoreResult.outcome left) ?_ ?_
  · rw [left]
    exact s.sameButText_refl
  · simp [left, whole]

theorem ends_open (s : Store) (input text : Text) (version : Int) (language : Text) :
    Ends library s (.open input text version language) := by
  by_cases forward : ∀ current, s.versionOf (Uri.ofInput input) = some current → current ≤ version
  · obtain ⟨ts, opened⟩ := Store.open_of_current text language forward
    refine .done forward ?_ fun x => ?_
    · simp [run, opened, event, uri]
    · simp only [run, opened]
      exact Store.shown?_put _ _ _ _
  · obtain ⟨current, back⟩ := Classical.not_forall.1 forward
    obtain ⟨before, back⟩ := Classical.not_imp.1 back
    have stale : s.open input text version language =
        s.refuseStale (Uri.ofInput input) version current := by
      simp [Store.open, before, Int.not_le.1 back]
    exact .refused forward stale fun _ _ tears => tears.2.2

variable {input : Text} {version : Int} {d : OpenDocument}

/-- An edit of a document with a greater version by changes that are all known is made. -/
theorem ends_edit_of_known (lawful : library.IsLawful) {changes : List ContentChange}
    (known : .malformed ∉ changes) (found : Dict.get? s.documents (Uri.ofInput input) = some d)
    (newer : d.version < version) : Ends library s (.edit input changes version) := by
  have before : s.versionOf (Uri.ofInput input) = some d.version := by simp [Store.versionOf, found]
  obtain ⟨d', made, isNew, language⟩ := lawful.update_known known d version
  refine .done ⟨known, _, before, newer⟩ ?_ fun x => ?_
  · simp [run, Store.edit, found, Int.not_le.2 newer, made, event, uri]
  · simp [run, Store.edit, found, Int.not_le.2 newer, made, result?, uri, Store.shown?_put,
      OpenDocument.shown, isNew, language]

/-- An edit of a document with a greater version is made as far as the first malformed change. -/
theorem ends_edit_of_unknown (lawful : library.IsLawful) {before behind : List ContentChange}
    (known : .malformed ∉ before) (found : Dict.get? s.documents (Uri.ofInput input) = some d)
    (newer : d.version < version) :
    Ends library s (.edit input (before ++ .malformed :: behind) version) := by
  have stops := lawful.update_unknown known behind d version
  obtain ⟨d', made, -, language⟩ := lawful.update_known known d version
  rw [made] at stops
  have left : s.edit input (before ++ .malformed :: behind) version library =
      ⟨s.put (Uri.ofInput input) { d' with version := d.version }, [],
        .error Store.malformedChange⟩ := by
    simp [Store.edit, found, Int.not_le.2 newer, stops]
  have tears (torn : Text) :
      Tears library s (.edit input (before ++ .malformed :: behind) version) d
      torn ↔ torn ≠ d.text ∧ d'.text = torn := by
    simp [tears_edit_iff lawful, found, newer, stops]
  refine .failed (fun accepted => accepted.1 (by simp)) (congrArg StoreResult.outcome left) ?_ ?_
  · simp only [run, left]
    exact Store.sameButText_put found ⟨rfl, language⟩
  · simp only [run, left, Store.shown?_put]
    constructor
    · rintro same ⟨is, torn, torn'⟩
      obtain rfl : d = is := by simpa [found, uri] using torn'.1
      obtain ⟨other, rfl⟩ := (tears torn).1 torn'
      have seen := same (Uri.ofInput input)
      rw [if_pos rfl, Store.shown?, found] at seen
      exact other (congrArg Prod.fst (Option.some.inj seen))
    · intro whole x
      have same : d'.text = d.text := Classical.byContradiction fun other =>
        whole ⟨d, d'.text, (tears _).2 ⟨other, rfl⟩⟩
      split
      next own => simp [own, Store.shown?, found, OpenDocument.shown, same, language]
      next => rfl

theorem ends_edit (lawful : library.IsLawful) (s : Store) (input : Text)
    (changes : List ContentChange) (version : Int) :
    Ends library s (.edit input changes version) := by
  by_cases newer : ∃ d, Dict.get? s.documents (Uri.ofInput input) = some d ∧ d.version < version
  · obtain ⟨d, found, newer⟩ := newer
    by_cases mem : .malformed ∈ changes
    · obtain ⟨before, behind, rfl, known⟩ := List.eq_append_cons_of_mem mem
      exact ends_edit_of_unknown lawful known found newer
    · exact ends_edit_of_known lawful mem found newer
  · have not : ¬ Accepted s (.edit input changes version) := by
      rintro ⟨-, current, before, less⟩
      obtain ⟨d, found, rfl⟩ := Option.map_eq_some_iff.1 before
      exact newer ⟨d, found, less⟩
    have whole (d torn) : ¬ Tears library s (.edit input changes version) d torn := fun tears =>
      newer ⟨d, tears.1, tears.2.2.1⟩
    cases found : Dict.get? s.documents (Uri.ofInput input) with
    | none =>
      have unknown : s.edit input changes version library =
          ⟨s, [], .error (.unknownDocument (Uri.ofInput input))⟩ := by
        simp [Store.edit, found]
      exact .refused not unknown whole
    | some d =>
      have stale : s.edit input changes version library =
          s.refuseStale (Uri.ofInput input) version d.version := by
        simp [Store.edit, found, Int.not_lt.1 fun less => newer ⟨d, found, less⟩]
      exact .refused not stale whole

theorem ends_close (s : Store) (input : Text) : Ends library s (.close input) := by
  cases isOpen : s.has (Uri.ofInput input) with
  | true =>
    refine .done isOpen ?_ fun x => ?_
    · simp [run, Store.close, isOpen, event, uri]
    · simp only [run, Store.close, isOpen, if_true, result?, uri, Store.shown?]
      by_cases own : x = Uri.ofInput input
      · simp [own]
      · simp [own, Dict.get?_erase_of_ne]
  | false =>
    have unknown : s.close input = ⟨s, [], .error (.unknownDocument (Uri.ofInput input))⟩ := by
      simp [Store.close, isOpen]
    refine .refused (fun accepted => ?_) unknown fun _ _ tears => tears.2.2
    exact Bool.false_ne_true (isOpen.symm.trans accepted)

theorem ends (lawful : library.IsLawful) (s : Store) (c : DocumentCall) : Ends library s c := by
  cases c with
  | «open» input text version language => exact ends_open s input text version language
  | edit input changes version => exact ends_edit lawful s input changes version
  | close input => exact ends_close s input

theorem run_of_tears (lawful : library.IsLawful) {torn : Text} (tears : c.Tears library s d torn) :
    (c.run library s).outcome = .error Store.malformedChange ∧ ∀ x,
      (c.run library s).store.shown? x =
        if x = c.uri then some (torn, d.version, d.language) else s.shown? x := by
  cases c with
  | «open» | close => exact tears.2.2.elim
  | edit input changes version =>
    obtain ⟨found, -, newer, before, behind, rfl, known, rfl⟩ := tears
    obtain ⟨d', made, -, language⟩ := lawful.update_known known d version
    have stops := lawful.update_unknown known behind d version
    rw [made] at stops
    have left : s.edit input (before ++ .malformed :: behind) version library =
        ⟨s.put (Uri.ofInput input) { d' with version := d.version }, [],
          .error Store.malformedChange⟩ := by
      simp only [uri] at found
      simp [Store.edit, found, Int.not_le.2 newer, stops]
    simp [run, left, uri, Store.shown?_put, OpenDocument.shown, made, language]

/-- After a failure the same calls are accepted as before it. So an edit that tears may come again
with the same version, and be made a second time. -/
theorem accepted_iff_of_failure (lawful : library.IsLawful) {f : Failure}
    (failed : (c.run library s).outcome = .error f) (next : DocumentCall) :
    next.Accepted (c.run library s).store ↔ next.Accepted s := by
  cases ends lawful s c with
  | done _ ok _ => simp [ok] at failed
  | failed _ _ kept _ =>
    have same := kept.versionOf next.uri
    cases next with
    | «open» | edit => simp only [Accepted, same]
    | close => simp only [Accepted, Store.has_eq_isSome_versionOf, same]

/-! ## What a call does -/

/-- Every call in every store is made as a whole or leaves the documents as they are, but for an
edit that tears. -/
theorem takes_effect (lawful : library.IsLawful) (s : Store) (c : DocumentCall) :
    c.TakesEffect library s := by
  have heard (e : Engine) (same : e.store = s) (changes : e.host.library.1 = library)
      (alive : e.isDisposed = false) : (c.perform e).engine.store = (c.run library s).store ∧
        Engine.passedOn (c.perform e).actions = (c.run library s).events ∧
        (c.perform e).engine.scheduler = (c.run library s).events.foldl
          (fun scheduler event => (Scheduler.invalidate event scheduler : Scheduler.Result Fact).1)
          e.scheduler := by
    rw [perform_eq, same, changes]
    exact ⟨e.afterStore_store _, Engine.passedOn_afterStore alive _,
      Engine.scheduler_afterStore alive _⟩
  have torn (d : OpenDocument) (text : Text) (tears : c.Tears library s d text) :=
    run_of_tears lawful tears
  cases ends lawful s c with
  | done accepted ok change =>
    have only {event : StoreEvent} (is : (c.run library s).outcome = .ok event) :
        event = c.event := by simpa [ok, eq_comm] using is
    have fine {f : Failure} : (c.run library s).outcome ≠ .error f := by simp [ok]
    have now : c.event.version = (c.run library s).store.versionOf c.uri := by
      have left := congrArg (Option.map (·.2.1)) (change c.uri)
      rw [if_pos rfl, ← event_version accepted] at left
      simpa [Store.shown?, Store.versionOf, OpenDocument.shown, Function.comp_def] using left.symm
    refine ⟨iff_of_true ⟨_, ok⟩ accepted, fun event is => ?_, fun event is => change,
      fun f failed => absurd failed fine, fun f failed => absurd failed fine, torn, heard⟩
    obtain rfl := only is
    exact ⟨by simp [StoreResult.events, ok, Except.toOption], rfl, event_uri c, now⟩
  | failed not error kept same =>
    have fails {event : StoreEvent} : (c.run library s).outcome ≠ .ok event := by simp [error]
    refine ⟨iff_of_false (not_exists.2 fun _ => fails) not, fun event is => absurd is fails,
      fun event is => absurd is fails, fun f failed => ⟨?_, kept⟩, fun f failed =>
        same, torn, heard⟩
    simp [StoreResult.events, error, Except.toOption]

/-- A change is made in the text that the library has, and stays when the next one is refused. -/
theorem takes_effect_incremental :
    let s : Store := ⟨[("/ws/a.quill", ⟨"ab\ncd", 1, "quill", none⟩)]⟩
    let c : DocumentCall := .edit "/ws/a.quill" [.ranged ⟨⟨1, 0⟩, ⟨1, 1⟩⟩ "x\ny", .malformed] 2
    TextLibrary.incremental.IsLawful ∧ c.TakesEffect .incremental s ∧
      (c.run .incremental s).store.shown? "/ws/a.quill" =
        some (Text.ofString "ab\nx\nyd", 1, Text.ofString "quill") :=
  ⟨TextLibrary.isLawful_incremental, takes_effect TextLibrary.isLawful_incremental _ _,
    by decide +kernel⟩

/-- An edit that fails may leave another text. -/
theorem not_atomic : ¬ ∀ (s : Store) (c : DocumentCall) (f : Failure),
    (c.run .incremental s).outcome = .error f →
      ∀ x, (c.run .incremental s).store.shown? x = s.shown? x := by
  intro same
  have kept := same ⟨[("/ws/a.quill", ⟨"x", 1, "quill", none⟩)]⟩
    (.edit "/ws/a.quill" [.full "y", .malformed] 2) Store.malformedChange rfl "/ws/a.quill"
  exact absurd kept (by decide +kernel)

end DocumentCall

end Quill
