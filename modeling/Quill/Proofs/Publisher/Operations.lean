import Quill.Publisher.Basic
import Quill.Store.Basic

/-!
# Runs of the publisher and their operations

A publisher hears of changes of documents, of timers that run out and of runs that come back, and is
told which document is the main one. A run is a list of such calls, in any order. What the publisher
sees of everything else may differ from call to call, but for the digest.

An operation of the publisher is made of smaller ones, each of which leaves a publisher and effects.
What holds of the publisher and of the effects so far is proved of the small ones.

## Main definitions

* `Publisher.Call`, `Call.apply` — the calls.
* `Publisher.Moment` — a call, with the publisher it met and what that saw.
* `Publisher.Reached` — a publisher is reached by a history, the latest moment first.
* `Publisher.shown?` — what was pushed last for a document in a history.
* `Publisher.lastSet?` — the last set of a root, and all that has happened since.
* `Result.Kept`, `Keeps` — what an operation keeps of the publisher and of some of the effects.
* `Result.Silent` — an operation on timers alone.
* `Alike` — who owns what is the same; `Moment.alike_after` says what a call makes of that.
-/

namespace Quill

abbrev Push := Uri × List Diagnostic

def PublisherEffect.push? : PublisherEffect → Option Push
  | .push uri _ diagnostics => some (uri, diagnostics)
  | _ => none

namespace Publisher

def Result.pushes (r : Result) : List Push := r.effects.filterMap PublisherEffect.push?

inductive Call where
  /-- A document was opened, edited or closed. -/
  | hear (e : StoreEvent)
  | refresh (uris : List Uri)
  | fire (root : Uri)
  | fireAll
  /-- A run came back, with a set if all went well. -/
  | ended (run : Nat) (root : Uri) (r : Except Failure (Option DiagnosticSet))
  | retire (run : Nat)
  | pin (uri : Option Uri)
  | refocus (uri : Option Uri)
  | dispose

def Call.apply (w : Surroundings) (p : Publisher) : Call → Result
  | .hear e => if e.kind = .close then p.forget w e.uri else p.trigger w e.uri
  | .refresh uris => forEach (trigger w) uris p
  | .fire root => p.fire w root
  | .fireAll => p.fireAll w
  | .ended _ _ (.ok (some set)) => p.publishSet w set
  | .ended _ _ (.ok none) => { publisher := p }
  | .ended _ root (.error f) => { publisher := p, effects := [.trace (failureTrace root f)] }
  | .retire run => { publisher := p.retire run }
  | .pin uri => p.pin w uri
  | .refocus uri => p.refocus w uri
  | .dispose => p.dispose

structure Moment where
  surroundings : Surroundings
  before : Publisher
  call : Call

namespace Moment

def result (m : Moment) : Result := m.call.apply m.surroundings m.before

def after (m : Moment) : Publisher := m.result.publisher

def pushes (m : Moment) : List Push := m.result.pushes

def set? (m : Moment) : Option DiagnosticSet :=
  match m.call with
  | .ended _ _ (.ok set) => if m.before.isDisposed then none else set
  | _ => none

def closes (m : Moment) (uri : Uri) : Bool :=
  match m.call with
  | .hear e => e.kind == .close && e.uri == uri
  | _ => false

theorem set?_eq_some_iff {m : Moment} {set : DiagnosticSet} : m.set? = some set ↔
    (∃ run root, m.call = .ended run root (.ok (some set))) ∧ m.before.isDisposed = false := by
  unfold set?
  split
  next run root set' eq => cases m.before.isDisposed <;> simp [eq]
  next other =>
    refine ⟨fun h => by simp at h, ?_⟩
    rintro ⟨⟨run, root, eq⟩, -⟩
    exact absurd eq (other run root _)

end Moment

/-- The publisher `p` is reached from a new one by a history, the latest moment first. -/
inductive Reached (d : Digest) : List Moment → Publisher → Prop where
  | start : Reached d [] {}
  | step {m : Moment} {h : List Moment} (before : Reached d h m.before)
      (digest : m.surroundings.digest = d) : Reached d (m :: h) m.after

/-- What was pushed in a history, the latest first. -/
def pushed (h : List Moment) : List Push := h.flatMap fun m => m.pushes.reverse

def shown? (h : List Moment) (uri : Uri) : Option (List Diagnostic) := Dict.get? (pushed h) uri

/-- The sets that were taken in, the latest first. -/
def sets (h : List Moment) : List DiagnosticSet := h.filterMap Moment.set?

/-- The last set of a root, unless the root was closed since. It comes with the moment at which it
was taken in, and all that has happened since. -/
def lastSet? (root : Uri) : List Moment → Option (List Moment × Moment × DiagnosticSet)
  | [] => none
  | m :: earlier =>
    if m.closes root then none
    else
      match m.set?.filter (·.root = root) with
      | some set => some ([], m, set)
      | none => (lastSet? root earlier).map fun l => (m :: l.1, l.2)

/-- A history goes through the histories it grew from. -/
theorem Reached.of_append {d : Digest} {later : List Moment} {m : Moment} {earlier : List Moment}
    {p : Publisher} (run : Reached d (later ++ m :: earlier) p) :
    Reached d earlier m.before ∧ m.surroundings.digest = d := by
  induction later generalizing p with
  | nil => cases run with | step before digest => exact ⟨before, digest⟩
  | cons _ _ ih => cases run with | step before _ => exact ih before

/-- The last set was taken in at its moment, and neither another one nor the closing of the root has
come since. -/
theorem lastSet?_eq_some {root : Uri} {h later : List Moment} {m : Moment} {set : DiagnosticSet}
    (last : lastSet? root h = some (later, m, set)) :
    (∃ earlier, h = later ++ m :: earlier) ∧ m.set? = some set ∧ set.root = root ∧
      ∀ m' ∈ later, m'.closes root = false ∧ ∀ set', m'.set? = some set' → set'.root ≠ root := by
  induction h generalizing later with
  | nil => simp [lastSet?] at last
  | cons m' earlier ih =>
    rw [lastSet?] at last
    split at last
    · simp at last
    next «open» =>
      split at last
      next set' found =>
        obtain ⟨rfl, rfl, rfl⟩ : [] = later ∧ m' = m ∧ set' = set := by simpa using last
        obtain ⟨found, isIt⟩ := Option.filter_eq_some_iff.1 found
        exact ⟨⟨earlier, rfl⟩, found, of_decide_eq_true isIt, by simp⟩
      next other =>
        obtain ⟨⟨rest, m₁, set₁⟩, known, eq⟩ := Option.map_eq_some_iff.1 last
        obtain ⟨rfl, rfl, rfl⟩ : m' :: rest = later ∧ m₁ = m ∧ set₁ = set := by simpa using eq
        obtain ⟨⟨earlier, rfl⟩, found, isIt, since⟩ := ih known
        refine ⟨⟨earlier, rfl⟩, found, isIt, fun m'' mem => ?_⟩
        rcases List.mem_cons.1 mem with rfl | mem
        · refine ⟨by simpa using «open», fun set' found eq => ?_⟩
          simp [found, eq] at other
        · exact since m'' mem

end Publisher

/-! ## Operations one after another -/

def Digest.ofDiagnostics (d : Digest) (ds : List Diagnostic) : Text :=
  d.ofValue (.array (ds.map Diagnostic.toValue))

namespace Publisher

open PublisherEffect (push?)

variable {w : Surroundings} {p q : Publisher} {ps : List Push} {u root : Uri} {β : Type}

/-! ## One operation after another -/

theorem Result.andThen_assoc (r : Result) (f g : Publisher → Result) :
    (r.andThen f).andThen g = r.andThen fun p => (f p).andThen g := by
  unfold Result.andThen
  cases refused : r.refused <;> simp only [refused]
  cases refused' : (f r.publisher).refused <;> simp [refused']

theorem foldl_andThen (f : β → Publisher → Result) (items : List β) (r : Result) :
    items.foldl (fun r b => r.andThen (f b)) r = r.andThen (forEach f items) := by
  induction items generalizing r with
  | nil =>
    obtain ⟨p, effects, refused⟩ := r
    cases refused <;> simp [forEach, Result.andThen]
  | cons b rest ih =>
    have all : forEach f (b :: rest) = fun p => (f b p).andThen (forEach f rest) := by
      funext p
      rw [← ih, forEach, List.foldl_cons]
      rfl
    rw [List.foldl_cons, ih, Result.andThen_assoc, all]

theorem forEach_cons (f : β → Publisher → Result) (b : β) (rest : List β) (p : Publisher) :
    forEach f (b :: rest) p = (f b p).andThen (forEach f rest) := by
  rw [← foldl_andThen, forEach, List.foldl_cons]
  rfl

theorem forEach_append (f : β → Publisher → Result) (items rest : List β) (p : Publisher) :
    forEach f (items ++ rest) p = (forEach f items p).andThen (forEach f rest) := by
  rw [← foldl_andThen, forEach, List.foldl_append]
  rfl

/-- An operation that is not refused is followed by what follows it. -/
theorem Result.andThen_of_refused_eq_none {r : Result} (f : Publisher → Result)
    (h : r.refused = none) :
    (r.andThen f).publisher = (f r.publisher).publisher ∧
      (r.andThen f).effects = r.effects ++ (f r.publisher).effects ∧
      (r.andThen f).refused = (f r.publisher).refused := by
  simp [Result.andThen, h]

theorem Result.refused_andThen {r : Result} {f : Publisher → Result} (h : r.refused = none)
    (next : ∀ p, (f p).refused = none) : (r.andThen f).refused = none :=
  (Result.andThen_of_refused_eq_none f h).2.2.trans (next _)

theorem refused_forEach {f : β → Publisher → Result} (willing : ∀ b p, (f b p).refused = none)
    (items : List β) (p : Publisher) : (forEach f items p).refused = none := by
  induction items generalizing p with
  | nil => rfl
  | cons b rest ih =>
    rw [forEach_cons]
    exact Result.refused_andThen (willing b p) ih

/-! ## What is kept -/

section Kept

variable {ο : Type} {obs : PublisherEffect → Option ο} {I : Publisher → List ο → Prop} {os : List ο}

/-- What holds of the publisher and of the effects in view so far, the latest first, holds after an
operation. -/
def Result.Kept (r : Result) (obs : PublisherEffect → Option ο) (I : Publisher → List ο → Prop)
    (os : List ο) : Prop :=
  I r.publisher ((r.effects.filterMap obs).reverse ++ os)

/-- The operation keeps what holds of the publisher and of the effects in view. -/
def Keeps (obs : PublisherEffect → Option ο) (I : Publisher → List ο → Prop)
    (f : Publisher → Result) : Prop :=
  ∀ ⦃p os⦄, I p os → (f p).Kept obs I os

theorem Result.Kept.andThen {r : Result} {f : Publisher → Result} (h : r.Kept obs I os)
    (keeps : Keeps obs I f) : (r.andThen f).Kept obs I os := by
  cases refused : r.refused with
  | some e => simpa [Result.andThen, refused] using h
  | none =>
    obtain ⟨publisher, effects, -⟩ := Result.andThen_of_refused_eq_none f refused
    have next := keeps h
    rw [Result.Kept] at next ⊢
    rw [publisher, effects, List.filterMap_append, List.reverse_append, List.append_assoc]
    exact next

/-- What one operation brings about, the next one may rely on, if the first is not refused. -/
theorem Result.Kept.andThen_of_refused_eq_none {J : Publisher → List ο → Prop} {r : Result}
    {f : Publisher → Result} (h : r.Kept obs I os) (refused : r.refused = none)
    (next : ∀ p os, I p os → (f p).Kept obs J os) : (r.andThen f).Kept obs J os := by
  obtain ⟨publisher, effects, -⟩ := Result.andThen_of_refused_eq_none f refused
  have next := next _ _ h
  rw [Result.Kept] at next ⊢
  rw [publisher, effects, List.filterMap_append, List.reverse_append, List.append_assoc]
  exact next

theorem Keeps.forEach {f : β → Publisher → Result} {items : List β}
    (h : ∀ b ∈ items, Keeps obs I (f b)) : Keeps obs I (Publisher.forEach f items) := by
  induction items with
  | nil => exact fun _ _ holds => holds
  | cons b rest ih =>
    intro p os holds
    rw [forEach_cons]
    exact Result.Kept.andThen (h b List.mem_cons_self holds)
      (ih fun c hc => h c (List.mem_cons_of_mem _ hc))

/-- What one of many operations brings about, the others keep. -/
theorem kept_forEach_of_mem {J : Publisher → List ο → Prop} {f : β → Publisher → Result}
    {items : List β} {b : β} {p : Publisher} (mem : b ∈ items)
    (willing : ∀ b p, (f b p).refused = none) (before : ∀ b, Keeps obs I (f b))
    (makes : ∀ p os, I p os → (f b p).Kept obs J os) (behind : ∀ b, Keeps obs J (f b))
    (holds : I p os) : (forEach f items p).Kept obs J os := by
  induction items generalizing p os with
  | nil => simp at mem
  | cons c rest ih =>
    rw [forEach_cons]
    rcases List.mem_cons.1 mem with rfl | mem
    · exact (makes p os holds).andThen (Keeps.forEach fun c _ => behind c)
    · exact Result.Kept.andThen_of_refused_eq_none (before c holds) (willing c p) fun q os h =>
        ih mem h

end Kept

/-! ## Timers -/

theorem Result.pushes_andThen {r : Result} (f : Publisher → Result) (h : r.refused = none) :
    (r.andThen f).pushes = r.pushes ++ (f r.publisher).pushes := by
  rw [Result.pushes, (Result.andThen_of_refused_eq_none f h).2.1, List.filterMap_append]
  rfl

theorem kept_push_iff {r : Result} {I : Publisher → List Push → Prop} :
    r.Kept push? I ps ↔ I r.publisher (r.pushes.reverse ++ ps) := Iff.rfl

/-- The operation pushes nothing, is not refused, and changes nothing but timers and runs. -/
structure Result.Silent (r : Result) (p : Publisher) : Prop where
  pushes : r.pushes = []
  refused : r.refused = none
  publisher : ∃ timers inFlight nextRun, r.publisher = { p with timers, inFlight, nextRun }

theorem Result.Silent.andThen {r : Result} {f : Publisher → Result} (h : r.Silent p)
    (silent : ∀ q, (f q).Silent q) : (r.andThen f).Silent p := by
  obtain ⟨publisher, -, refused⟩ := Result.andThen_of_refused_eq_none f h.refused
  have next := silent r.publisher
  refine ⟨?_, refused.trans next.refused, ?_⟩
  · rw [Result.pushes_andThen f h.refused, h.pushes, next.pushes, List.nil_append]
  · obtain ⟨_, _, _, first⟩ := h.publisher
    obtain ⟨_, _, _, second⟩ := next.publisher
    exact ⟨_, _, _, publisher.trans (second.trans (by rw [first]))⟩

theorem silent_refl (p : Publisher) : ({ publisher := p } : Result).Silent p :=
  ⟨rfl, rfl, _, _, _, rfl⟩

theorem silent_forEach {f : β → Publisher → Result} (silent : ∀ b p, (f b p).Silent p)
    (items : List β) (p : Publisher) : (forEach f items p).Silent p := by
  induction items generalizing p with
  | nil => exact silent_refl p
  | cons b rest ih =>
    rw [forEach_cons]
    exact (silent b p).andThen ih

theorem silent_cancelTimer (root : Uri) (p : Publisher) : (cancelTimer root p).Silent p := by
  unfold cancelTimer
  split
  · exact ⟨rfl, rfl, _, _, _, rfl⟩
  · exact silent_refl p

theorem silent_schedule (w : Surroundings) (root : Uri) (p : Publisher) :
    (schedule w root p).Silent p :=
  (silent_cancelTimer root p).andThen fun _ => ⟨rfl, rfl, _, _, _, rfl⟩

theorem silent_trigger (w : Surroundings) (u : Uri) (p : Publisher) : (trigger w u p).Silent p := by
  unfold trigger
  split
  · exact silent_refl p
  · exact silent_forEach (silent_schedule w) _ p

theorem silent_fire (w : Surroundings) (root : Uri) (p : Publisher) : (fire w root p).Silent p := by
  refine (silent_cancelTimer root p).andThen fun q => ?_
  split
  · exact silent_refl q
  · exact ⟨rfl, rfl, _, _, _, rfl⟩

/-- Another main document starts timers. -/
theorem silent_moveMain (w : Surroundings) (update : Publisher → Publisher) (p : Publisher) :
    (moveMain w update p).Silent (update p) := by
  unfold moveMain
  simp only
  split
  · exact silent_refl _
  · exact (silent_forEach (silent_trigger w) _ _).andThen (silent_forEach (silent_trigger w) _)

/-! ## Who owns what -/

/-- What decides who owns a document is the same. -/
structure Alike (p q : Publisher) : Prop where
  main : q.main = p.main
  focus : q.focus = p.focus
  rootDocuments : q.rootDocuments = p.rootDocuments
  rootDependencies : q.rootDependencies = p.rootDependencies
  isDisposed : q.isDisposed = p.isDisposed

namespace Alike

theorem refl (p : Publisher) : Alike p p := ⟨rfl, rfl, rfl, rfl, rfl⟩

theorem trans {r : Publisher} (a : Alike p q) (b : Alike q r) : Alike p r :=
  ⟨b.main.trans a.main, b.focus.trans a.focus, b.rootDocuments.trans a.rootDocuments,
    b.rootDependencies.trans a.rootDependencies, b.isDisposed.trans a.isDisposed⟩

theorem of_silent {r : Result} (h : r.Silent p) : Alike p r.publisher := by
  obtain ⟨_, _, _, eq⟩ := h.publisher
  rw [eq]
  exact ⟨rfl, rfl, rfl, rfl, rfl⟩

theorem andThen {r : Result} {f : Publisher → Result} (a : Alike p r.publisher)
    (next : ∀ q, Alike q (f q).publisher) : Alike p (r.andThen f).publisher := by
  cases refused : r.refused with
  | some e => simpa [Result.andThen, refused] using a
  | none =>
    rw [(Result.andThen_of_refused_eq_none f refused).1]
    exact a.trans (next _)

theorem forEach {f : β → Publisher → Result} (alike : ∀ b p, Alike p (f b p).publisher)
    (items : List β) (p : Publisher) : Alike p (Publisher.forEach f items p).publisher := by
  induction items generalizing p with
  | nil => exact refl p
  | cons b rest ih =>
    rw [forEach_cons]
    exact (alike b p).andThen ih

theorem ownerOf? (a : Alike p q) (w : Surroundings) (u : Uri) :
    q.ownerOf? w u = p.ownerOf? w u := by
  simp only [Publisher.ownerOf?, mainInEffect, dependsOn, a.main, a.focus, a.rootDocuments,
    a.rootDependencies]

end Alike

theorem Result.Silent.published {r : Result} (h : r.Silent p) :
    r.publisher.published = p.published := by
  obtain ⟨_, _, _, eq⟩ := h.publisher
  rw [eq]

/-! ## Sets -/

/-- What becomes of an entry: it is older than what was pushed, or it is noted, and pushed unless
the same was pushed last. -/
theorem publishEntry_cases (w : Surroundings) (root u : Uri) (e : DiagnosticEntry) (p : Publisher) :
    (∃ l, Dict.get? p.published u = some l ∧ e.version < l.version ∧
      (publishEntry w root u e p).Silent p ∧ (publishEntry w root u e p).publisher = p) ∨
    (∀ l, Dict.get? p.published u = some l → l.version ≤ e.version) ∧
      (publishEntry w root u e p).publisher = { p with
        published := Dict.put p.published u
          ⟨e.version, w.digest.ofDiagnostics e.diagnostics, root⟩ } ∧
      ((∃ l, Dict.get? p.published u = some l ∧ l.hash = w.digest.ofDiagnostics e.diagnostics ∧
          (publishEntry w root u e p).pushes = [] ∧ (publishEntry w root u e p).refused = none) ∨
        (publishEntry w root u e p).pushes = [(u, e.diagnostics)] ∧
          (publishEntry w root u e p).refused = w.refuses u) := by
  unfold publishEntry
  simp only
  split
  next l older =>
    obtain ⟨found, lt⟩ := Option.filter_eq_some_iff.1 older
    exact .inl ⟨l, found, of_decide_eq_true lt, ⟨rfl, rfl, _, _, _, rfl⟩, rfl⟩
  next newer =>
    right
    refine ⟨fun l found => ?_, ?_⟩
    · simpa [found] using newer
    · split
      next same =>
        obtain ⟨l, found, eq⟩ := (Option.any_eq_true _ _).1 same
        exact ⟨rfl, .inl ⟨l, found, eq_of_beq eq, rfl, rfl⟩⟩
      next => exact ⟨rfl, .inr ⟨rfl, rfl⟩⟩

/-- A document that dropped out is cleared or left alone. -/
theorem clearDropped_cases (w : Surroundings) (root u : Uri) (p : Publisher) :
    (clearDropped w root u p).Silent p ∧ (clearDropped w root u p).publisher = p ∨
      (clearDropped w root u p).publisher = { p with published := Dict.erase p.published u } ∧
        (clearDropped w root u p).pushes = [(u, [])] ∧
        (clearDropped w root u p).refused = w.refuses u := by
  unfold clearDropped
  split
  · exact .inr ⟨rfl, rfl, rfl⟩
  · exact .inl ⟨silent_refl p, rfl⟩

theorem alike_publishEntry (w : Surroundings) (root u : Uri) (e : DiagnosticEntry) (p : Publisher) :
    Alike p (publishEntry w root u e p).publisher := by
  obtain ⟨-, -, -, -, same⟩ | ⟨-, same, -⟩ := publishEntry_cases w root u e p <;> rw [same]
  · exact .refl p
  · exact ⟨rfl, rfl, rfl, rfl, rfl⟩

theorem alike_clearDropped (w : Surroundings) (root u : Uri) (p : Publisher) :
    Alike p (clearDropped w root u p).publisher := by
  obtain ⟨-, same⟩ | ⟨same, -, -⟩ := clearDropped_cases w root u p <;> rw [same]
  · exact .refl p
  · exact ⟨rfl, rfl, rfl, rfl, rfl⟩

/-- What becomes of one entry of a set: only the owner pushes. -/
def publishOwned (w : Surroundings) (root : Uri) (b : Uri × DiagnosticEntry) (p : Publisher) :
    Result :=
  if p.ownerOf? w b.1 = some root then publishEntry w root b.1 b.2 p else { publisher := p }

theorem refused_publishOwned (willing : ∀ x, w.refuses x = none) (root : Uri)
    (b : Uri × DiagnosticEntry) (p : Publisher) : (publishOwned w root b p).refused = none := by
  unfold publishOwned
  split
  · obtain ⟨-, -, -, silent, -⟩ | ⟨-, -, ⟨-, -, -, -, refused⟩ | ⟨-, refused⟩⟩ :=
      publishEntry_cases w root b.1 b.2 p
    · exact silent.refused
    · exact refused
    · exact refused.trans (willing _)
  · rfl

theorem alike_publishOwned (w : Surroundings) (root : Uri) (b : Uri × DiagnosticEntry)
    (p : Publisher) : Alike p (publishOwned w root b p).publisher := by
  unfold publishOwned
  split
  · exact alike_publishEntry w root b.1 b.2 p
  · exact .refl p

def routed (p : Publisher) (set : DiagnosticSet) : Publisher :=
  { p with
    rootDocuments := Dict.put p.rootDocuments set.root (Dict.keys set.entries)
    rootDependencies := Dict.put p.rootDependencies set.root set.dependencies.eraseDups }

theorem publishSet_eq (alive : p.isDisposed = false) (set : DiagnosticSet) : p.publishSet w set =
    (forEach (publishOwned w set.root) set.entries (p.routed set)).andThen
      (forEach (clearDropped w set.root)
        (((Dict.get? p.rootDocuments set.root).getD []).filter fun u => !Dict.has
          set.entries u)) := by
  unfold publishSet
  rw [if_neg (by simp [alive])]
  rfl

/-- Who owns what is decided before anything is pushed. -/
theorem alike_publishSet (alive : p.isDisposed = false) (set : DiagnosticSet) :
    Alike (p.routed set) (p.publishSet w set).publisher := by
  rw [publishSet_eq alive]
  exact (Alike.forEach (alike_publishOwned w set.root) _ _).andThen
    (Alike.forEach (alike_clearDropped w set.root) _)

/-! ## Closed documents -/

theorem alike_handBack (w : Surroundings) (u : Uri) (p : Publisher) :
    Alike p (handBack w u p).publisher := by
  refine Alike.andThen ⟨rfl, rfl, rfl, rfl, rfl⟩ fun q => ?_
  split
  · exact .of_silent (silent_trigger w u q)
  · exact .refl q

def forgotten (p : Publisher) (u : Uri) : Publisher :=
  { p with
    rootDocuments := Dict.erase p.rootDocuments u
    rootDependencies := Dict.erase p.rootDependencies u
    published := Dict.erase p.published u }

/-- Who owns what is decided before anything is handed back. -/
theorem alike_forget (w : Surroundings) (u : Uri) (p : Publisher) :
    Alike (p.forgotten u) (p.forget w u).publisher := by
  have stopped := silent_cancelTimer u p
  obtain ⟨_, _, _, eq⟩ := stopped.publisher
  rw [forget, (Result.andThen_of_refused_eq_none _ stopped.refused).1, eq]
  refine Alike.andThen (Alike.andThen (Alike.andThen ⟨rfl, rfl, rfl, rfl, rfl⟩ ?_) fun q => .refl q)
    ?_
  · exact Alike.forEach (alike_handBack w) _
  · exact Alike.forEach (fun root q => .of_silent (silent_schedule w root q)) _

/-! ## Calls -/

/-- The publisher when it has noted what a call is about, before anything is pushed and any timer
started. -/
def Moment.noted (m : Moment) : Publisher :=
  match m.call with
  | .hear e => if e.kind = .close then m.before.forgotten e.uri else m.before
  | .ended _ _ (.ok (some set)) => if m.before.isDisposed then m.before else m.before.routed set
  | .pin uri => { m.before with main := uri }
  | .refocus uri => { m.before with focus := uri }
  | .dispose => { m.before with isDisposed := true }
  | _ => m.before

/-- Who owns what after a call is decided by what it is about. -/
theorem Moment.alike_after (m : Moment) : Alike m.noted m.after := by
  obtain ⟨w, p, call⟩ := m
  cases call with
  | hear e =>
    by_cases closed : e.kind = .close <;>
      simp only [noted, Moment.after, result, Call.apply, closed, if_true, if_false]
    · exact alike_forget w e.uri p
    · exact .of_silent (silent_trigger w e.uri p)
  | refresh uris => exact .of_silent (silent_forEach (silent_trigger w) uris p)
  | fire root => exact .of_silent (silent_fire w root p)
  | fireAll => exact .of_silent (silent_forEach (silent_fire w) _ p)
  | ended run root r =>
    cases r with
    | error f => exact .refl p
    | ok set =>
      cases set with
      | none => exact .refl p
      | some set =>
        change Alike (if _ then _ else _) (p.publishSet w set).publisher
        split
        next disposed =>
          rw [publishSet, if_pos disposed]
          exact .refl p
        next alive => exact alike_publishSet (Bool.eq_false_iff.2 alive) set
  | retire run => exact ⟨rfl, rfl, rfl, rfl, rfl⟩
  | pin uri =>
    have moved := Alike.of_silent (silent_moveMain w (fun p => { p with main := uri }) p)
    exact moved
  | refocus uri =>
    have moved := Alike.of_silent (silent_moveMain w (fun p => { p with focus := uri }) p)
    exact moved
  | dispose => exact ⟨rfl, rfl, rfl, rfl, rfl⟩

end Publisher

end Quill
