import Quill.Proofs.Publisher.Pushes

/-!
# The ledger of the publisher

What the publisher has in its table is what the receiver of the pushes has been told, whatever
happens and in whatever order. A document that is not in the table is clear there. And until a
document is taken off the table, its version in it never goes back.

When a set comes in, what is shown for a document changes only if the set has something new to say
of the document, or drops it. How old the set is does not matter but for the versions that were
read.

## Main definitions

* `NotBehind`, `Stays` — the version in the table, for operations that may take the document off and
  for others.
* `Moment.Removes` — a call takes a document off the table.
* `Ledger` — what the table says of a history.
* `Moment.Tells`, `Moment.Drops` — the set says something new of a document, or is without it.

## Main statements

* `Moment.notBehind_after` — no call puts an older version into the place of a newer one.
* `Reached.table_is_ledger` — the table is the ledger of every history.
* `Reached.shown?_of_set` — what is shown for a document changes exactly when the set says something
  new of it or drops it.
* `Moment.Tells.version_le` — nothing that a set says is of an older version than what had been
  pushed.
-/

namespace Quill

namespace Publisher

open PublisherEffect (push?)

variable {w : Surroundings} {p q : Publisher} {u x root : Uri} {v : Int} {d : Digest}

/-! ## Versions in the table -/

/-- If the document is in the table, then with no older version. -/
def NotBehind (v : Int) (u : Uri) (p : Publisher) :
    Prop := ∀ l, Dict.get? p.published u = some l → v ≤ l.version

/-- The document is in the table, with no older version. -/
def Stays (v : Int) (u : Uri) (p : Publisher) :
    Prop := ∃ l, Dict.get? p.published u = some l ∧ v ≤ l.version

theorem Stays.notBehind (h : Stays v u p) : NotBehind v u p := by
  obtain ⟨l, found, le⟩ := h
  intro l' found'
  rwa [← Option.some.inj (found.symm.trans found')]

theorem NotBehind.congr (h : NotBehind v u p) (same : q.published = p.published) :
    NotBehind v u q :=
  fun l found => h l (same ▸ found)

theorem NotBehind.erase (h : NotBehind v u p) (x : Uri)
    (same : q.published = Dict.erase p.published x) :
    NotBehind v u q := by
  intro l found
  rw [same] at found
  by_cases isIt : u = x
  · simp [isIt] at found
  · exact h l ((Dict.get?_erase_of_ne _ isIt).symm.trans found)

/-- What is pushed for a document of a set is no older than what was pushed before. -/
theorem keeps_publishEntry_stays (w : Surroundings) (root x : Uri) (e : DiagnosticEntry) :
    Keeps push? (fun p _ => Stays v u p) (publishEntry w root x e) := by
  intro p _ stays
  obtain ⟨-, -, -, -, same⟩ | ⟨newer, same, -⟩ := publishEntry_cases w root x e p <;>
    simp only [Result.Kept, same]
  · exact stays
  · obtain ⟨l, found, le⟩ := stays
    by_cases isIt : u = x
    · subst isIt
      exact ⟨_, Dict.get?_put_self _ _ _, Int.le_trans le (newer l found)⟩
    · exact ⟨l, (Dict.get?_put_of_ne _ _ isIt).trans found, le⟩

theorem keeps_clearDropped_notBehind (w : Surroundings) (root x : Uri) :
    Keeps push? (fun p _ => NotBehind v u p) (clearDropped w root x) := by
  intro p _ h
  obtain ⟨-, same⟩ | ⟨same, -⟩ := clearDropped_cases w root x p <;> simp only [Result.Kept, same]
  · exact h
  · exact h.erase x rfl

/-- A set takes documents off the table only when all of it has been pushed. -/
theorem notBehind_publishSet (stays : Stays v u p) (set : DiagnosticSet) :
    NotBehind v u (p.publishSet w set).publisher := by
  cases alive : p.isDisposed with
  | true =>
    rw [publishSet, if_pos alive]
    exact stays.notBehind
  | false =>
    rw [publishSet_eq alive]
    have pushed : Result.Kept (forEach (publishOwned w set.root) set.entries (p.routed set)) push?
        (fun p _ => Stays v u p) [] := by
      refine Keeps.forEach (fun b _ q qs stays => ?_) stays
      unfold publishOwned
      split
      · refine keeps_publishEntry_stays w set.root b.1 b.2 ?_
        exact stays
      · exact stays
    have off : Result.Kept (forEach (publishOwned w set.root) set.entries (p.routed set)) push?
        (fun p _ => NotBehind v u p) [] := Stays.notBehind pushed
    exact off.andThen (Keeps.forEach fun x _ => keeps_clearDropped_notBehind w set.root x)

theorem NotBehind.of_silent {r : Result} {ps : List Push} (h : NotBehind v u p)
    (silent : r.Silent p) :
    r.Kept push? (fun p _ => NotBehind v u p) ps := h.congr silent.published

/-- A closed document is taken off the table, with all that it had been pushed for. -/
theorem notBehind_forget (h : NotBehind v u p) (w : Surroundings) (x : Uri) :
    NotBehind v u (p.forget w x).publisher := by
  have kept : Result.Kept (p.forget w x) push? (fun p _ => NotBehind v u p) [] := by
    refine Result.Kept.andThen (h.of_silent (silent_cancelTimer x p)) fun q _ h => ?_
    refine Result.Kept.andThen (Result.Kept.andThen (Result.Kept.andThen ?_ ?_) ?_) ?_
    · exact h.erase x rfl
    · refine Keeps.forEach fun y _ q _ h => Result.Kept.andThen (h.erase y rfl) fun q _ h => ?_
      split
      · exact h.of_silent (silent_trigger w y q)
      · exact h
    · exact fun _ _ h => h
    · exact fun _ _ h => h.of_silent (silent_forEach (silent_schedule w) _ _)
  exact kept

/-- No call puts an older version into the place of a newer one. -/
theorem Moment.notBehind_after {m : Moment}
    {l : Published} (found : Dict.get? m.before.published u = some l) :
    NotBehind l.version u m.after := by
  have stays : Stays l.version u m.before := ⟨l, found, Int.le_refl _⟩
  have h := stays.notBehind
  obtain ⟨w, p, call⟩ := m
  cases call with
  | hear e =>
    change NotBehind _ _ (if _ then _ else _ : Result).publisher
    split
    · exact notBehind_forget h w e.uri
    · exact h.congr (silent_trigger w e.uri p).published
  | refresh uris => exact h.congr (silent_forEach (silent_trigger w) uris p).published
  | fire root => exact h.congr (silent_fire w root p).published
  | fireAll => exact h.congr (silent_forEach (silent_fire w) _ p).published
  | ended run root r =>
    rcases r with f | _ | set
    · exact h
    · exact h
    · exact notBehind_publishSet stays set
  | retire run => exact h
  | pin uri => exact h.congr (silent_moveMain w (fun p => { p with main := uri }) p).published
  | refocus uri => exact h.congr (silent_moveMain w (fun p => { p with focus := uri }) p).published
  | dispose => exact h

/-! ## The ledger -/

/-- The call takes the document off the table. -/
def Moment.Removes (m : Moment) (u : Uri) : Prop :=
  Dict.has m.before.published u ∧ Dict.has m.after.published u = false

instance (m : Moment) (u : Uri) : Decidable (m.Removes u) := inferInstanceAs (Decidable (_ ∧ _))

variable {h later earlier : List Moment} {p₀ : Publisher} {l : Published}

/-- A history leads to one publisher. -/
theorem Reached.unique (run : Reached d h p) (run' : Reached d h q) : p = q := by
  cases run with
  | start => cases run'; rfl
  | step => cases run'; rfl

theorem Reached.of_cons {m : Moment} (run : Reached d (m :: h) p) :
    Reached d h m.before ∧ m.surroundings.digest = d := by
  cases run with
  | step before digest => exact ⟨before, digest⟩

/-- As long as a document is not taken off the table, its version there does not go back. -/
theorem Reached.stays (run : Reached d (later ++ earlier) p) (old : Reached d earlier p₀)
    (found : Dict.get? p₀.published u = some l) (on : ∀ m ∈ later, ¬ m.Removes u) :
    Stays l.version u p := by
  induction later generalizing p with
  | nil =>
    obtain rfl := old.unique run
    exact ⟨l, found, Int.le_refl _⟩
  | cons m later ih =>
    cases run with
    | step before _ =>
      obtain ⟨l₁, found₁, le₁⟩ := ih before fun m mem => on m (List.mem_cons_of_mem _ mem)
      obtain ⟨l₂, found₂⟩ : ∃ l₂, Dict.get? m.after.published u = some l₂ := by
        have still := on m List.mem_cons_self
        simp only [Moment.Removes, Dict.has, found₁, Option.isSome_some, true_and,
          Bool.not_eq_false] at still
        exact Option.isSome_iff_exists.1 still
      exact ⟨l₂, found₂, Int.le_trans le₁ (Moment.notBehind_after found₁ l₂ found₂)⟩

structure Ledger (d : Digest) (h : List Moment) (p : Publisher) : Prop where
  /-- What was pushed last for a document in the table has the digest in the table. -/
  entry : ∀ {u l}, Dict.get? p.published u = some l →
    ∃ ds, shown? h u = some ds ∧ d.ofDiagnostics ds = l.hash
  /-- Nothing was pushed for any other document, or it was cleared by the last push. -/
  clear : ∀ {u}, Dict.get? p.published u = none → shown? h u = none ∨ shown? h u = some []
  /-- From one removal of a document to the next, it stays in the table once it is there, and its
  version does not go back. -/
  version : ∀ {later earlier p₀ u l}, h = later ++ earlier → Reached d earlier p₀ →
    Dict.get? p₀.published u = some l → (∀ m ∈ later, ¬ m.Removes u) →
    ∃ l', Dict.get? p.published u = some l' ∧ l.version ≤ l'.version

/-- Whatever is called, the table is the ledger of what has been pushed. -/
theorem Reached.table_is_ledger (run : Reached d h p) : Ledger d h p where
  entry found := by
    obtain ⟨ds, shows, -, hash⟩ := run.mirrors.pushed found
    exact ⟨ds, shows, hash⟩
  clear off := run.mirrors.cleared off
  version eq old found on := by
    subst eq
    exact run.stays old found on

def play : List (Surroundings × Call) → List Moment × Publisher → List Moment × Publisher
  | [], r => r
  | (w, call) :: rest, (h, p) => play rest (⟨w, p, call⟩ :: h, Moment.after ⟨w, p, call⟩)

theorem Reached.play (run : Reached d h p) {calls : List (Surroundings × Call)}
    (digest : ∀ c ∈ calls, c.1.digest = d) :
    Reached d (Publisher.play calls (h, p)).1 (Publisher.play calls (h, p)).2 := by
  induction calls generalizing h p with
  | nil => exact run
  | cons c rest ih =>
    exact ih (.step (m := ⟨c.1, p, c.2⟩) run (digest c List.mem_cons_self)) fun c mem =>
      digest c (List.mem_cons_of_mem _ mem)

/-- An open document has a problem at version 1, the same one at version 3, and none at version 2,
which comes in last. -/
def overtaken : List Moment × Publisher :=
  let surroundings : Surroundings :=
    { versionOf := fun uri => if uri = "/a" then some 3 else none, debounceMs := 10,
      digest := ⟨id⟩ }
  let problem := Diagnostic.ofFinding (.unknownLabel "x") default []
  let comes (version : Int) (ds : List Diagnostic) : Surroundings × Call :=
    (surroundings, .ended 0 "/a" (.ok (some ⟨"/a", [], [("/a", ⟨version, .memory, ds⟩)], ["/a"]⟩)))
  play [comes 1 [problem], comes 3 [problem], comes 2 []] ([], {})

theorem ledger_overtaken :
    Reached ⟨id⟩ overtaken.1 overtaken.2 ∧ Ledger ⟨id⟩ overtaken.1 overtaken.2 ∧
    (Dict.get? overtaken.2.published "/a").map (·.version) = some 3 ∧
    (pushed overtaken.1).length = 1 := by
  have run : Reached ⟨id⟩ overtaken.1 overtaken.2 := Reached.start.play (by simp)
  exact ⟨run, run.table_is_ledger, by decide +kernel, by decide +kernel⟩

end Publisher

/-! ## What a set changes -/

namespace Publisher

open PublisherEffect (push?)

variable {w : Surroundings} {p : Publisher} {u : Uri} {set : DiagnosticSet} {e : DiagnosticEntry}
  {d : Digest} {h : List Moment} {m : Moment}

/-- When a set has been taken in, no document that its root owns is in the table with an older
version. -/
theorem stays_publishSet (willing : ∀ x, w.refuses x = none) (alive : p.isDisposed = false)
    (distinct : (Dict.keys set.entries).Nodup) (entry : Dict.get? set.entries u = some e)
    (owns : (p.publishSet w set).publisher.ownerOf? w u = some set.root) :
    Stays e.version u (p.publishSet w set).publisher := by
  rw [(alike_publishSet alive set).ownerOf?] at owns
  obtain ⟨q, qs, beside, kept⟩ := kept_entries willing distinct entry set.root (p.routed set) []
  have noted : Stays e.version u (publishOwned w set.root (u, e) q).publisher := by
    rw [publishOwned, if_pos ((beside.alike.ownerOf? w u).trans owns)]
    obtain ⟨l, found, older, -, same⟩ | ⟨-, same, -⟩ :=
      publishEntry_cases w set.root u e q <;> rw [same]
    · exact ⟨l, found, Int.le_of_lt older⟩
    · exact ⟨_, Dict.get?_put_self _ _ _, Int.le_refl _⟩
  have others :
      u ∈ ((Dict.get? p.rootDocuments set.root).getD []).filter (fun u => !Dict.has set.entries u) →
      (Dict.get? (publishOwned w set.root (u, e) q).publisher.published u).any
        (·.root == set.root) = false :=
    fun mem => by simp [Dict.has, entry] at mem
  have left := (kept.andThen (keeps_dropped others w _)).published
  rw [publishSet_eq alive]
  exact noted.imp fun l found => ⟨left.trans found.1, found.2⟩

/-! ## What changes -/

/-- For a document that its root owns, the set has other diagnostics than what is shown, and of no
older version than what was pushed. -/
structure Moment.Tells (m : Moment) (h : List Moment) (set : DiagnosticSet) (u : Uri)
    (e : DiagnosticEntry) : Prop where
  entry : Dict.get? set.entries u = some e
  owns : m.after.ownerOf? m.surroundings u = some set.root
  current : ∀ l, Dict.get? m.before.published u = some l → l.version ≤ e.version
  other : shown? h u ≠ some e.diagnostics

/-- The set is without a document that the root listed before, and that was pushed for it last. -/
structure Moment.Drops (m : Moment) (h : List Moment) (set : DiagnosticSet) (u : Uri) : Prop where
  gone : Dict.get? set.entries u = none
  listed : u ∈ (Dict.get? m.before.rootDocuments set.root).getD []
  own : (Dict.get? m.before.published u).any (·.root == set.root)
  other : shown? h u ≠ some []

theorem shown?_cons (takes : m.set? = some set) (willing : ∀ x, m.surroundings.refuses x = none)
    (distinct : (Dict.keys set.entries).Nodup) (h : List Moment) (u : Uri) :
    shown? (m :: h) u = (pushOf? m.surroundings set m.before u).or (shown? h u) := by
  obtain ⟨⟨run, root, call⟩, alive⟩ := Moment.set?_eq_some_iff.1 takes
  rw [shown?, pushed, List.flatMap_cons, Dict.get?_append, Moment.pushes, Moment.result,
    call, Call.apply, get?_pushes_publishSet willing alive distinct]
  rfl

theorem Moment.ownerOf?_after (takes : m.set? = some set) (u : Uri) :
    m.after.ownerOf? m.surroundings u = (m.before.routed set).ownerOf? m.surroundings u := by
  obtain ⟨⟨run, root, call⟩, alive⟩ := Moment.set?_eq_some_iff.1 takes
  rw [Moment.after, Moment.result, call]
  exact (alike_publishSet alive set).ownerOf? _ _

/-- What a set pushes is something that it says, or comes of a document that it drops, if anything
else was shown. -/
theorem tells_or_drops {ds : List Diagnostic} (takes : m.set? = some set)
    (pushes : pushOf? m.surroundings set m.before u = some ds) (other : shown? h u ≠ some ds) :
    (∃ e, m.Tells h set u e) ∨ m.Drops h set u := by
  unfold pushOf? at pushes
  split at pushes
  next e entry =>
    split at pushes
    next new =>
      obtain rfl := Option.some.inj pushes
      refine .inl ⟨e, entry, (Moment.ownerOf?_after takes u).trans new.1, fun l found => ?_, other⟩
      simp [isNew, found] at new
      exact new.2.1
    next => simp at pushes
  next gone =>
    split at pushes
    next drops =>
      obtain rfl := Option.some.inj pushes
      exact .inr ⟨gone, List.contains_iff_mem.1 drops.1, drops.2, other⟩
    next => simp at pushes

theorem Moment.Drops.pushOf?_eq (drops : m.Drops h set u) :
    pushOf? m.surroundings set m.before u = some [] := by
  simp [pushOf?, drops.gone, drops.listed, drops.own]

/-- What a set says is pushed: digests tell it apart from what is shown. -/
theorem Moment.Tells.pushOf?_eq (tells : m.Tells h set u e) (takes : m.set? = some set)
    (run : Reached d h m.before)
    (digest : m.surroundings.digest = d) (apart : TellsApart d (m :: h)) :
    pushOf? m.surroundings set m.before u = some e.diagnostics := by
  have new : isNew m.surroundings e (Dict.get? m.before.published u) := by
    cases found : Dict.get? m.before.published u with
    | none => rfl
    | some l =>
      obtain ⟨ds, shows, known, hash⟩ := run.mirrors.pushed found
      have differs : l.hash ≠ d.ofDiagnostics e.diagnostics := by
        intro same
        obtain ⟨set', mem', b, hb, rfl⟩ := known.cons m
        obtain ⟨front, behind, eq, -⟩ := Dict.get?_eq_some_split tells.entry
        have mem : set ∈ sets (m :: h) := List.mem_filterMap.2 ⟨m, List.mem_cons_self, takes⟩
        have equal := apart set' mem' b hb set mem (u, e) (by simp [eq]) (hash.trans same)
        exact tells.other (shows.trans (congrArg some equal))
      simp [isNew, digest, differs, tells.current l found]
  have owns := (Moment.ownerOf?_after takes u).symm.trans tells.owns
  simp [pushOf?, tells.entry, owns, new]

/-- A set changes what is shown for a document exactly when it says something else of it or drops
it, and then that is shown. -/
theorem Reached.shown?_of_set (run : Reached d (m :: h) p) (takes : m.set? = some set)
    (apart : TellsApart d (m :: h)) (willing : ∀ x, m.surroundings.refuses x = none)
    (distinct : (Dict.keys set.entries).Nodup) (u : Uri) :
    (∃ e, m.Tells h set u e ∧ shown? (m :: h) u = some e.diagnostics) ∨
      m.Drops h set u ∧ shown? (m :: h) u = some [] ∨
      (∀ e, ¬ m.Tells h set u e) ∧ ¬ m.Drops h set u ∧ shown? (m :: h) u = shown? h u := by
  obtain ⟨before, digest⟩ := run.of_cons
  rw [shown?_cons takes willing distinct]
  by_cases tells : ∃ e, m.Tells h set u e
  · obtain ⟨e, tells⟩ := tells
    exact .inl ⟨e, tells, by rw [tells.pushOf?_eq takes before digest apart, Option.some_or]⟩
  by_cases drops : m.Drops h set u
  · exact .inr (.inl ⟨drops, by rw [drops.pushOf?_eq, Option.some_or]⟩)
  refine .inr (.inr ⟨not_exists.1 tells, drops, ?_⟩)
  cases pushes : pushOf? m.surroundings set m.before u with
  | none => exact Option.none_or
  | some ds =>
    have same : shown? h u = some ds :=
      Decidable.byContradiction fun other => (tells_or_drops takes pushes other).elim tells drops
    rw [same, Option.some_or]

/-- What a set says is of no older version than what had been pushed before, for any root that owned
the document then, unless the document was taken off the table since. -/
theorem Moment.Tells.version_le {later earlier : List Moment} {m₀ : Moment} {set₀ : DiagnosticSet}
    {e₀ : DiagnosticEntry} (tells : m.Tells (later ++ m₀ :: earlier) set u e)
    (run : Reached d (later ++ m₀ :: earlier) m.before) (takes₀ : m₀.set? = some set₀)
    (willing : ∀ x, m₀.surroundings.refuses x = none) (distinct : (Dict.keys set₀.entries).Nodup)
    (entry₀ : Dict.get? set₀.entries u = some e₀)
    (owns₀ : m₀.after.ownerOf? m₀.surroundings u = some set₀.root)
    (on : ∀ m' ∈ later, ¬ m'.Removes u) : e₀.version ≤ e.version := by
  obtain ⟨⟨n, root, call⟩, alive⟩ := Moment.set?_eq_some_iff.1 takes₀
  have result : m₀.result = m₀.before.publishSet m₀.surroundings set₀ := by
    rw [Moment.result, call]; rfl
  obtain ⟨before, digest⟩ := run.of_append
  have noted : Stays e₀.version u m₀.after := by
    rw [Moment.after, result] at owns₀ ⊢
    exact stays_publishSet willing alive distinct entry₀ owns₀
  obtain ⟨l, found, le⟩ := noted
  obtain ⟨l', found', le'⟩ := run.stays (.step before digest) found on
  exact Int.le_trans le (Int.le_trans le' (tells.current l' found'))

end Publisher

end Quill
