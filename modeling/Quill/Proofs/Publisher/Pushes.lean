import Quill.Proofs.Publisher.Sets

/-!
# What is shown is what was found

The publisher keeps for each document what it pushed last, to leave out a push that would change
nothing. That table mirrors what is shown, whatever happens and in whatever order. So what a root
found for a document it owns is shown once its set is taken in, until something else is pushed for
the document.

## Main definitions

* `Mirrors` — the table of what was pushed mirrors what is shown.

## Main statements

* `Reached.mirrors` — the table always does.
* `Reached.shown?_eq` — what is shown for a document in the last set of its owner.
-/

namespace Quill

namespace Publisher

open PublisherEffect (push?)

variable {w : Surroundings} {p q : Publisher} {ps : List Push} {u root : Uri} {β : Type}

/-! ## The table mirrors what is shown -/

/-- For each document in the table, what is shown has the digest in the table; nothing is shown for
any other document. All that is shown is known. -/
structure Mirrors (d : Digest) (known : List Diagnostic → Prop) (p : Publisher) (ps : List Push) :
    Prop where
  pushed : ∀ {u l}, Dict.get? p.published u = some l →
    ∃ ds, Dict.get? ps u = some ds ∧ known ds ∧ d.ofDiagnostics ds = l.hash
  cleared : ∀ {u}, Dict.get? p.published u = none →
    Dict.get? ps u = none ∨ Dict.get? ps u = some []

variable {d : Digest} {known : List Diagnostic → Prop} {ds : List Diagnostic} {v : Int}

namespace Mirrors

/-- The table decides. -/
theorem congr (h : Mirrors d known p ps) (same : q.published = p.published) :
    Mirrors d known q ps :=
  ⟨fun found => h.pushed (same ▸ found), fun none => h.cleared (same ▸ none)⟩

theorem kept {r : Result} (h : Mirrors d known p ps) (pushes : r.pushes = [])
    (published : r.publisher.published = p.published) : r.Kept push? (Mirrors d known) ps := by
  simpa [kept_push_iff, pushes] using h.congr published

theorem of_silent {r : Result} (h : Mirrors d known p ps) (silent : r.Silent p) :
    r.Kept push? (Mirrors d known) ps := h.kept silent.pushes silent.published

theorem mono {known' : List Diagnostic → Prop} (h : Mirrors d known p ps)
    (more : ∀ ds, known ds → known' ds) : Mirrors d known' p ps := by
  refine ⟨fun found => ?_, h.cleared⟩
  obtain ⟨ds, shows, knows, hash⟩ := h.pushed found
  exact ⟨ds, shows, more ds knows, hash⟩

theorem clear (h : Mirrors d known p ps) (u : Uri) :
    Mirrors d known { p with published := Dict.erase p.published u } ((u, []) :: ps) := by
  refine ⟨fun {x l} found => ?_, fun {x} none => ?_⟩
  · by_cases eq : x = u
    · simp [eq] at found
    · simp only [Dict.get?_erase_of_ne _ eq] at found
      simpa [get?_cons, Ne.symm eq] using h.pushed found
  · by_cases eq : x = u
    · exact .inr (by simp [get?_cons, eq])
    · simp only [Dict.get?_erase_of_ne _ eq] at none
      simpa [get?_cons, Ne.symm eq] using h.cleared none

theorem note {ps' : List Push} (h : Mirrors d known p ps) (u : Uri)
    (shows : ∃ ds', Dict.get? ps' u = some ds' ∧ known ds' ∧ d.ofDiagnostics ds' =
      d.ofDiagnostics ds)
    (others : ∀ x, x ≠ u → Dict.get? ps' x = Dict.get? ps x) :
    Mirrors d known { p with published := Dict.put p.published u ⟨v, d.ofDiagnostics ds, root⟩ }
      ps' := by
  refine ⟨fun {x l} found => ?_, fun {x} none => ?_⟩
  · by_cases eq : x = u
    · subst eq
      obtain rfl : _ = l := by simpa using found
      exact shows
    · simp only [Dict.get?_put_of_ne _ _ eq] at found
      rw [others x eq]
      exact h.pushed found
  · by_cases eq : x = u
    · simp [eq] at none
    · simp only [Dict.get?_put_of_ne _ _ eq] at none
      rw [others x eq]
      exact h.cleared none

end Mirrors

theorem keeps_publishEntry (digest : w.digest = d)
    {e : DiagnosticEntry} (knows : known e.diagnostics)
    (root u : Uri) : Keeps push? (Mirrors d known) (publishEntry w root u e) := by
  intro p ps h
  subst digest
  obtain ⟨-, -, -, silent, -⟩ | ⟨-, publisher, same | ⟨pushes, -⟩⟩ :=
    publishEntry_cases w root u e p
  · exact h.of_silent silent
  · obtain ⟨l, found, eq, pushes, -⟩ := same
    obtain ⟨ds, shows, knows, hash⟩ := h.pushed found
    simp only [kept_push_iff, publisher, pushes]
    exact h.note u ⟨ds, shows, knows, hash.trans eq⟩ fun _ _ => rfl
  · simp only [kept_push_iff, publisher, pushes]
    refine h.note u ⟨e.diagnostics, by simp [get?_cons], knows, rfl⟩ fun x ne => ?_
    simp [get?_cons, Ne.symm ne]

theorem keeps_clearDropped (w : Surroundings) (root u : Uri) :
    Keeps push? (Mirrors d known) (clearDropped w root u) := by
  intro p ps h
  obtain ⟨silent, -⟩ | ⟨publisher, pushes, -⟩ := clearDropped_cases w root u p
  · exact h.of_silent silent
  · simp only [kept_push_iff, publisher, pushes]
    exact h.clear u

theorem keeps_handBack (w : Surroundings) (u : Uri) :
    Keeps push? (Mirrors d known) (handBack w u) := by
  intro p ps h
  refine Result.Kept.andThen (h.clear u) fun q qs h => ?_
  split
  · exact h.of_silent (silent_trigger w u q)
  · exact h

theorem keeps_forget (w : Surroundings) (u : Uri) : Keeps push? (Mirrors d known) (forget w u) := by
  intro p ps h
  refine Result.Kept.andThen (h.of_silent (silent_cancelTimer u p)) fun q qs h => ?_
  refine Result.Kept.andThen (Result.Kept.andThen (Result.Kept.andThen ?_ ?_) ?_) ?_
  · exact (h.clear u).congr rfl
  · exact Keeps.forEach fun x _ => keeps_handBack w x
  · exact fun _ _ h => h
  · exact fun _ _ h => h.of_silent (silent_forEach (silent_schedule w) _ _)

theorem keeps_publishSet (digest : w.digest = d) {set : DiagnosticSet}
    (knows : ∀ b ∈ set.entries, known b.2.diagnostics) :
    Keeps push? (Mirrors d known) (publishSet w set) := by
  intro p ps h
  unfold publishSet
  split
  · exact h
  · refine Result.Kept.andThen (Keeps.forEach ?_ (h.congr rfl))
      (Keeps.forEach fun x _ => keeps_clearDropped w set.root x)
    intro b hb q qs h
    simp only
    split
    · exact keeps_publishEntry digest (knows b hb) set.root b.1 h
    · exact h

def Found (h : List Moment) (ds : List Diagnostic) : Prop :=
  ∃ set ∈ sets h, ∃ b ∈ set.entries, b.2.diagnostics = ds

theorem Found.cons {h : List Moment} (f : Found h ds) (m : Moment) : Found (m :: h) ds := by
  obtain ⟨set, mem, rest⟩ := f
  refine ⟨set, ?_, rest⟩
  unfold sets
  rw [List.filterMap_cons]
  split
  · exact mem
  · exact List.mem_cons_of_mem _ mem

/-- Whatever is called, the table mirrors what is shown. -/
theorem Mirrors.call {m : Moment} {h : List Moment} (mirrors : Mirrors d (Found h) m.before ps)
    (digest : m.surroundings.digest = d) : m.result.Kept push? (Mirrors d (Found (m :: h))) ps := by
  have mirrors : Mirrors d (Found (m :: h)) m.before ps := mirrors.mono fun _ f => f.cons m
  obtain ⟨w, p, call⟩ := m
  cases call with
  | hear e =>
    change Result.Kept (if _ then _ else _) _ _ _
    split
    · exact keeps_forget w e.uri mirrors
    · exact mirrors.of_silent (silent_trigger w e.uri p)
  | refresh uris => exact mirrors.of_silent (silent_forEach (silent_trigger w) uris p)
  | fire root => exact mirrors.of_silent (silent_fire w root p)
  | fireAll => exact mirrors.of_silent (silent_forEach (silent_fire w) _ p)
  | ended run root r =>
    cases r with
    | error f => exact mirrors
    | ok set =>
      cases set with
      | none => exact mirrors
      | some set =>
        change Result.Kept (p.publishSet w set) _ _ _
        by_cases disposed : p.isDisposed
        · simpa [publishSet, disposed, Result.Kept] using mirrors
        · refine keeps_publishSet digest (fun b hb => ⟨set, ?_, b, hb, rfl⟩) mirrors
          exact List.mem_filterMap.2 ⟨_, List.mem_cons_self, by simp [Moment.set?, disposed]⟩
  | retire run => exact mirrors.congr rfl
  | pin uri =>
    refine Result.Kept.andThen mirrors fun q qs h => ?_
    have silent := silent_moveMain w (fun p => { p with main := uri }) q
    exact h.kept silent.pushes silent.published
  | refocus uri =>
    refine Result.Kept.andThen mirrors fun q qs h => ?_
    have silent := silent_moveMain w (fun p => { p with focus := uri }) q
    exact h.kept silent.pushes silent.published
  | dispose =>
    refine mirrors.kept ?_ rfl
    simp [Moment.result, Call.apply, dispose, Result.pushes, push?]

/-- The table of what was pushed always mirrors what is shown. -/
theorem Reached.mirrors {h : List Moment} (run : Reached d h p) :
    Mirrors d (Found h) p (pushed h) := by
  induction run with
  | start => exact ⟨fun found => by simp at found, fun _ => .inl rfl⟩
  | step before digest ih =>
    have next := ih.call digest
    simpa [kept_push_iff, pushed, Moment.after, Moment.pushes] using next

/-! ## What an owner found is shown -/

/-- What a set says of a document that its root owns is shown, unless a newer version of the
document was shown before. -/
theorem publishSet_shows (willing : ∀ x, w.refuses x = none) (alive : p.isDisposed = false)
    (digest : w.digest = d) (mirrors : Mirrors d known p ps) {set : DiagnosticSet}
    (knows : ∀ b ∈ set.entries, known b.2.diagnostics) (distinct : (Dict.keys set.entries).Nodup)
    {e : DiagnosticEntry} (entry : Dict.get? set.entries u = some e)
    (owns : (p.publishSet w set).publisher.ownerOf? w u = some set.root)
    (newer : ∀ l, Dict.get? p.published u = some l → l.version ≤ e.version) :
    ∃ ds, Dict.get? ((p.publishSet w set).pushes.reverse ++ ps) u = some ds ∧ known ds ∧
      d.ofDiagnostics ds = d.ofDiagnostics e.diagnostics := by
  rw [(alike_publishSet alive set).ownerOf?] at owns
  rw [Dict.get?_append, get?_pushes_publishSet willing alive distinct, pushOf?, entry]
  by_cases new : isNew w e (Dict.get? p.published u)
  · obtain ⟨before, behind, eq, -⟩ := Dict.get?_eq_some_split entry
    exact ⟨e.diagnostics, by simp [owns, new], knows (u, e) (by simp [eq]), rfl⟩
  · -- nothing is pushed, since the same was pushed before
    obtain ⟨l, found, old⟩ : ∃ l, Dict.get? p.published u = some l ∧
        (l.version ≤ e.version → l.hash = w.digest.ofDiagnostics e.diagnostics) := by
      simpa [isNew, Option.all_eq_true] using new
    obtain ⟨ds, shows, known, hash⟩ := mirrors.pushed found
    exact ⟨ds, by simp [new, shows], known, digest ▸ hash.trans (old (newer l found))⟩

def TellsApart (d : Digest) (h : List Moment) : Prop :=
  ∀ s ∈ sets h, ∀ b ∈ s.entries, ∀ s' ∈ sets h, ∀ b' ∈ s'.entries,
    d.ofDiagnostics b.2.diagnostics = d.ofDiagnostics b'.2.diagnostics →
      b.2.diagnostics = b'.2.diagnostics

instance (d : Digest) (h : List Moment) : Decidable (TellsApart d h) :=
  inferInstanceAs (Decidable (∀ s ∈ sets h, ∀ b ∈ s.entries, ∀ s' ∈ sets h, ∀ b' ∈ s'.entries,
    _ → _))

/-- When the set of the root was taken in, another document owned this one, or a newer version of it
had been shown. -/
def Moment.PassesOver (m : Moment) (root u : Uri) (e : DiagnosticEntry) : Prop :=
  m.after.ownerOf? m.surroundings u ≠ some root ∨
    ∃ l, Dict.get? m.before.published u = some l ∧ e.version < l.version

/-- Something is pushed for the document. -/
def Moment.PushesFor (m : Moment) (u : Uri) : Prop := ∃ ds, Dict.get? m.pushes.reverse u = some ds

theorem get?_pushed_eq_none {h : List Moment} (quiet : ∀ m ∈ h, ¬ m.PushesFor u) :
    Dict.get? (pushed h) u = none := by
  induction h with
  | nil => rfl
  | cons m rest ih =>
    have now : Dict.get? m.pushes.reverse u = none := by
      refine Option.eq_none_iff_forall_ne_some.2 fun ds found => ?_
      exact quiet m List.mem_cons_self ⟨ds, found⟩
    rw [pushed, List.flatMap_cons, Dict.get?_append, now, Option.none_or]
    exact ih fun m' mem => quiet m' (List.mem_cons_of_mem _ mem)

/-- The document is taken from a root: it is closed, or a root is that had pushed for it, or the set
of another root is pushed for it, or clears it. -/
inductive Moment.Takes (m : Moment) (root u : Uri) : Prop where
  | closed (h : m.closes u)
  | handed {l : Published} (pushed : (u, l) ∈ m.before.published) (h : m.closes l.root)
  | owned {set : DiagnosticSet} (takes : m.set? = some set) (other : set.root ≠ root)
    (owns : m.after.ownerOf? m.surroundings u = some set.root)
  | dropped {set : DiagnosticSet} {l : Published} (takes : m.set? = some set)
    (other : set.root ≠ root) (pushed : Dict.get? m.before.published u = some l)
    (own : l.root = set.root) (gone : Dict.has set.entries u = false)

/-- A set is pushed for the documents that its root owns, and clears those that drop out. -/
theorem publishSet_pushes {set : DiagnosticSet} (alive : p.isDisposed = false)
    (pushes : ∃ ds, Dict.get? (p.publishSet w set).pushes.reverse u = some ds) :
    (p.publishSet w set).publisher.ownerOf? w u = some set.root ∨
      ∃ l, Dict.get? p.published u = some l ∧ l.root = set.root ∧
      Dict.has set.entries u = false := by
  refine Decidable.byContradiction fun neither => ?_
  obtain ⟨owner, stays⟩ := not_or.1 neither
  rw [(alike_publishSet alive set).ownerOf?] at owner
  have beside : Result.Kept (p.publishSet w set) push? (Beside u (p.routed set) []) [] := by
    rw [publishSet_eq alive]
    refine Result.Kept.andThen (Keeps.forEach (fun b _ => ?_) (.refl _ _ _))
      (Keeps.forEach fun x hx => ?_)
    · by_cases isIt : b.1 = u
      · intro q qs h
        rw [publishOwned, if_neg (by rw [isIt, h.alike.ownerOf?]; exact owner)]
        exact h
      · exact keeps_publishOwned_of_ne isIt w set.root
    · by_cases isIt : x = u
      · subst isIt
        intro q qs h
        have gone : Dict.has set.entries x = false := by simpa using (List.mem_filter.1 hx).2
        rw [clearDropped, if_neg fun own => ?_]
        · exact h
        · obtain ⟨l, found, own⟩ := (Option.any_eq_true _ _).1 own
          exact stays ⟨l, h.published.symm.trans found, eq_of_beq own, gone⟩
      · exact keeps_clearDropped_of_ne isIt w set.root
  obtain ⟨ds, found⟩ := pushes
  have shown := beside.shown
  rw [List.append_nil] at shown
  exact absurd (shown.symm.trans found) (by simp)

/-- When a document is closed, it is cleared with all that it had been pushed for. -/
theorem forget_pushes {x : Uri} (ne : x ≠ u) (others : ∀ l, (u, l) ∈ p.published → l.root ≠ x) :
    Dict.get? (p.forget w x).pushes.reverse u = none := by
  have quiet {r : Result} {ps : List Push} (silent : r.pushes = []) (h : Dict.get? ps u = none) :
      r.Kept push? (fun _ ps => Dict.get? ps u = none) ps := by
    simpa [kept_push_iff, silent] using h
  have kept : Result.Kept (p.forget w x) push? (fun _ ps => Dict.get? ps u = none) [] := by
    have stopped := silent_cancelTimer x p
    refine Result.Kept.andThen_of_refused_eq_none (I := fun q ps => Dict.get? ps u = none ∧
      q.published = p.published) ?_ stopped.refused fun q ps h => ?_
    · simp [kept_push_iff, stopped.pushes, stopped.published]
    · obtain ⟨h, same⟩ := h
      refine Result.Kept.andThen (Result.Kept.andThen (Result.Kept.andThen ?_ ?_) ?_) ?_
      · simpa [Result.Kept, send, push?, get?_cons, ne] using h
      · refine Keeps.forEach fun y hy q ps h => ?_
        have away : y ≠ u := by
          rintro rfl
          obtain ⟨⟨y, l⟩, mem, rfl⟩ := List.mem_map.1 hy
          obtain ⟨mem, own⟩ := List.mem_filter.1 mem
          exact others l (same ▸ (List.mem_filter.1 mem).1) (eq_of_beq own)
        refine Result.Kept.andThen ?_ fun q ps h => ?_
        · simpa [Result.Kept, send, push?, get?_cons, away] using h
        · split
          · exact quiet (silent_trigger w y q).pushes h
          · exact h
      · exact fun _ _ h => h
      · exact fun _ _ h => quiet (silent_forEach (silent_schedule w) _ _).pushes h
  simpa [kept_push_iff] using kept

/-- Unless its root has a new set, nothing is pushed for a document that is not taken from it. -/
theorem Moment.PushesFor.takes {m : Moment} (h : m.PushesFor u)
    (others : ∀ set, m.set? = some set → set.root ≠ root) : m.Takes root u := by
  have loud : m.pushes ≠ [] := by
    rintro none
    obtain ⟨ds, found⟩ := h
    simp [none] at found
  obtain ⟨w, p, call⟩ := m
  cases call with
  | hear e =>
    by_cases isClose : e.kind = .close
    · have closes (x : Uri) (isIt : e.uri = x) : Moment.closes ⟨w, p, .hear e⟩ x := by
        simp [Moment.closes, isClose, isIt]
      by_cases isIt : e.uri = u
      · exact .closed (closes u isIt)
      by_cases owned : ∃ l, (u, l) ∈ p.published ∧ l.root = e.uri
      · obtain ⟨l, mem, own⟩ := owned
        exact .handed mem (closes _ own.symm)
      · obtain ⟨ds, found⟩ := h
        have none := forget_pushes (w := w) isIt fun l mem own => owned ⟨l, mem, own⟩
        simp only [Moment.pushes, Moment.result, Call.apply, isClose, if_true, none] at found
        exact absurd found (by simp)
    · exact absurd (by simp [Moment.pushes, Moment.result, Call.apply, isClose,
        (silent_trigger w e.uri p).pushes]) loud
  | refresh uris => exact absurd (silent_forEach (silent_trigger w) uris p).pushes loud
  | fire x => exact absurd (silent_fire w x p).pushes loud
  | fireAll => exact absurd (silent_forEach (silent_fire w) _ p).pushes loud
  | ended run x r =>
    rcases r with f | _ | set
    · exact absurd rfl loud
    · exact absurd rfl loud
    · cases alive : p.isDisposed with
      | true => exact absurd (by simp [Moment.pushes, Moment.result, Call.apply, publishSet, alive,
          Result.pushes]) loud
      | false =>
        have takes : Moment.set? ⟨w, p, .ended run x (.ok (some set))⟩ = some set := by
          simp [Moment.set?, alive]
        obtain owns | ⟨l, found, own, gone⟩ := publishSet_pushes alive h
        · exact .owned takes (others set takes) owns
        · exact .dropped takes (others set takes) found own gone
  | retire run => exact absurd rfl loud
  | pin uri =>
    exact absurd (silent_moveMain w (fun p => { p with main := uri }) p).pushes loud
  | refocus uri =>
    exact absurd (silent_moveMain w (fun p => { p with focus := uri }) p).pushes loud
  | dispose => exact absurd (by simp [Moment.pushes, Moment.result, Call.apply, dispose,
    Result.pushes, push?]) loud

/-- What the last set of a root says of a document is shown, unless the document was passed over
then, or has been taken from the root since. -/
theorem Reached.shown?_eq {h later : List Moment} {m : Moment} {set : DiagnosticSet}
    {e : DiagnosticEntry} (run : Reached d h p) (apart : TellsApart d h)
    (willing : ∀ m ∈ h, ∀ x, m.surroundings.refuses x = none)
    (distinct : ∀ set ∈ sets h, (Dict.keys set.entries).Nodup)
    (last : lastSet? root h = some (later, m, set)) (entry : Dict.get? set.entries u = some e) :
    shown? h u = some e.diagnostics ∨ m.PassesOver root u e ∨ ∃ m' ∈ later, m'.Takes root u := by
  obtain ⟨⟨earlier, rfl⟩, takes, rfl, others⟩ := lastSet?_eq_some last
  by_cases passed : m.PassesOver set.root u e
  · exact .inr (.inl passed)
  by_cases since : ∃ m' ∈ later, m'.PushesFor u
  · obtain ⟨m', mem, pushes⟩ := since
    exact .inr (.inr ⟨m', mem, pushes.takes (others m' mem).2⟩)
  left
  have mem : set ∈ sets (later ++ m :: earlier) := List.mem_filterMap.2 ⟨m, by simp, takes⟩
  obtain ⟨before, digest⟩ := run.of_append
  obtain ⟨⟨n, asked, call⟩, alive⟩ := Moment.set?_eq_some_iff.1 takes
  have result : m.result = m.before.publishSet m.surroundings set := by
    rw [Moment.result, call]; rfl
  simp only [Moment.PassesOver, Moment.after, result, not_or, not_exists, not_and,
    Decidable.not_not, Int.not_lt] at passed
  have mirrors : Mirrors d (Found (later ++ m :: earlier)) m.before (pushed earlier) := by
    refine before.mirrors.mono fun ds found => ?_
    obtain ⟨set', mem', rest⟩ := found
    exact ⟨set', List.mem_filterMap.2
      ((List.mem_filterMap.1 mem').imp fun _ h => ⟨by simp [h.1], h.2⟩), rest⟩
  obtain ⟨ds, shows, ⟨set', mem', b, hb, rfl⟩, same⟩ := publishSet_shows
    (willing m (by simp)) alive digest mirrors (fun b hb => ⟨set, mem, b, hb, rfl⟩)
    (distinct set mem) entry passed.1 passed.2
  obtain ⟨front, behind, eq, -⟩ := Dict.get?_eq_some_split entry
  have equal : b.2.diagnostics = e.diagnostics :=
    apart set' mem' b hb set mem (u, e) (by simp [eq]) same
  have quiet : Dict.get? (pushed later) u = none :=
    get?_pushed_eq_none fun m' mem pushes => since ⟨m', mem, pushes⟩
  have split : pushed (later ++ m :: earlier) =
      pushed later ++ (m.pushes.reverse ++ pushed earlier) := by simp [pushed]
  rw [shown?, split, Dict.get?_append, quiet, Option.none_or, Moment.pushes, result, shows, equal]

end Publisher

end Quill
