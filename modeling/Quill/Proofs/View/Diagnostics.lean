import Quill.Proofs.Publisher.Ledger
import Quill.Proofs.Run.Publications

/-!
# What the client is shown

The diagnostics that were given out last for a document are those of the last set of its owner, if
the owner of the document was the same when the set was taken in, no newer version had been shown
before, and the document has not been taken from the owner since. A document that is taken from a
root need not be shown again by whoever owns it then.

Two runs of one root may be under way at once, and the one that was started first may come back
last. Its set is then judged document by document, by the versions that were read. A set never says
anything of an older version than what had been pushed. But configurations and files change without
any version, so what it says of the same version may be out of date, and what its root lists and
depends on is replaced in any case.

## Main definitions

* `Session.shown?` — what was given out last for a document.
* `Session.isAtRest` — no timer of the publisher runs, and nothing is left to do.
* `Publisher.Moment.run?` — the number of the run that comes back; runs are numbered as they are
  started.

## Main statements

* `Run.shown_eq_found` — what the last set of a root says of a document is shown.
* `Run.changed_by_set` — what a set changes that comes in, whatever came in before.
-/

namespace Quill

def Session.shown? (s : Session) (uri : Uri) : Option (List Diagnostic) :=
  Dict.get? (s.agenda.given.filterMap EngineOutput.pushed?) uri

/-- No timer of the publisher runs, no task is queued or running, and nothing else is left to do. -/
def Session.isAtRest (s : Session) : Bool :=
  s.agenda.actions.isEmpty && s.agenda.ready.isEmpty && s.agenda.soon.isEmpty &&
    s.state.publisher.timers.isEmpty && s.state.scheduler.isIdle

def Publisher.Moment.breaks (m : Publisher.Moment) : Bool :=
  match m.call with
  | .ended _ _ (.error _) | .dispose => true
  | _ => false

namespace Run

open Publisher (lastSet?)

variable {host : Host} {config : EngineConfig} {h : History} {s : Session} {d r : Uri}
  {later : List Publisher.Moment} {m : Publisher.Moment} {set : DiagnosticSet} {e : DiagnosticEntry}

/-- Between two things that happen, what the last set of a root says of a document is what was given
out last for it, unless the document was passed over when the set was taken in, or has been taken
from the root since. -/
theorem shown_eq_found (run : Run host config h s) (idle : s.agenda.actions = [])
    (willing : ∀ x, host.refuses x = none) (apart : Publisher.TellsApart host.digest h.publications)
    (distinct : ∀ set ∈ Publisher.sets h.publications, (Dict.keys set.entries).Nodup)
    (last : lastSet? r h.publications = some (later, m, set))
    (entry : Dict.get? set.entries d = some e) :
    s.shown? d = some e.diagnostics ∨ m.PassesOver r d e ∨ ∃ m' ∈ later, m'.Takes r d := by
  obtain ⟨reached, pushes, -, refuses⟩ := run.publications
  have given : s.shown? d = Publisher.shown? h.publications d := by
    rw [Publisher.shown?, ← pushes, Session.shown?, Session.pushes, idle]
    rfl
  rw [given]
  refine reached.shown?_eq apart (fun m mem x => ?_) distinct last entry
  rw [refuses m mem]
  exact willing x

/-- Two roots include a file that has a problem. -/
def including : List Happening :=
  [.operation (.write "/b" (some (.ok "@x"))), .operation (.open "/a" "#include \"b\"" 1 none)] ++
    works 20 ++ .operation (.open "/m" "#include \"b\"" 1 none) :: works 20 ++
    .timer 200 :: works 150 ++ .timer 200 :: works 150

/-- The root that owns the file drops it. -/
def dropping : List Happening :=
  including ++ .operation (.edit "/a" [.full "text"] 2) :: works 20 ++ .timer 600 :: works 150

/-- What the first root found is shown, and after it has dropped the file, what the other one found
is not. -/
theorem shown_including_dropping :
    ((∃ p, lastSet? "/a" (sample including).1.publications = some p ∧
        (Dict.get? p.2.2.entries "/b").map (·.diagnostics.length) = some 1) ∧
      (sample including).2.agenda.actions.isEmpty ∧
      Publisher.TellsApart ⟨id⟩ (sample including).1.publications ∧
      ∀ set ∈ Publisher.sets (sample including).1.publications, (Dict.keys set.entries).Nodup) ∧
    (∃ p, lastSet? "/m" (sample dropping).1.publications = some p ∧
        (Dict.get? p.2.2.entries "/b").map (·.diagnostics.length) = some 1) ∧
      (sample dropping).2.shown? "/b" = some [] ∧ (sample dropping).2.isAtRest ∧
      (∀ m ∈ (sample dropping).1.publications, m.breaks = false) ∧
      Publisher.TellsApart ⟨id⟩ (sample dropping).1.publications ∧
      (∀ set ∈ Publisher.sets (sample dropping).1.publications, (Dict.keys set.entries).Nodup) ∧
      (sample dropping).2.state.publisher.ownerOf? (sample dropping).2.state.surroundings "/b" =
        some "/m" := by
  -- the second run goes on where the first one has stopped, so that this is computed once
  rw [← Option.map_eq_some_iff, ← Option.map_eq_some_iff, dropping, sample_append, sample_append]
  decide +kernel

theorem shown_eq_found_including : ∃ later m set e,
    lastSet? "/a" (sample including).1.publications = some (later, m, set) ∧
      Dict.get? set.entries "/b" = some e ∧ e.diagnostics.length = 1 ∧
      ((sample including).2.shown? "/b" = some e.diagnostics ∨ m.PassesOver "/a" "/b" e ∨
        ∃ m' ∈ later, m'.Takes "/a" "/b") := by
  obtain ⟨⟨found, idle, apart, distinct⟩, -⟩ := shown_including_dropping
  obtain ⟨⟨later, m, set⟩, last, eq⟩ := found
  obtain ⟨e, entry, problems⟩ := Option.map_eq_some_iff.1 eq
  exact ⟨later, m, set, e, last, entry, problems,
    shown_eq_found (of_sample including) (List.isEmpty_iff.1 idle)
    (fun _ => rfl) apart distinct last entry⟩

/-- What the owner of a document found need not be shown, not even when everything is at rest. -/
theorem not_shown_eq_found : ¬ ∀ {host : Host} {config : EngineConfig} {h : History} {s : Session}
    {d r : Uri} {later : List Publisher.Moment} {m : Publisher.Moment} {set : DiagnosticSet}
    {e : DiagnosticEntry}, Run host config h s → s.isAtRest → (∀ x, host.refuses x = none) →
    (∀ m ∈ h.publications, m.breaks = false) → Publisher.TellsApart host.digest h.publications →
    (∀ set ∈ Publisher.sets h.publications, (Dict.keys set.entries).Nodup) →
    s.state.publisher.ownerOf? s.state.surroundings d = some r →
    lastSet? r h.publications = some (later, m, set) → Dict.get? set.entries d = some e →
    s.shown? d = some e.diagnostics := by
  intro shown
  obtain ⟨-, found, cleared, rest, unbroken, apart, distinct, owns⟩ := shown_including_dropping
  obtain ⟨⟨later, m, set⟩, last, eq⟩ := found
  obtain ⟨e, entry, problems⟩ := Option.map_eq_some_iff.1 eq
  have found := shown (of_sample dropping) rest (fun _ => rfl) unbroken apart distinct
      owns last entry
  rw [← Option.some.inj (cleared.symm.trans found)] at problems
  exact absurd problems (by decide)

end Run

/-! ## Sets that come in -/

/-- The number of the run that comes back. Runs are numbered in the order in which they are
started. -/
def Publisher.Moment.run? (m : Publisher.Moment) : Option Nat :=
  match m.call with
  | .ended run _ _ => some run
  | _ => none

namespace Run

open Publisher (shown? lastSet? sets)

variable {host : Host} {config : EngineConfig} {h : History} {s s' : Session} {x : Happening}
  {m : Publisher.Moment} {set : DiagnosticSet}

/-- When a set comes in, what is shown for a document changes exactly when the set says something
else of it, of no older version than what was pushed, or drops it. What the root lists and depends
on is what its set does; for other roots nothing changes. And whatever set was taken in before, of
this root or of another one, of a run that was started before or behind: what is shown for a
document of which that set read a newer version does not change, unless the document was taken off
the table since. -/
theorem changed_by_set (run : Run host config h s) (next : x.after? s = some s')
    (call : s.publication? x = some m)
    (takes : m.set? = some set) (willing : ∀ x, host.refuses x = none)
    (apart : Publisher.TellsApart host.digest (m :: h.publications))
    (distinct : ∀ set ∈ sets (m :: h.publications), (Dict.keys set.entries).Nodup) :
    (∀ u, shown? (m :: h.publications) u ≠ shown? h.publications u ↔
      (∃ e, m.Tells h.publications set u e) ∨ m.Drops h.publications set u) ∧
    (∀ root, s'.state.publisher.tables root =
      if set.root = root then set.tables else s.state.publisher.tables root) ∧
    ∀ {later m₀ earlier set₀ u e₀ e}, h.publications = later ++ m₀ :: earlier →
    m₀.set? = some set₀ →
      Dict.get? set₀.entries u = some e₀ → m₀.after.ownerOf? m₀.surroundings u = some set₀.root →
      (∀ m' ∈ later, ¬ m'.Removes u) → Dict.get? set.entries u = some e → e.version < e₀.version →
      shown? (m :: h.publications) u = shown? h.publications u := by
  obtain ⟨-, -, first, -⟩ := run.publications
  obtain ⟨met, publisher, -, -⟩ := Session.published next first
  obtain ⟨before, -, -⟩ := met m call
  obtain ⟨reached, -, -, refuses⟩ := (Run.step x run next).publications
  have publications : History.publications ((s, x) :: h) = m :: h.publications := by
    rw [History.publications, List.filterMap_cons, call]
    rfl
  rw [publications] at reached refuses
  have willing {m' : Publisher.Moment} (mem : m' ∈ m :: h.publications) (y : Uri) :
      m'.surroundings.refuses y = none := by rw [refuses m' mem, willing]
  have distinct {m' : Publisher.Moment} {set : DiagnosticSet} (mem : m' ∈ m :: h.publications)
      (takes : m'.set? = some set) : (Dict.keys set.entries).Nodup :=
    distinct set (List.mem_filterMap.2 ⟨m', mem, takes⟩)
  have changes (u : Uri) : shown? (m :: h.publications) u ≠ shown? h.publications u ↔
      (∃ e, m.Tells h.publications set u e) ∨ m.Drops h.publications set u := by
    obtain ⟨e, tells, shown⟩ | ⟨drops, shown⟩ | ⟨silent, stays, shown⟩ :=
      reached.shown?_of_set takes apart
      (willing List.mem_cons_self) (distinct List.mem_cons_self takes) u
    · exact ⟨fun _ => .inl ⟨e, tells⟩, fun _ => shown ▸ tells.other.symm⟩
    · exact ⟨fun _ => .inr drops, fun _ => shown ▸ drops.other.symm⟩
    · exact ⟨fun change => absurd shown change, fun h => (h.elim (not_exists.2 silent) stays).elim⟩
  refine ⟨changes, fun root => ?_, fun split takes₀ entry₀ owns₀ on entry older => ?_⟩
  · obtain ⟨⟨n, asked, ended⟩, -⟩ := Publisher.Moment.set?_eq_some_iff.1 takes
    have stays : m.closes root = false := by simp [Publisher.Moment.closes, ended]
    rw [publisher, call, Option.map_some, Option.getD_some, Publisher.Moment.tables_after, stays,
      takes, before]
    by_cases isIt : set.root = root <;> simp [isIt, Option.filter]
  · refine Decidable.byContradiction fun change => ?_
    obtain ⟨e', tells⟩ | drops := (changes _).1 change
    · have mem : _ ∈ m :: h.publications :=
        List.mem_cons_of_mem _ (split ▸ List.mem_append_right _ List.mem_cons_self)
      rw [split] at tells reached
      have newer := tells.version_le reached.of_cons.1 takes₀ (willing mem)
        (distinct mem takes₀) entry₀ owns₀ on
      obtain rfl := Option.some.inj (entry.symm.trans tells.entry)
      omega
    · exact absurd (entry.symm.trans drops.gone) (by simp)

/-- A run waits for a file, when another file that it has read is written anew and a refresh starts
a second run. That one does not wait, since the file it would wait for is opened, and its set comes
in first. -/
def refreshing : List Happening :=
  [.operation (.write "/b" (some (.ok "text"))), .operation (.write "/x" (some (.ok "@o"))),
    .operation (.hold "/b"),
    .operation (.open "/m" "#include \"x\"\n#include \"b\"" 1 none)] ++ works 4 ++
      .timer 1000 :: works 30 ++
  [.operation (.write "/x" (some (.ok "text"))), .operation .refresh] ++ works 4 ++
  .operation (.open "/b" "text" 1 none) :: works 4 ++ .timer 1000 :: works 180 ++
  .operation (.release "/b") :: works 127

/-- The set of the first run comes in, and other diagnostics of the file are shown then. -/
theorem comes_in_refreshing : ∃ s' m set, Happening.work.after? (sample refreshing).2 = some s' ∧
    (sample refreshing).2.publication? .work = some m ∧ m.set? = some set ∧ set.root = "/m" ∧
    m.run? = some 0 ∧
    shown? (m :: (sample refreshing).1.publications) "/x" ≠
      shown? (sample refreshing).1.publications "/x" ∧
    Publisher.TellsApart ⟨id⟩ (m :: (sample refreshing).1.publications) ∧
    (∀ set ∈ sets (m :: (sample refreshing).1.publications), (Dict.keys set.entries).Nodup) ∧
    ∃ l, lastSet? "/m" (sample refreshing).1.publications = some l ∧ l.2.1.run? = some 1 := by
  rw [← Option.map_eq_some_iff]
  obtain ⟨goes, second, comes⟩ : (Happening.work.after? (sample refreshing).2).isSome ∧
      (lastSet? "/m" (sample refreshing).1.publications).map (fun l => l.2.1.run?) = some (some 1) ∧
      Option.any (fun m : Publisher.Moment => decide (m.set?.map (·.root) = some "/m" ∧
        m.run? = some 0 ∧
        shown? (m :: (sample refreshing).1.publications) "/x" ≠
          shown? (sample refreshing).1.publications "/x" ∧
        Publisher.TellsApart ⟨id⟩ (m :: (sample refreshing).1.publications) ∧
        ∀ set ∈ sets (m :: (sample refreshing).1.publications), (Dict.keys set.entries).Nodup))
        ((sample refreshing).2.publication? .work) = true := by
    decide +kernel
  obtain ⟨s', next⟩ := Option.isSome_iff_exists.1 goes
  obtain ⟨m, call, holds⟩ := (Option.any_eq_true _ _).1 comes
  obtain ⟨takes, rest⟩ := of_decide_eq_true holds
  obtain ⟨set, takes, root⟩ := Option.map_eq_some_iff.1 takes
  obtain ⟨first, changes, apart, distinct⟩ := rest
  exact ⟨s', m, set, next, call, takes, root, first, changes, apart, distinct, second⟩

theorem changed_by_set_refreshing : ∃ m set, (sample refreshing).2.publication? .work = some m ∧
    m.set? = some set ∧
    shown? (m :: (sample refreshing).1.publications) "/x" ≠
      shown? (sample refreshing).1.publications "/x" ∧
    ((∃ e, m.Tells (sample refreshing).1.publications set "/x" e) ∨
      m.Drops (sample refreshing).1.publications set "/x") := by
  obtain ⟨s', m, set, next, call, takes, -, -, changes, apart, distinct, -⟩ := comes_in_refreshing
  obtain ⟨iff, -, -⟩ :=
    changed_by_set (of_sample refreshing) next call takes (fun _ => rfl) apart distinct
  exact ⟨m, set, call, takes, changes, (iff "/x").1 changes⟩

/-- The set of a run may change what is shown after the set of a run of the same root that was
started behind it. -/
theorem not_kept_by_earlier_set : ¬ ∀ {host : Host} {config : EngineConfig} {h : History}
    {s s' : Session}
    {x : Happening} {m m₀ : Publisher.Moment} {later earlier : List Publisher.Moment}
    {set set₀ : DiagnosticSet}
    {n n₀ : Nat}, Run host config h s → x.after? s = some s' → s.publication? x = some m →
    m.set? = some set →
    (∀ x, host.refuses x = none) → Publisher.TellsApart host.digest (m :: h.publications) →
    (∀ set ∈ sets (m :: h.publications), (Dict.keys set.entries).Nodup) →
    h.publications = later ++ m₀ :: earlier → m₀.set? = some set₀ → set₀.root = set.root →
    m.run? = some n →
    m₀.run? = some n₀ → n < n₀ →
    (∀ u, shown? (m :: h.publications) u = shown? h.publications u) ∧
      s'.state.publisher.tables set.root = s.state.publisher.tables set.root := by
  intro kept
  obtain ⟨s', m, set, next, call, takes, root, first, changes, apart, distinct, found⟩ :=
    comes_in_refreshing
  obtain ⟨⟨later, m₀, set₀⟩, last, second⟩ := found
  obtain ⟨⟨earlier, split⟩, takes₀, root₀, -⟩ := Publisher.lastSet?_eq_some last
  exact changes ((kept (of_sample refreshing) next call takes (fun _ => rfl) apart
    distinct split takes₀
    (root₀.trans root.symm) first second (by decide)).1 "/x")

end Run

end Quill
