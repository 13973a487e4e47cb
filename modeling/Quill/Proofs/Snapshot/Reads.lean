import Quill.Proofs.Freshness.Sharing
import Quill.Proofs.Run.Publications
import Quill.Proofs.Snapshot.Exact

/-!
# The reads of a build

A build makes its reads one after another, and between any two of its pieces of work other work may
be done, and documents may be opened, changed and closed. The steps of a build are kept with the
sessions in which they were done, so that what a snapshot holds can be compared with what was open
when it was read.

## Main definitions

* `History.Builds`, `History.Built` — the steps of a build that is under way, and of one that is
  over.
* `Building.Read` — the end of a read, with what there was to be read then.
* `Building.Took` — a snapshot under way has taken in just what was read.

## Main statements

* `Run.builds`, `Run.built` — whatever is being built, or has been built, was built in such steps.
* `History.Builds.took` — every step takes in what was read.
* `Run.open_copy_wins` — what a snapshot has of each document that was read for it.
-/

namespace Quill

/-! ## Builds -/

def EngineWork.building? : EngineWork → Option Building
  | .collect _ b | .lookUp (.building _ b) _ | .loaded _ b _ _ | .received _ b _
    _ | .assemble _ b => some b
  | _ => none

/-- Pieces of work that have been done, the latest first, each with the session that did it. -/
abbrev Past := List (Session × EngineWork)

/-- The piece of work is the next one of a build whose steps so far are these. Anything may happen
between two of them. -/
inductive History.Builds : History → EngineWork → Past → Prop where
  /-- A flow asks for a snapshot. -/
  | begin {h s s' y x rest b} (head : s.agenda.actions = .now y :: rest)
    (fresh : y.building? = none) (follows : s.state.Follows s' y x) (goes : x.building? = some b) :
    Builds ((s, .work) :: h) x [(s, y)]
  | step {h s s' y x rest b past} (builds : Builds h y past)
    (head : s.agenda.actions = .now y :: rest)
    (follows : s.state.Follows s' y x) (goes : x.building? = some b) :
    Builds ((s, .work) :: h) x ((s, y) :: past)
  | meanwhile {h x past} (p : Session × Happening) (builds : Builds h x past) :
      Builds (p :: h) x past

/-- The snapshot has been built in these steps. -/
def History.Built (h : History) (past : Past) (a : Snapshot) : Prop :=
  ∃ s w b rest, ∃ earlier :
  History, (s, .work) :: earlier <:+ h ∧ earlier.Builds (.assemble w b) past ∧
    s.agenda.actions = .now (.assemble w b) :: rest ∧ a = b.assemble s.state.host.fingerprint

namespace EngineWork

variable {e : Engine} {s' : Scheduler} {x y : EngineWork} {b : Building}

theorem owner?_of_building? (goes : x.building? = some b) : x.owner?.isSome := by
  cases x with
  | lookUp r => cases r <;> first | rfl | cases goes
  | collect | loaded | received | assemble => rfl
  | _ => cases goes

theorem building?_begins (follows : e.Follows s' y x) (fresh : y.building? = none)
    (goes : x.building? = some b) :
    ∃ w scope, x = .collect w b ∧ Building.start e.store e.settings scope = .ok b := by
  cases follows with
  | go _ stops | begin _ _ stops | diagnose _ _ stops =>
    cases stops with
    | lease _ scope _ _ start | build _ scope _ _ start =>
      obtain rfl := Option.some.inj goes
      exact ⟨_, scope, rfl, start⟩
    | _ => cases goes
  | complete | memory | load | found | absent | opened | file | received => cases fresh
  | _ => cases goes

end EngineWork

namespace History

variable {h earlier : History} {x : EngineWork} {past : Past} {a : Snapshot}

/-- The steps of a build are part of the history. -/
theorem Builds.mem (builds : h.Builds x past) : ∀ p ∈ past, ∃ rest, (p.1, .work) ∈ h ∧
    p.1.agenda.actions = .now p.2 :: rest := by
  induction builds with
  | begin head => exact fun p mem => List.mem_singleton.1 mem ▸ ⟨_, List.mem_cons_self, head⟩
  | step _ head _ _ ih =>
    intro p mem
    rcases List.mem_cons.1 mem with rfl | mem
    · exact ⟨_, List.mem_cons_self, head⟩
    · obtain ⟨rest, mem, head⟩ := ih p mem
      exact ⟨rest, List.mem_cons_of_mem _ mem, head⟩
  | meanwhile _ _ ih =>
    intro p mem
    obtain ⟨rest, mem, head⟩ := ih p mem
    exact ⟨rest, List.mem_cons_of_mem _ mem, head⟩

theorem Built.mem (built : h.Built past a) : ∀ p ∈ past, ∃ rest, (p.1, .work) ∈ h ∧
    p.1.agenda.actions = .now p.2 :: rest := by
  obtain ⟨s, w, b, rest, earlier, suffix, builds, -, -⟩ := built
  intro p mem
  obtain ⟨rest, mem, head⟩ := builds.mem p mem
  exact ⟨rest, suffix.subset (List.mem_cons_of_mem _ mem), head⟩

end History

namespace Run

variable {host : Host} {config : EngineConfig} {h : History} {s : Session} {x : EngineWork}
  {b : Building}

/-- Whatever happens in a run happens to a session that the run has reached. -/
theorem reached_of_mem (run : Run host config h s) {p : Session × Happening} (mem : p ∈ h) :
    ∃ earlier, Run host config earlier p.1 := by
  induction run with
  | start => simp at mem
  | @step h s s' y run next ih =>
    rcases List.mem_cons.1 mem with rfl | old
    · exact ⟨h, run⟩
    · exact ih old

/-- Whatever is being built in a run has begun in it. -/
theorem builds (run : Run host config h s) (mem : x ∈ s.pieces) (goes : x.building? = some b) :
    ∃ past, h.Builds x past := by
  induction run generalizing x b with
  | start => simp at mem
  | @step h s s' y run next ih =>
    obtain old | ⟨w, rest, _, rfl, head, follows⟩ | apart :=
      (Happening.does next).origin run.sound mem (EngineWork.owner?_of_building? goes)
    · obtain ⟨past, builds⟩ := ih old goes
      exact ⟨past, .meanwhile _ builds⟩
    · cases under : w.building? with
      | none => exact ⟨_, .begin head under follows goes⟩
      | some b₀ =>
        obtain ⟨past, builds⟩ := ih (Session.mem_pieces_of_head head) under
        exact ⟨_, .step builds head follows goes⟩
    · cases x with
      | go | begin | settleFlight => cases goes
      | _ => cases apart

theorem built (run : Run host config h s) {a : Snapshot} (mem : a ∈ h.assembled) :
    ∃ past, h.Built past a := by
  induction run with
  | start => simp [History.assembled] at mem
  | @step h s s' y run next ih =>
    obtain ⟨p, mem, eq⟩ := List.mem_filterMap.1 mem
    rcases List.mem_cons.1 mem with rfl | old
    · cases y with
      | work =>
        simp only [Session.assembles?] at eq
        split at eq
        next w b rest head =>
          obtain rfl := Option.some.inj eq
          obtain ⟨past, builds⟩ := run.builds (Session.mem_pieces_of_head head) rfl
          exact ⟨past, s, w, b, rest, h, List.suffix_refl _, builds, head, rfl⟩
        next => cases eq
      | _ => cases eq
    · obtain ⟨past, s₁, w, b, rest, earlier, suffix, built⟩ :=
        ih (List.mem_filterMap.2 ⟨_, old, eq⟩)
      exact ⟨past, s₁, w, b, rest, earlier, suffix.trans (List.suffix_cons _ _), built⟩

end Run

/-! ## Reads -/

/-- The end of a read: the document, the answer to the question for its file if that was asked for,
and the session in which the read ends. -/
structure Building.Read where
  uri : Uri
  answer : Option (Option Text)
  ends : Session

namespace Building.Read

def open? (r : Read) : Option OpenDocument := Dict.get? r.ends.state.store.documents r.uri

/-- What a read comes to. A file that is not there is missing, even if the document was opened
meanwhile. -/
def document? (r : Read) : Option SnapshotDocument :=
  match r.answer, r.open? with
  | some none, _ => none
  | _, some doc => some (.ofOpen r.ends.state.host.digest r.uri doc)
  | some (some text), none => some (.ofFile r.ends.state.host.digest r.uri text)
  | none, none => none

end Building.Read

/-- The read that a piece of work ends, if it ends one. -/
def Session.read? (s : Session) : EngineWork → Option Building.Read
  | .collect _ b =>
    match b.gather.next? with
    | some (uri, _) => if s.state.store.has uri then some ⟨uri, none, s⟩ else none
    | none => none
  | .loaded _ _ uri text => some ⟨uri, some text, s⟩
  | _ => none

theorem Session.ends_of_read? {s : Session} {y : EngineWork}
    {r : Building.Read} (ends : s.read? y = some r) :
    r.ends = s := by
  unfold Session.read? at ends
  repeat' split at ends
  all_goals cases ends <;> rfl

/-- The reads of a build that have come to their ends, the latest first. -/
def Past.reads (past : Past) : List Building.Read := past.filterMap fun p => p.1.read? p.2

@[simp] theorem Past.reads_cons (p : Session × EngineWork) (past : Past) :
    Past.reads (p :: past) = (p.1.read? p.2).toList ++ Past.reads past := by
  unfold Past.reads
  cases h : p.1.read? p.2 <;> simp [h]

/-- The reads that have come to their ends in a history, the latest first. -/
def History.reads (h : History) : List Building.Read :=
  h.filterMap fun p =>
    match p.2, p.1.agenda.actions with
    | .work, .now y :: _ => p.1.read? y
    | _, _ => none

/-- The reads of a build are among those of the history. -/
theorem History.Built.reads_subset {h : History} {past : Past}
    {a : Snapshot} (built : h.Built past a) :
    past.reads ⊆ h.reads := by
  intro r mem
  obtain ⟨p, done, ends⟩ := List.mem_filterMap.1 mem
  obtain ⟨rest, happened, head⟩ := built.mem p done
  exact List.mem_filterMap.2 ⟨_, happened, by simpa [head] using ends⟩

/-- What has been found and what is missing is what these reads have come to, each of another
document. -/
structure Building.Took (b : Building) (reads : List Building.Read) : Prop where
  nodup : (reads.map (·.uri)).Nodup
  settled : ∀ x, b.gather.isSettled x ↔ x ∈ reads.map (·.uri)
  found : ∀ r ∈ reads, Dict.get? b.gather.found r.uri = r.document?
  missing : ∀ r ∈ reads, r.uri ∈ b.gather.missing ↔ r.document? = none

namespace Building.Took

variable {c : Compiler} {b b' : Building} {reads : List Building.Read} {r : Building.Read}

theorem start {store : Store} {settings : CompileSettings} {scope : Scope}
    (start : Building.start store settings scope = .ok b) : b.Took [] := by
  have empty : b.gather.found = [] ∧ b.gather.missing = [] := by
    unfold Building.start at start
    repeat' split at start
    all_goals cases start <;> exact ⟨rfl, rfl⟩
  exact ⟨by simp, by simp [Gather.isSettled, Dict.has, empty], by simp, by simp⟩

theorem next {uri : Uri} {gather : Gather SnapshotDocument} (took : b.Took reads)
    (next : b.gather.next? = some (uri, gather)) :
    ({ b with gather } : Building).Took reads ∧ gather.isSettled uri = false := by
  have fresh := Gather.isSettled_of_next? next
  obtain ⟨rest, -, rfl⟩ := Gather.next?_eq_some next
  exact ⟨⟨took.nodup, took.settled, took.found, took.missing⟩, fresh⟩

/-- What one more read has come to is taken in. -/
theorem receive (took : b.Took reads) (fresh : b.gather.isSettled r.uri = false)
    (received : b.receive c r.uri r.document? = .ok b') : b'.Took (r :: reads) := by
  have other {r'} (mem : r' ∈ reads) : r'.uri ≠ r.uri := fun eq => by
    have settled := (took.settled r'.uri).2 (List.mem_map_of_mem mem)
    simp [eq, fresh] at settled
  have nodup : ((r :: reads).map (·.uri)).Nodup := by
    rw [List.map_cons, List.nodup_cons, ← took.settled, fresh]
    exact ⟨Bool.false_ne_true, took.nodup⟩
  have absent : Dict.get? b.gather.found r.uri = none ∧ r.uri ∉ b.gather.missing := by
    simpa [Gather.isSettled, Dict.has] using fresh
  cases there : r.document? with
  | none =>
    rw [there] at received
    obtain rfl := Except.ok.inj received
    refine ⟨nodup, fun x => ?_, fun r' mem => ?_, fun r' mem => ?_⟩
    · rw [Gather.isSettled_skip, took.settled, List.map_cons, List.mem_cons]
    · rcases List.mem_cons.1 mem with rfl | mem
      · exact absent.1.trans there.symm
      · exact took.found r' mem
    · rcases List.mem_cons.1 mem with rfl | mem
      · simp [Gather.skip, there]
      · simpa [Gather.skip, other mem] using took.missing r' mem
  | some d =>
    obtain ⟨targets, rfl, -⟩ := eq_of_receive (there ▸ received)
    refine ⟨nodup, fun x => ?_, fun r' mem => ?_, fun r' mem => ?_⟩
    · rw [Gather.isSettled_add, took.settled, List.map_cons, List.mem_cons]
    · rcases List.mem_cons.1 mem with rfl | mem
      · exact (Dict.get?_put_self _ _ _).trans there.symm
      · exact (Dict.get?_put_of_ne _ _ (other mem)).trans (took.found r' mem)
    · rcases List.mem_cons.1 mem with rfl | mem
      · simp [Gather.add, absent, there]
      · exact took.missing r' mem

end Building.Took

/-! ## What is read in a build -/

namespace EngineWork

/-- What is to be done next for a build fits what has been read. -/
def Took : EngineWork → List Building.Read → Prop
  | .collect _ b, reads | .assemble _ b, reads => b.Took reads
  | .lookUp (.building _ b) uri, reads | .loaded _ b uri _, reads =>
      b.Took reads ∧ b.gather.isSettled uri = false
  | .received _ b uri doc, reads => ∃ r before, reads = r :: before ∧ r.uri = uri ∧
    r.document? = doc ∧
      b.Took before ∧ b.gather.isSettled uri = false
  | _, _ => False

variable {s : Session} {s' : Scheduler} {x y : EngineWork} {b : Building}
  {reads : List Building.Read}

/-- A step of a build takes in what is read. -/
theorem Took.follows (took : y.Took reads) (follows : s.state.Follows s' y x)
    (goes : x.building? = some b) :
    x.Took ((s.read? y).toList ++ reads) := by
  cases follows with
  | complete next => simpa [Took, Session.read?, next] using took
  | @memory w b uri gather doc next isOpen =>
    have isIn : s.state.store.has uri := by simp [Store.has, Dict.has, isOpen]
    obtain ⟨took, fresh⟩ := Building.Took.next took next
    refine ⟨⟨uri, none, s⟩, reads, ?_, rfl, ?_, took, fresh⟩
    · simp [Session.read?, next, isIn]
    · simp [Building.Read.document?, Building.Read.open?, isOpen]
  | @load w b uri gather next isClosed =>
    have isOut : s.state.store.has uri = false := by simp [Store.has, Dict.has, isClosed]
    simpa [Took, Session.read?, next, isOut] using Building.Took.next took next
  | found => exact took
  | absent => exact ⟨_, reads, rfl, rfl, by simp [Building.Read.document?], took.1, took.2⟩
  | opened isOpen =>
    exact ⟨_, reads, rfl,
      rfl, by simp [Building.Read.document?, Building.Read.open?, isOpen], took.1, took.2⟩
  | file isClosed =>
    exact ⟨_, reads, rfl,
      rfl, by simp [Building.Read.document?, Building.Read.open?, isClosed], took.1, took.2⟩
  | received received =>
    obtain ⟨r, before, rfl, rfl, rfl, took, fresh⟩ := took
    exact took.receive fresh received
  | go | begin | diagnose => exact took.elim
  | _ => cases goes

end EngineWork

namespace History

variable {h : History} {x : EngineWork} {past : Past} {a : Snapshot}

theorem Builds.took (builds : h.Builds x past) : x.Took past.reads := by
  induction builds with
  | @begin _ s _ y _ _ _ _ fresh follows goes =>
    obtain ⟨w, scope, rfl, start⟩ := EngineWork.building?_begins follows fresh goes
    have none : s.read? y = none := by
      cases y <;> first | rfl | cases fresh
    simpa [EngineWork.Took, none, Past.reads] using Building.Took.start start
  | step _ _ follows goes ih => simpa using ih.follows follows goes
  | meanwhile _ _ ih => exact ih

/-- A snapshot holds, and lacks, what the reads for it have come to. -/
theorem Built.took (built : h.Built past a) : (past.reads.map (·.uri)).Nodup ∧
    (∀ x, Dict.has a.documents x ∨ x ∈ a.missing ↔ x ∈ past.reads.map (·.uri)) ∧
    ∀ r ∈ past.reads, a.document? r.uri = r.document? ∧
    (r.uri ∈ a.missing ↔ r.document? = none) := by
  obtain ⟨s, w, b, rest, earlier, -, builds, -, rfl⟩ := built
  have took : b.Took past.reads := builds.took
  have missing (x : Uri) : x ∈ (b.assemble s.state.host.fingerprint).missing ↔
      x ∈ b.gather.missing :=
    (Text.sort_perm _).mem_iff
  refine ⟨took.nodup, fun x => ?_, fun r mem => ⟨took.found r mem, ?_⟩⟩
  · rw [missing, ← took.settled, Gather.isSettled_iff]
    rfl
  · rw [missing]
    exact took.missing r mem

end History

namespace Run

variable {host : Host} {config : EngineConfig} {h : History} {s : Session}

/-- Every snapshot was built from reads that ended while anything might be opened, changed and
closed. What it has of a document is settled by what was open when the read ended: unless the file
was asked for and is not there, the open copy wins, with its text and its version at that moment,
whatever the file holds. -/
theorem open_copy_wins (run : Run host config h s) {a : Snapshot} (mem : a ∈ h.assembled) :
    (∃ past, h.Built past a) ∧ ∀ {past}, h.Built past a → (past.reads.map (·.uri)).Nodup ∧
      (∀ x, Dict.has a.documents x ∨ x ∈ a.missing ↔ x ∈ past.reads.map (·.uri)) ∧
      ∀ r ∈ past.reads,
        (∀ doc, r.open? = some doc → r.answer ≠ some none →
          a.document? r.uri = some (.ofOpen host.digest r.uri doc) ∧ r.uri ∉ a.missing) ∧
        (∀ text, r.open? = none → r.answer = some (some text) →
          a.document? r.uri = some (.ofFile host.digest r.uri text) ∧ r.uri ∉ a.missing) ∧
        (r.answer = some none → a.document? r.uri = none ∧ r.uri ∈ a.missing) := by
  refine ⟨run.built mem, fun {past} built => ?_⟩
  obtain ⟨nodup, whole, took⟩ := built.took
  refine ⟨nodup, whole, fun r read => ?_⟩
  have sameHost : r.ends.state.host = host := by
    obtain ⟨p, done, ends⟩ := List.mem_filterMap.1 read
    obtain ⟨_, happened, -⟩ := built.mem p done
    obtain ⟨_, reached⟩ := run.reached_of_mem happened
    rw [Session.ends_of_read? ends, reached.host_eq]
  obtain ⟨document, missing⟩ := took r read
  rw [document, missing, Building.Read.document?, sameHost]
  refine ⟨fun doc isOpen there => ?_, fun text isClosed answer => ?_, fun answer => ?_⟩
  · cases answer : r.answer with
    | none => simp [isOpen]
    | some text =>
      cases text with
      | none => exact absurd answer there
      | some text => simp [isOpen]
  · simp [isClosed, answer]
  · simp [answer]

def opening (content : Option FileContent) : List Happening :=
  [.operation (.write "/x" content), .operation (.hold "/x"),
    .operation (.open "/m" "#include \"x\"" 1 none)] ++
  works 4 ++ .operation (.errand 0 (.build (.document "/m") fun r => .done (r.map .snapshot))) ::
    works 10 ++
  .operation (.open "/x" "text" 2 none) :: works 4 ++ .operation (.release "/x") :: works 20

theorem open_copy_wins_opening : ∃ a ∈ (sample (opening (some (.ok "file")))).1.assembled, ∃ past,
    (sample (opening (some (.ok "file")))).1.Built past a ∧ ∃ r ∈ past.reads, r.uri = "/x" ∧
      r.answer = some (some (Text.ofString "file")) ∧ r.open? = some ⟨"text", 2, "quill", none⟩ ∧
      a.document? "/x" = some (.ofOpen ⟨id⟩ "/x" ⟨"text", 2, "quill", none⟩) := by
  obtain ⟨⟨a, mem, has⟩, ends⟩ :
      (∃ a ∈ (sample (opening (some (.ok "file")))).1.assembled, Dict.has a.documents "/x") ∧
      ∀ r ∈ (sample (opening (some (.ok "file")))).1.reads, r.uri = "/x" →
        r.answer = some (some (Text.ofString "file")) ∧
        r.open? = some ⟨"text", 2, "quill", none⟩ := by
    decide +kernel
  obtain ⟨⟨past, built⟩, wins⟩ := open_copy_wins (of_sample (opening (some (.ok "file")))) mem
  obtain ⟨-, whole, took⟩ := wins built
  obtain ⟨r, read, uri⟩ := List.mem_map.1 ((whole "/x").1 (.inl has))
  obtain ⟨answer, isOpen⟩ := ends r (built.reads_subset read) uri
  refine ⟨a, mem, past, built, r, read, uri, answer, isOpen, ?_⟩
  exact uri ▸ ((took r read).1 _ isOpen (by simp [answer])).1

/-- An open copy does not win when the file was asked for and is not there. -/
theorem not_open_copy_wins : ¬ ∀ {host : Host} {config : EngineConfig} {h : History} {s : Session},
    Run host config h s → ∀ {a : Snapshot} {past : Past}, h.Built past a → ∀ r ∈ past.reads, ∀ doc,
      r.open? = some doc → a.document? r.uri = some (.ofOpen host.digest r.uri doc) ∧
      r.uri ∉ a.missing := by
  intro wins
  obtain ⟨⟨a, mem, missing⟩, ends⟩ :
      (∃ a ∈ (sample (opening none)).1.assembled, Text.ofString "/x" ∈ a.missing) ∧
      ∀ r ∈ (sample (opening none)).1.reads,
      r.uri = "/x" → r.open? = some ⟨"text", 2, "quill", none⟩ := by
    decide +kernel
  obtain ⟨past, built⟩ := (of_sample (opening none)).built mem
  obtain ⟨-, whole, -⟩ := built.took
  obtain ⟨r, read, uri⟩ := List.mem_map.1 ((whole "/x").1 (.inr missing))
  exact (wins (of_sample (opening none)) built r read _ (ends r (built.reads_subset read) uri)).2
    (uri ▸ missing)

end Run

end Quill
