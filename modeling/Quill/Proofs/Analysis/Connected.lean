import Mathlib.Data.List.Nodup
import Mathlib.Data.List.Perm.Subperm
import Mathlib.Logic.Relation
import Quill.Analysis.Symbol
import Quill.Proofs.Flow.Computed

/-!
# The documents that inclusions connect

The search goes as far as there are links, for a way without repetitions is no longer than the
number of documents. A symbol of a snapshot occurs in the documents that the search finds.

## Main definitions

* `Inclusions.Linked` — one inclusion connects two documents, whichever way it points.
* `Snapshot.module?`, `Snapshot.modules` — the documents of a snapshot, parsed.
* `Snapshot.Connected` — the documents of a snapshot that inclusions connect.

## Main statements

* `Inclusions.mem_connected_iff`, `Snapshot.mem_connected_iff` — what is connected with a document.
* `Snapshot.yields_occurrences` — where a symbol occurs.
-/

namespace Quill.Inclusions

open Relation (ReflTransGen)

variable {pairs : List (Uri × Uri)} {modules : Dict Uri Module} {seen all : List Uri} {rounds : Nat}
  {uri a b x : Uri}

/-- One inclusion connects two documents, whichever way it points. -/
def Linked (pairs : List (Uri × Uri)) (a b : Uri) : Prop := (a, b) ∈ pairs ∨ (b, a) ∈ pairs

theorem mem_neighbours_iff : b ∈ neighbours pairs a ↔ Linked pairs a b := by
  simp only [neighbours, List.mem_filterMap, Linked]
  constructor
  · rintro ⟨⟨c, d⟩, mem, found⟩
    split at found
    · simp_all
    · simp_all
  · rintro (mem | mem)
    · exact ⟨_, mem, if_pos rfl⟩
    · refine ⟨_, mem, ?_⟩
      split <;> simp_all

def fresh (pairs : List (Uri × Uri)) (seen : List Uri) : List Uri :=
  ((seen.flatMap (neighbours pairs)).filter (!seen.contains ·)).eraseDups

theorem mem_fresh_iff : b ∈ fresh pairs seen ↔ (∃ a ∈ seen, Linked pairs a b) ∧ b ∉ seen := by
  simp [fresh, mem_neighbours_iff]

theorem search_succ (pairs : List (Uri × Uri)) (rounds : Nat) (seen : List Uri) :
    search pairs (rounds + 1) seen =
      if fresh pairs seen = [] then seen else search pairs rounds (seen ++ fresh pairs seen) := by
  rw [search, ← fresh]
  split <;> simp_all

theorem nodup_eraseDups (l : List Uri) : l.eraseDups.Nodup := by
  induction h : l.length using Nat.strongRecOn generalizing l with
  | ind n ih =>
    cases l with
    | nil => simp
    | cons a l =>
      have shorter : (l.filter fun b => !b == a).length < n :=
        h ▸ Nat.lt_succ_of_le (List.length_filter_le _ _)
      rw [List.eraseDups_cons, List.nodup_cons, List.mem_eraseDups]
      exact ⟨by simp, ih _ shorter _ rfl⟩

theorem nodup_append_fresh (nodup : seen.Nodup) : (seen ++ fresh pairs seen).Nodup :=
  List.nodup_append.2 ⟨nodup, nodup_eraseDups _, fun _ old _ new eq =>
    (mem_fresh_iff.1 new).2 (eq ▸ old)⟩

theorem nodup_search (nodup : seen.Nodup) : (search pairs rounds seen).Nodup := by
  induction rounds generalizing seen with
  | zero => exact nodup
  | succ rounds ih =>
    rw [search_succ]
    split
    · exact nodup
    · exact ih (nodup_append_fresh nodup)

theorem mem_search_of_mem (mem : x ∈ seen) : x ∈ search pairs rounds seen := by
  induction rounds generalizing seen with
  | zero => exact mem
  | succ rounds ih =>
    rw [search_succ]
    split
    · exact mem
    · exact ih (List.mem_append_left _ mem)

theorem exists_way_of_mem_search (mem : x ∈ search pairs rounds seen) :
    ∃ a ∈ seen, ReflTransGen (Linked pairs) a x := by
  induction rounds generalizing seen with
  | zero => exact ⟨x, mem, .refl⟩
  | succ rounds ih =>
    rw [search_succ] at mem
    split at mem
    · exact ⟨x, mem, .refl⟩
    · obtain ⟨b, found, way⟩ := ih mem
      rcases List.mem_append.1 found with old | new
      · exact ⟨b, old, way⟩
      · obtain ⟨⟨a, old, link⟩, -⟩ := mem_fresh_iff.1 new
        exact ⟨a, old, .head link way⟩

/-- No link leads out of what is found, if there are enough rounds to find everything. -/
theorem search_closed (inside : ∀ {a b}, Linked pairs a b → b ∈ all) (nodup : seen.Nodup)
    (part : seen ⊆ all) (enough : all.length ≤ rounds + seen.length) (link : Linked pairs a b)
    (mem : a ∈ search pairs rounds seen) : b ∈ search pairs rounds seen := by
  induction rounds generalizing seen with
  | zero =>
    have whole := (List.subperm_of_subset nodup part).perm_of_length_le (by omega)
    exact whole.mem_iff.2 (inside link)
  | succ rounds ih =>
    rw [search_succ] at mem ⊢
    split at mem
    next none =>
      rw [if_pos none]
      by_contra new
      have : b ∈ fresh pairs seen := mem_fresh_iff.2 ⟨⟨a, mem, link⟩, new⟩
      simp [none] at this
    next some =>
      rw [if_neg some]
      refine ih (nodup_append_fresh nodup) (List.append_subset.2 ⟨part, fun x new => ?_⟩) ?_ mem
      · obtain ⟨⟨a, -, link⟩, -⟩ := mem_fresh_iff.1 new
        exact inside link
      · have := List.length_pos_iff.2 some
        rw [List.length_append]
        omega

theorem mem_links_iff : (a, b) ∈ links modules ↔
    (∃ m, (a, m) ∈ modules ∧ ∃ i ∈ m.inclusions, i.target = b) ∧ Dict.has modules b := by
  simp only [links, List.mem_flatMap, List.mem_map, List.mem_filter, Prod.mk.injEq, Prod.exists]
  constructor
  · rintro ⟨u, m, mem, i, ⟨inner, has⟩, rfl, rfl⟩
    exact ⟨⟨m, mem, i, inner, rfl⟩, has⟩
  · rintro ⟨⟨m, mem, i, inner, rfl⟩, has⟩
    exact ⟨a, m, mem, i, ⟨inner, has⟩, rfl, rfl⟩

theorem mem_keys_of_linked (link : Linked (links modules) a b) : b ∈ Dict.keys modules := by
  rcases link with link | link
  · exact Dict.mem_keys_iff.2 (mem_links_iff.1 link).2
  · obtain ⟨⟨m, mem, -⟩, -⟩ := mem_links_iff.1 link
    exact List.mem_map.2 ⟨_, mem, rfl⟩

/-- The documents connected with one are those that links lead to. -/
theorem mem_connected_iff :
    x ∈ connected modules uri ↔ ReflTransGen (Linked (links modules)) uri x := by
  rw [connected, (Text.sort_perm _).mem_iff]
  constructor
  · intro mem
    obtain ⟨a, start, way⟩ := exists_way_of_mem_search mem
    obtain rfl := List.mem_singleton.1 start
    exact way
  · intro way
    induction way with
    | refl => exact mem_search_of_mem (List.mem_singleton_self _)
    | tail _ link ih =>
      have enough : (uri :: Dict.keys modules).length ≤ modules.length + [uri].length := by
        simp [Dict.keys]
      exact search_closed (fun link => List.mem_cons_of_mem _ (mem_keys_of_linked link))
        (List.nodup_singleton _) (by simp) enough link ih

theorem nodup_connected (modules : Dict Uri Module) (uri : Uri) : (connected modules uri).Nodup :=
  (Text.sort_perm _).nodup_iff.2 (nodup_search (List.nodup_singleton _))

theorem pairwise_connected (modules : Dict Uri Module) (uri : Uri) :
    (connected modules uri).Pairwise fun a b => Text.le a b :=
  Text.sort_pairwise _

end Quill.Inclusions

namespace Quill.Snapshot

open Quill.Flow (Yields yields_done)
open Relation (ReflTransGen)

variable {s : Snapshot} {uris : List Uri} {uri a b : Uri} {m : Module}

def module? (s : Snapshot) (uri : Uri) : Option Module :=
  (s.document? uri).map fun d => Module.read d.uri d.text

def modules (s : Snapshot) (uris : List Uri) : Dict Uri Module :=
  uris.filterMap fun uri => (s.module? uri).map fun m => (uri, m)

def Includes (s : Snapshot) (a b : Uri) : Prop :=
  (∃ m, s.module? a = some m ∧ ∃ i ∈ m.inclusions, i.target = b) ∧ (s.document? b).isSome

/-- Inclusions lead from one document to another, whichever way they point. -/
def Connected (s : Snapshot) : Uri → Uri → Prop :=
  ReflTransGen fun a b => s.Includes a b ∨ s.Includes b a

def connected (s : Snapshot) (uri : Uri) : List Uri :=
  Inclusions.connected (s.modules (Dict.keys s.documents)) uri

theorem mem_modules_iff : (a, m) ∈ s.modules uris ↔ a ∈ uris ∧ s.module? a = some m := by
  simp [modules]

theorem has_modules_keys : Dict.has (s.modules (Dict.keys s.documents)) b ↔
    (s.document? b).isSome := by
  rw [← Dict.mem_keys_iff, Dict.keys, List.mem_map]
  constructor
  · rintro ⟨⟨a, m⟩, mem, rfl⟩
    obtain ⟨-, found⟩ := mem_modules_iff.1 mem
    simpa [module?] using congrArg Option.isSome found
  · intro there
    obtain ⟨d, found⟩ := Option.isSome_iff_exists.1 there
    refine ⟨(b, Module.read d.uri d.text), mem_modules_iff.2 ⟨Dict.mem_keys_iff.2 there, ?_⟩, rfl⟩
    simp [module?, found]

theorem mem_links_iff :
    (a, b) ∈ Inclusions.links (s.modules (Dict.keys s.documents)) ↔ s.Includes a b := by
  rw [Inclusions.mem_links_iff, has_modules_keys]
  refine and_congr_left fun _ => exists_congr fun m => and_congr_left fun _ => ?_
  rw [mem_modules_iff, and_iff_right_iff_imp]
  intro found
  have there : (s.document? a).isSome := by simpa [module?] using congrArg Option.isSome found
  exact Dict.mem_keys_iff.2 there

/-- The documents searched are those that inclusions connect. -/
theorem mem_connected_iff : b ∈ s.connected a ↔ s.Connected a b := by
  have linked : Inclusions.Linked (Inclusions.links (s.modules (Dict.keys s.documents))) =
      fun a b => s.Includes a b ∨ s.Includes b a := by
    funext a b
    exact propext (or_congr mem_links_iff mem_links_iff)
  rw [connected, Inclusions.mem_connected_iff, linked]
  rfl

theorem nodup_connected (s : Snapshot) (uri : Uri) : (s.connected uri).Nodup :=
  Inclusions.nodup_connected _ _

theorem pairwise_connected (s : Snapshot) (uri : Uri) :
    (s.connected uri).Pairwise fun a b => Text.le a b :=
  Inclusions.pairwise_connected _ _

/-! ## Flows -/

theorem yields_parse_call (s : Snapshot) (uri : Uri) :
    Yields (.computed .quill) (s.parse uri).call (.ok (s.module? uri)) := by
  cases found : s.document? uri with
  | none => simpa [module?, found] using (Flow.yields_parse_none found _).call
  | some d => simpa [module?, found] using (Flow.yields_parse found).call

theorem yields_modules (s : Snapshot) (uris : List Uri) :
    Yields (.computed .quill) (Answering.modules s uris) (.ok (s.modules uris)) := by
  have each : Yields (.computed .quill)
      (Flow.forEach (fun uri => do pure (uri, ← (s.parse uri).call)) uris)
      (.ok (uris.map fun uri => (uri, s.module? uri))) :=
    Flow.yields_forEach fun uri _ => (yields_parse_call s uri).bind (yields_done _ _)
  refine each.bind ?_
  have same : s.modules uris =
      (uris.map fun uri => (uri, s.module? uri)).filterMap fun e => e.2.map fun m => (e.1, m) := by
    rw [List.filterMap_map]
    rfl
  rw [same]
  exact yields_done _ _

theorem yields_connected (s : Snapshot) (uri : Uri) :
    Yields (.computed .quill) (Answering.connected s uri) (.ok (s.connected uri)) :=
  (yields_modules s _).bind (yields_done _ _)

/-- The occurrences of a symbol of a document are those in the documents connected with it. -/
theorem yields_occurrences (s : Snapshot) (uri : Uri) (n : Name) :
    Yields (.computed .quill) (Answering.occurrences s uri n)
      (.ok ((s.modules (s.connected uri)).flatMap fun e => n.occurrencesIn e.1 e.2)) :=
  (yields_connected s uri).call.bind ((yields_modules s _).bind (yields_done _ _)).call

end Quill.Snapshot
