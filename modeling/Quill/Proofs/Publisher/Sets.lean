import Quill.Proofs.Publisher.Operations

/-!
# What a set pushes

A set is pushed entry by entry, and then clears what dropped out of it. For each document on its own
this comes to one push at most, and what that is can be read off the set and the publisher that
takes it in.

## Main definitions

* `Beside` — nothing has happened to a document.
* `pushOf?` — what a set pushes for a document.

## Main statements

* `get?_pushes_publishSet` — a set pushes for each document what `pushOf?` says.
-/

namespace Quill

namespace Publisher

open PublisherEffect (push?)

variable {w : Surroundings} {p q : Publisher} {ps qs : List Push} {u root : Uri}
  {set : DiagnosticSet} {e : DiagnosticEntry}

/-! ## One document of a set -/

theorem get?_cons (ps : List Push) (u x : Uri) (ds : List Diagnostic) :
    Dict.get? ((u, ds) :: ps) x = if u = x then some ds else Dict.get? ps x := rfl

/-- The document is where it was: nothing was pushed for it, and nobody else owns it. -/
structure Beside (u : Uri) (p : Publisher) (ps : List Push) (q : Publisher) (qs : List Push) :
    Prop where
  alike : Alike p q
  published : Dict.get? q.published u = Dict.get? p.published u
  shown : Dict.get? qs u = Dict.get? ps u

theorem Beside.refl (u : Uri) (p : Publisher) (ps : List Push) : Beside u p ps p ps :=
  ⟨⟨rfl, rfl, rfl, rfl, rfl⟩, rfl, rfl⟩

theorem keeps_publishEntry_of_ne {x : Uri} (ne : x ≠ u) (w : Surroundings) (root : Uri)
    (e : DiagnosticEntry) : Keeps push? (Beside u p ps) (publishEntry w root x e) := by
  intro q qs h
  obtain ⟨-, -, -, silent, same⟩ | ⟨-, publisher, ⟨l, -, -, pushes, -⟩ | ⟨pushes, -⟩⟩ :=
    publishEntry_cases w root x e q
  · simpa [kept_push_iff, silent.pushes, same] using h
  · simp only [kept_push_iff, publisher, pushes]
    exact ⟨h.alike.trans ⟨rfl, rfl, rfl, rfl, rfl⟩,
      (Dict.get?_put_of_ne _ _ (Ne.symm ne)).trans h.published, h.shown⟩
  · simp only [kept_push_iff, publisher, pushes]
    exact ⟨h.alike.trans ⟨rfl, rfl, rfl, rfl, rfl⟩,
      (Dict.get?_put_of_ne _ _ (Ne.symm ne)).trans h.published,
      by simpa [get?_cons, ne] using h.shown⟩

theorem keeps_clearDropped_of_ne {x : Uri} (ne : x ≠ u) (w : Surroundings) (root : Uri) :
    Keeps push? (Beside u p ps) (clearDropped w root x) := by
  intro q qs h
  obtain ⟨silent, same⟩ | ⟨publisher, pushes, -⟩ := clearDropped_cases w root x q
  · simpa [kept_push_iff, silent.pushes, same] using h
  · simp only [kept_push_iff, publisher, pushes]
    exact ⟨h.alike.trans ⟨rfl, rfl, rfl, rfl, rfl⟩,
      (Dict.get?_erase_of_ne _ (Ne.symm ne)).trans h.published,
      by simpa [get?_cons, ne] using h.shown⟩

theorem keeps_publishOwned_of_ne {b : Uri × DiagnosticEntry} (ne : b.1 ≠ u) (w : Surroundings)
    (root : Uri) : Keeps push? (Beside u p ps) (publishOwned w root b) := by
  intro q qs h
  unfold publishOwned
  split
  · exact keeps_publishEntry_of_ne ne w root b.2 h
  · exact h

/-- What was pushed for the document is no newer than the entry, and something else. -/
def isNew (w : Surroundings) (e : DiagnosticEntry) (last : Option Published) : Bool :=
  last.all fun l => l.version ≤ e.version && l.hash != w.digest.ofDiagnostics e.diagnostics

theorem pushes_publishEntry (w : Surroundings) (root u : Uri) (e : DiagnosticEntry)
    (p : Publisher) :
    (publishEntry w root u e p).pushes =
      if isNew w e (Dict.get? p.published u) then [(u, e.diagnostics)] else [] := by
  simp only [publishEntry, isNew, Digest.ofDiagnostics]
  cases last : Dict.get? p.published u with
  | none => rfl
  | some l =>
    by_cases older : e.version < l.version
    · simp [Option.filter, older, Int.not_le.2 older, Result.pushes, note, push?]
    · by_cases same : l.hash = w.digest.ofValue (.array (e.diagnostics.map Diagnostic.toValue))
      · simp [Option.filter, older, same, Result.pushes, note, push?]
      · simp [Option.filter, older, Int.not_lt.1 older, same, Result.pushes, Result.andThen,
          send, note, push?, List.filterMap_cons]

/-- A document without an entry is left alone by the entries. -/
theorem kept_entries_of_get?_eq_none {entries : Dict Uri DiagnosticEntry}
    (off : Dict.get? entries u = none) (w : Surroundings) (root : Uri) :
    Keeps push? (Beside u p ps) (forEach (publishOwned w root) entries) := by
  refine Keeps.forEach fun b mem => keeps_publishOwned_of_ne (fun isIt => ?_) w root
  have has : Dict.has entries u := Dict.mem_keys_iff.1 (List.mem_map.2 ⟨b, mem, isIt⟩)
  simp [Dict.has, off] at has

/-- All entries together are to a document what its own one is. -/
theorem kept_entries (willing : ∀ x, w.refuses x = none) {entries : Dict Uri DiagnosticEntry}
    (distinct : (Dict.keys entries).Nodup) (entry : Dict.get? entries u = some e) (root : Uri)
    (p : Publisher) (ps : List Push) : ∃ q qs, Beside u p ps q qs ∧
      (forEach (publishOwned w root) entries p).Kept
        push? (Beside u (publishOwned w root (u, e) q).publisher
        ((publishOwned w root (u, e) q).pushes.reverse ++ qs)) ps := by
  obtain ⟨before, behind, rfl, first⟩ := Dict.get?_eq_some_split entry
  have last : ∀ b ∈ behind, b.1 ≠ u := by
    simp only [Dict.keys, List.map_append, List.map_cons, List.nodup_append,
      List.nodup_cons] at distinct
    exact fun b hb same => distinct.2.1.1 (List.mem_map.2 ⟨b, hb, same⟩)
  rw [forEach_append]
  refine ⟨_, _, Keeps.forEach (fun b mem => keeps_publishOwned_of_ne (first b mem) w root)
    (.refl u p ps), ?_⟩
  refine Result.Kept.andThen_of_refused_eq_none (I := fun q qs => q = _ ∧ qs = _) ⟨rfl, rfl⟩
    (refused_forEach (refused_publishOwned willing root) before p) ?_
  rintro _ _ ⟨rfl, rfl⟩
  rw [forEach_cons]
  exact Result.Kept.andThen (.refl _ _ _)
    (Keeps.forEach fun b mem => keeps_publishOwned_of_ne (last b mem) w root)

def Cleared (u : Uri) (q : Publisher) (qs : List Push) : Prop :=
  Dict.get? q.published u = none ∧ Dict.get? qs u = some []

theorem keeps_clearDropped_cleared (w : Surroundings) (root x : Uri) :
    Keeps push? (Cleared u) (clearDropped w root x) := by
  rintro p ps ⟨off, shows⟩
  obtain ⟨silent, same⟩ | ⟨publisher, pushes, -⟩ := clearDropped_cases w root x p
  · simpa only [kept_push_iff, silent.pushes, same] using ⟨off, shows⟩
  · simp only [kept_push_iff, publisher, pushes]
    by_cases isIt : u = x
    · exact ⟨by simp [isIt], by simp [get?_cons, isIt]⟩
    · exact ⟨(Dict.get?_erase_of_ne _ isIt).trans
        off, by simpa [get?_cons, Ne.symm isIt] using shows⟩

theorem kept_clearDropped (own : (Dict.get? q.published u).any (·.root == root)) (w : Surroundings)
    (qs : List Push) :
    (clearDropped w root u q).Kept push? (Cleared u) qs := by
  rw [clearDropped, if_pos own]
  exact ⟨Dict.get?_erase_self _ _, by simp [Result.andThen, send, note, push?, List.filterMap_cons,
    get?_cons]⟩

theorem kept_dropped (willing : ∀ x, w.refuses x = none) {dropped : List Uri} (mem : u ∈ dropped)
    (own : (Dict.get? p.published u).any (·.root == root)) (ps : List Push) :
    (forEach (clearDropped w root) dropped p).Kept push? (Cleared u) ps := by
  have refused (x : Uri) (p : Publisher) : (clearDropped w root x p).refused = none := by
    obtain ⟨silent, -⟩ | ⟨-, -, refused⟩ := clearDropped_cases w root x p
    · exact silent.refused
    · exact refused.trans (willing x)
  -- up to it, the document is where it was, unless it has been cleared already
  have clears {q : Publisher} {qs : List Push} (h : Beside u p ps q qs ∨ Cleared u q qs) :
      (clearDropped w root u q).Kept push? (Cleared u) qs := by
    obtain beside | cleared := h
    · exact kept_clearDropped (beside.published ▸ own) w qs
    · exact keeps_clearDropped_cleared w root u cleared
  refine kept_forEach_of_mem (I := fun q qs => Beside u p ps q qs ∨ Cleared u q qs) mem refused
    (fun x q qs h => ?_)
    (fun q qs => clears) (keeps_clearDropped_cleared w root) (.inl (.refl u p ps))
  by_cases isIt : x = u
  · exact .inr (isIt ▸ clears h)
  · exact h.imp (fun beside => keeps_clearDropped_of_ne isIt w root beside)
      fun cleared => keeps_clearDropped_cleared w root x cleared

/-- Any other document is left alone. -/
theorem keeps_dropped {dropped : List Uri}
    (stays : u ∈ dropped → (Dict.get? p.published u).any (·.root == root) = false)
    (w : Surroundings)
    (ps : List Push) : Keeps push? (Beside u p ps) (forEach (clearDropped w root) dropped) := by
  refine Keeps.forEach fun x mem q qs beside => ?_
  by_cases isIt : x = u
  · subst isIt
    rw [clearDropped, if_neg (by simp [beside.published, stays mem])]
    exact beside
  · exact keeps_clearDropped_of_ne isIt w root beside

/-! ## All of a set -/

/-- What a set pushes for a document: what it says of it, if the root owns the document and that is
new; or nothing any more, if the document dropped out. -/
def pushOf? (w : Surroundings) (set : DiagnosticSet) (p : Publisher) (u : Uri) :
    Option (List Diagnostic) :=
  match Dict.get? set.entries u with
  | some e =>
    if (p.routed set).ownerOf? w u = some set.root ∧ isNew w e (Dict.get? p.published u) then
      some e.diagnostics
    else none
  | none =>
    if ((Dict.get? p.rootDocuments set.root).getD []).contains u ∧
        (Dict.get? p.published u).any (·.root == set.root) then some []
    else none

/-- A set pushes for each document what `pushOf?` says. -/
theorem get?_pushes_publishSet (willing : ∀ x, w.refuses x = none) (alive : p.isDisposed = false)
    (distinct : (Dict.keys set.entries).Nodup) (u : Uri) :
    Dict.get? (p.publishSet w set).pushes.reverse u = pushOf? w set p u := by
  have refused := refused_forEach (refused_publishOwned willing set.root) set.entries (p.routed set)
  have start : Beside u (p.routed set) [] (p.routed set) [] := .refl u _ _
  suffices (p.publishSet w set).Kept push? (fun _ ps => Dict.get? ps u = pushOf? w set p u) [] by
    simpa [kept_push_iff] using this
  rw [publishSet_eq alive, pushOf?]
  cases entry : Dict.get? set.entries u with
  | none =>
    have beside := kept_entries_of_get?_eq_none entry w set.root start
    refine Result.Kept.andThen_of_refused_eq_none beside refused fun q qs beside => ?_
    simp only
    split
    next drops =>
      have mem : u ∈ ((Dict.get? p.rootDocuments set.root).getD []).filter fun u =>
        !Dict.has set.entries u :=
        List.mem_filter.2 ⟨List.contains_iff_mem.1 drops.1, by simp [Dict.has, entry]⟩
      have published : Dict.get? q.published u = Dict.get? p.published u := beside.published
      exact (kept_dropped willing mem (published ▸ drops.2) qs).2
    next stays =>
      have others : u ∈ ((Dict.get? p.rootDocuments set.root).getD []).filter
          (fun u => !Dict.has set.entries u) →
          (Dict.get? p.published u).any (·.root == set.root) = false :=
        fun mem => Bool.eq_false_iff.2 fun own =>
          stays ⟨List.contains_iff_mem.2 (List.mem_filter.1 mem).1, own⟩
      exact (keeps_dropped (p := p.routed set) others w [] beside).shown
  | some e =>
    obtain ⟨q, qs, beside, kept⟩ := kept_entries willing distinct entry set.root (p.routed set) []
    have others : u ∈ ((Dict.get? p.rootDocuments set.root).getD []).filter
        (fun u => !Dict.has set.entries u) →
        (Dict.get? (publishOwned w set.root (u, e) q).publisher.published u).any
          (·.root == set.root) = false :=
      fun mem => by simp [Dict.has, entry] at mem
    refine (kept.andThen (keeps_dropped others w _)).shown.trans ?_
    have published : Dict.get? q.published u = Dict.get? p.published u := beside.published
    rw [Dict.get?_append, beside.shown, Dict.get?_nil, Option.or_none, publishOwned]
    simp only [beside.alike.ownerOf? w u]
    by_cases owns : (p.routed set).ownerOf? w u = some set.root
    · rw [if_pos owns, pushes_publishEntry, published]
      by_cases new : isNew w e (Dict.get? p.published u)
      · simp [owns, new, get?_cons]
      · simp [new]
    · rw [if_neg owns, if_neg fun h => owns h.1]
      rfl

end Publisher

end Quill
