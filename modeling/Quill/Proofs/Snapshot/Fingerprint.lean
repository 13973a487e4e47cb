import Quill.Proofs.Value.Canonical
import Quill.Snapshot.Basic

/-!
# What a fingerprint is computed from

The canonical text that is digested for a fingerprint tells everything that went into it: the scope,
the documents with their versions, contents and origins, and the settings, whose inputs have no
order.

## Main definitions

* `FingerprintInput.IsPlain` — no input of the settings twice, and versions that a number can hold.
* `FingerprintInput.Same` — the same scope, documents and settings.
* `FingerprintInput.canonical_exact` — canonical texts are equal exactly for the same data.
-/

namespace Quill

theorem Scope.head?_label (s : Scope) : s.label.head? = s.word.head? := by cases s <;> rfl

theorem Scope.label_inj {s t : Scope} : s.label = t.label ↔ s = t := by
  refine ⟨fun eq => ?_, congrArg label⟩
  have kind : s.word.head? = t.word.head? := by rw [← head?_label, ← head?_label, eq]
  cases s <;> cases t <;> simp only [word] at kind
  case document.document u v =>
    have eq : (document u).word ++ ":" ++ u = (document u).word ++ ":" ++ v := eq
    exact congrArg document (List.append_cancel_left eq)
  case file.file u v =>
    have eq : (file u).word ++ ":" ++ u = (file u).word ++ ":" ++ v := eq
    exact congrArg file (List.append_cancel_left eq)
  case workspace.workspace => rfl
  all_goals exact absurd kind (by decide)

theorem Origin.word_injective : Function.Injective Origin.word := by
  intro a b eq
  cases a <;> cases b <;> first | rfl | exact absurd eq (by decide)

/-! ### Fingerprints -/

namespace FingerprintInput

def entry (d : SnapshotDocument) : Uri × ℤ × Text × Origin :=
  (d.uri, d.version, d.contentHash, d.origin)

/-- Whether no input of the settings is given twice, and every version is an integer that a number
can hold. -/
structure IsPlain (i : FingerprintInput) : Prop where
  distinct : (Dict.keys i.settings.inputs).Nodup
  exact : ∀ d ∈ i.documents, (Number.ofInt d.version).toInt? = some d.version

structure Same (i j : FingerprintInput) : Prop where
  scope : i.scope = j.scope
  documents : i.documents.map entry = j.documents.map entry
  inputs : ∀ name, Dict.get? i.settings.inputs name = Dict.get? j.settings.inputs name
  fontRevision : i.settings.fontRevision = j.settings.fontRevision

def entryValue (d : SnapshotDocument) : Value :=
  .array [.text d.uri, .int d.version, .text d.contentHash, .text d.origin.word]

/-- What a fingerprint holds of a document, as data. -/
def entryMeaning (e : Uri × ℤ × Text × Origin) : Meaning :=
  .array [.text e.1, .number e.2.1, .text e.2.2.1, .text e.2.2.2.word]

theorem entryMeaning_injective : Function.Injective entryMeaning := by
  rintro ⟨u, v, h, o⟩ ⟨u', v', h', o'⟩ eq
  simp only [entryMeaning, Meaning.array.injEq, List.cons.injEq, Meaning.text.injEq,
    Meaning.number.injEq, Int.cast_inj, and_true] at eq
  obtain ⟨rfl, rfl, rfl, word⟩ := eq
  rw [Origin.word_injective word]

theorem meaning_entryValue {d : SnapshotDocument}
    (exact : (Number.ofInt d.version).toInt? = some d.version) :
    (entryValue d).meaning = entryMeaning (entry d) := by
  simp only [entryValue, Value.meaning, Value.meaningItems, Value.int,
    Number.toRat_eq_of_toInt? exact]
  rfl

variable {i j : FingerprintInput}

theorem IsPlain.documents_eq_iff (hi : i.IsPlain) (hj : j.IsPlain) :
    i.documents.map (fun d => (entryValue d).meaning) =
      j.documents.map (fun d => (entryValue d).meaning) ↔
      i.documents.map entry = j.documents.map entry := by
  have meanings {k : FingerprintInput} (hk : k.IsPlain) :
      k.documents.map (fun d => (entryValue d).meaning) =
        (k.documents.map entry).map entryMeaning := by
    rw [List.map_map]
    exact List.map_congr_left fun d hd => meaning_entryValue (hk.exact d hd)
  rw [meanings hi, meanings hj]
  exact (List.map_injective_iff.2 entryMeaning_injective).eq_iff

/-- The inputs of settings are the same data when every name has the same input. -/
theorem inputs_eq_iff (a b : Dict Text Text) :
    (Value.object (a.map fun e => (e.1, .text e.2))).meaning =
        (Value.object (b.map fun e => (e.1, .text e.2))).meaning ↔
      ∀ name, Dict.get? a name = Dict.get? b name := by
  have lookup (d : Dict Text Text) (name : Text) :
      Value.meaningField (d.map fun e => (e.1, .text e.2)) name = (Dict.get? d name).map .text := by
    rw [Value.meaningField_eq, Dict.get?_map fun e : Text × Text => Value.text e.2, Option.map_map]
    congr 1
  simp only [Value.meaning, Meaning.object.injEq, funext_iff, lookup]
  refine forall_congr' fun name => (Option.map_injective ?_).eq_iff
  exact fun t u eq => Meaning.text.inj eq

theorem settings_eq_iff (a b : CompileSettings) :
    (settingsValue a).meaning = (settingsValue b).meaning ↔
      (∀ name, Dict.get? a.inputs name = Dict.get? b.inputs name) ∧ a.fontRevision =
        b.fontRevision := by
  have distinct : (["inputs", "fontRevision"].map Text.ofString).Nodup := by decide
  rw [settingsValue, settingsValue, ← inputs_eq_iff, Value.meaning_record_eq_iff]
  · simp only [List.map_cons, List.map_nil, List.cons.injEq, and_true]
    exact and_congr_right fun _ => ⟨Meaning.text.inj, congrArg _⟩
  · rfl
  · exact distinct

theorem IsPlain.toValue_eq_iff (hi : i.IsPlain) (hj : j.IsPlain) :
    i.toValue.meaning = j.toValue.meaning ↔ i.Same j := by
  have documents (k : FingerprintInput) : (Value.array (k.documents.map entryValue)).meaning =
      .array (k.documents.map fun d => (entryValue d).meaning) := by
    rw [Value.meaning, Value.meaningItems_eq, List.map_map]
    rfl
  have distinct : (["scope", "documents", "config"].map Text.ofString).Nodup := by decide
  rw [toValue, toValue, Value.meaning_record_eq_iff]
  rotate_left
  · rfl
  · exact distinct
  simp only [List.map_cons, List.map_nil, List.cons.injEq, and_true, settings_eq_iff]
  constructor
  · rintro ⟨scope, listed, inputs, fontRevision⟩
    have listed := Meaning.array.inj ((documents i).symm.trans (listed.trans (documents j)))
    exact ⟨Meaning.text.inj scope, (hi.documents_eq_iff hj).1 listed, inputs, fontRevision⟩
  · rintro ⟨scope, listed, inputs, fontRevision⟩
    have listed := congrArg Meaning.array ((hi.documents_eq_iff hj).2 listed)
    exact ⟨congrArg Meaning.text scope, (documents i).trans (listed.trans (documents j).symm),
      inputs, fontRevision⟩

theorem isPlain_entryValue {d : SnapshotDocument}
    (exact : (Number.ofInt d.version).toInt? = some d.version) : (entryValue d).IsPlain := by
  refine .array fun v hv => ?_
  simp only [List.mem_cons, List.not_mem_nil, or_false] at hv
  rcases hv with rfl | rfl | rfl | rfl
  · exact .text _
  · exact Value.isPlain_int exact
  · exact .text _
  · exact .text _

theorem isPlain_settingsValue {s : CompileSettings} (distinct : (Dict.keys s.inputs).Nodup) :
    (settingsValue s).IsPlain := by
  have names : (["inputs", "fontRevision"].map Text.ofString).Nodup := by decide
  refine Value.isPlain_record names fun f hf => ?_
  simp only [List.mem_cons, List.not_mem_nil, or_false] at hf
  rcases hf with rfl | rfl
  · refine .object ?_ fun f hf => ?_
    · rw [Dict.keys, List.map_map]
      exact distinct
    · obtain ⟨e, -, rfl⟩ := List.mem_map.1 hf
      exact .text _
  · exact .text _

theorem IsPlain.toValue (h : i.IsPlain) : i.toValue.IsPlain := by
  have names : (["scope", "documents", "config"].map Text.ofString).Nodup := by decide
  refine Value.isPlain_record names fun f hf => ?_
  simp only [List.mem_cons, List.not_mem_nil, or_false] at hf
  rcases hf with rfl | rfl | rfl
  · exact .text _
  · refine .array fun v hv => ?_
    obtain ⟨d, hd, rfl⟩ := List.mem_map.1 hv
    exact isPlain_entryValue (h.exact d hd)
  · exact isPlain_settingsValue h.distinct

/-- Canonical texts tell values apart that are different data, and no others; so fingerprints are
computed from one text exactly for the same scope, documents and settings. -/
theorem canonical_exact :
    (∀ v w : Value, v.IsPlain → w.IsPlain → (v.canonical = w.canonical ↔ v.meaning = w.meaning)) ∧
      (∀ i j : FingerprintInput, i.IsPlain → j.IsPlain →
        (i.toValue.canonical = j.toValue.canonical ↔ i.Same j)) ∧
      ∀ s t : Scope, s.label = t.label ↔ s = t := by
  refine ⟨fun v w hv hw => Value.canonical_eq_iff hv hw, fun i j hi hj => ?_,
    fun s t => Scope.label_inj⟩
  rw [Value.canonical_eq_iff hi.toValue hj.toValue, hi.toValue_eq_iff hj]

def single (version : ℤ) (inputs : Dict Text Text) : FingerprintInput where
  scope := "workspace"
  documents := [⟨"file:///a.quill", "= A", version, "c0", .memory⟩]
  settings := ⟨inputs, "default"⟩

theorem isPlain_single {version : ℤ} {inputs : Dict Text Text} (distinct : (Dict.keys inputs).Nodup)
    (exact : (Number.ofInt version).toInt? = some version) : (single version inputs).IsPlain :=
  ⟨distinct, fun d hd => by rw [List.mem_singleton.1 hd]; exact exact⟩

/-- Inputs in another order leave the text as it is, and the next version changes it; so does
another order of the items of an array. -/
theorem canonical_exact_single :
    (single 3 [("x", "1"), ("y", "2")]).toValue.canonical =
        (single 3 [("y", "2"), ("x", "1")]).toValue.canonical ∧
      (single 3 []).toValue.canonical ≠ (single 4 []).toValue.canonical ∧
      (Value.array [.int 12, .null]).canonical ≠ (Value.array [.null, .int 12]).canonical := by
  obtain ⟨values, inputs, -⟩ := canonical_exact
  have three : (Number.ofInt 3).toInt? = some 3 := by decide +kernel
  have four : (Number.ofInt 4).toInt? = some 4 := by decide +kernel
  have twelve : (Number.ofInt 12).toInt? = some 12 := by decide +kernel
  refine ⟨?_, fun eq => ?_, fun eq => ?_⟩
  · refine (inputs _ _ (isPlain_single (by decide) three) (isPlain_single (by decide) three)).2
      ⟨rfl, rfl, fun name => ?_, rfl⟩
    by_cases x : ("x" : Text) = name
    · subst x
      decide
    · by_cases y : ("y" : Text) = name <;> simp [single, Dict.get?, x, y]
  · have same := (inputs _ _ (isPlain_single (by decide) three) (isPlain_single (by decide) four)).1
        eq
    exact absurd same.documents (by decide)
  · have plain : ∀ x ∈ [Value.int 12, .null], x.IsPlain := by
      rintro x (_ | ⟨_, _ | ⟨_, ⟨⟩⟩⟩)
      · exact Value.isPlain_int twelve
      · exact .null
    have same := (values _ _ (.array plain) (.array fun x hx => plain x (by
      simpa [or_comm] using hx))).1 eq
    simp [Value.meaning, Value.meaningItems, Value.int] at same

end FingerprintInput

end Quill
