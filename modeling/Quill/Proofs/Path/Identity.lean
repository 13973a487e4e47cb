import Quill.Engine.Operations
import Quill.Path.Document
import Quill.Proofs.Path.FileUri

/-!
# The identity of an identity

The identity of a document is handed to clients, and they name the document by it. It names the same
document again, unless working off dots has brought something to its front that is itself read in
another way: a drive in upper case, or the scheme of file uris.

A client of the protocol names a document by a uri and is told of it by the uri of the identity.
Where all octets of a path are escaped that do not stand for themselves, reading that again gives
the same identity, unless the path has a surrogate without its partner: that has no octets of its
own. The uri that is written also loses the control units at its end.

## Main definitions

* `Uri.Drifts` — the identities that name another document when they come back.
* `Uri.IsClientInput` — what clients of the protocol send.
* `FileUri.Escapes` — a way of writing paths that escapes every octet, and `FileUri.escaped`, the
  plain one.
* `Uri.IsWritable` — the identities whose uri comes back from the way that is used.

## Main statements

* `Uri.ofInput_ofInput` — identities that do not drift name the same document, to every operation of
  an engine.
* `Uri.ofInput_toProtocolBy_iff` — the identities of what clients send come back, where every octet
  is escaped, exactly if their paths are well-formed.
* `Uri.ofInput_toProtocol_iff` — in the way that is used they come back exactly if they are
  writable.
-/

namespace Quill.Uri

variable {s t : Text} {u : UInt16}

/-! ## Paths -/

theorem not_hasDrive_of_isAbsolute (absolute : Posix.isAbsolute t) : hasDrive t = false := by
  match t, absolute with
  | [_], _ => rfl
  | [_, _], _ => rfl
  | a :: _ :: _ :: _, absolute =>
    obtain rfl : a = Posix.slash := by simpa [Posix.isAbsolute] using absolute
    rfl

theorem lowerDrive_of_not_hasDrive (noDrive : hasDrive t = false) : lowerDrive t = t := by
  rw [lowerDrive.eq_def, if_neg (by simp [noDrive])]

theorem withSlashes_eq_self (none : Text.unit '\\' ∉ t) : withSlashes t = t := by
  refine (List.map_congr_left fun u mem => ?_).trans (List.map_id t)
  exact if_neg fun eq : (u == Text.unit '\\') = true => none (beq_iff_eq.1 eq ▸ mem)

theorem backslash_not_mem_withSlashes (t : Text) : Text.unit '\\' ∉ withSlashes t := fun mem => by
  obtain ⟨u, -, eq⟩ := List.mem_map.1 mem
  split at eq
  · exact absurd eq (by decide)
  next other => exact other (beq_iff_eq.2 eq)

theorem exists_of_hasDrive (drive : hasDrive t) (slashes : Text.unit '\\' ∉ t) :
    ∃ a rest, t = [a, Text.unit ':'] ++ Posix.slash :: rest ∧ FileUri.isLetter a := by
  match t, drive with
  | a :: b :: c :: rest, drive =>
    simp only [hasDrive, Bool.and_eq_true, beq_iff_eq, FileUri.isSlash, Bool.or_eq_true] at drive
    obtain ⟨⟨letter, rfl⟩, rfl | rfl⟩ := drive
    · exact ⟨a, rest, rfl, letter⟩
    · simp at slashes

theorem isName_drive (letter : FileUri.isLetter u) : Posix.IsName [u, Text.unit ':'] := by
  refine ⟨⟨by simp, fun mem => ?_⟩, fun eq => ?_, fun eq => ?_⟩
  · rcases List.mem_cons.1 mem with rfl | mem
    · exact absurd letter (by decide)
    · exact absurd mem (by decide)
  · exact absurd (congrArg List.length eq) (by decide : 2 ≠ 1)
  · exact absurd (congrArg List.getLast? eq)
      (by decide : some (Text.unit ':') ≠ some (Text.unit '.'))

theorem isLetter_lower (letter : FileUri.isLetter u) : FileUri.isLetter (FileUri.lower u) := by
  simp only [FileUri.isLetter, FileUri.lower, Bool.or_eq_true, Bool.and_eq_true, decide_eq_true_eq,
    UInt16.le_iff_toNat_le, UInt16.reduceToNat] at letter ⊢
  split
  · have : (u + 32).toNat = (u.toNat + 32) % 65536 := UInt16.toNat_add u 32
    omega
  · exact letter

theorem isNormal_lowerDrive (normal : Posix.IsNormal t) (slashes : Text.unit '\\' ∉ t) :
    Posix.IsNormal (lowerDrive t) := by
  by_cases drive : hasDrive t
  · obtain ⟨a, rest, rfl, letter⟩ := exists_of_hasDrive drive slashes
    rw [lowerDrive.eq_def, if_pos drive]
    exact normal.replace_first (isName_drive letter) (isName_drive (isLetter_lower letter))
  · rwa [lowerDrive_of_not_hasDrive (by simpa using drive)]

theorem mem_of_mem_lowerDrive (mem : u ∈ lowerDrive t) : u ∈ t ∨ FileUri.isLetter u := by
  by_cases drive : hasDrive t
  · match t, drive with
    | a :: b :: c :: rest, drive =>
      have letter : FileUri.isLetter a := by
        simp only [hasDrive, Bool.and_eq_true] at drive
        exact drive.1.1
      rw [lowerDrive.eq_def, if_pos drive] at mem
      rcases List.mem_cons.1 mem with rfl | mem
      · exact .inr (isLetter_lower letter)
      · exact .inl (.tail a mem)
  · rw [lowerDrive_of_not_hasDrive (by simpa using drive)] at mem
    exact .inl mem

/-- A path is kept with forward slashes. -/
theorem backslash_not_mem_normalizePath (t : Text) : Text.unit '\\' ∉ normalizePath t :=
  fun mem => by
  rcases Posix.mem_of_mem_normalize mem with mem | eq | eq
  · rcases mem_of_mem_lowerDrive mem with mem | letter
    · exact backslash_not_mem_withSlashes t mem
    · exact absurd letter (by decide)
  · exact absurd eq (by decide)
  · exact absurd eq (by decide)

theorem isNormal_normalizePath (t : Text) : Posix.IsNormal (normalizePath t) :=
  Posix.isNormal_normalize _

theorem isAbsolute_normalizePath (absolute : Posix.isAbsolute t) :
    Posix.isAbsolute (normalizePath t) := by
  have rooted : Posix.isAbsolute (withSlashes t) := by
    obtain ⟨rest, rfl⟩ : ∃ rest, t = Posix.slash :: rest := by
      cases t <;> simp_all [Posix.isAbsolute]
    rfl
  rw [normalizePath, lowerDrive_of_not_hasDrive (not_hasDrive_of_isAbsolute rooted)]
  exact Posix.isAbsolute_normalize rooted

/-- A kept path is kept again, but for the case of its drive. -/
theorem normalizePath_eq_lowerDrive (normal : Posix.IsNormal t) (slashes : Text.unit '\\' ∉ t) :
    normalizePath t = lowerDrive t := by
  rw [normalizePath, withSlashes_eq_self slashes, (isNormal_lowerDrive normal slashes).normalize]

/-! ## Identities -/

/-- What is read in another way when it comes back: as a path with a drive in upper case, or as the
uri of a file. -/
def Drifts (u : Uri) : Prop :=
  lowerDrive u ≠ u ∨ u.startsWith FileUri.scheme ∧ (FileUri.path? u).isSome

instance (u : Uri) : Decidable (Drifts u) := inferInstanceAs (Decidable (_ ∨ _))

theorem isPathLike_of_isAbsolute (absolute : Posix.isAbsolute t) :
    isPathLike t := by simp [isPathLike, absolute]

theorem not_hasDrive_of_not_isPathLike (elsewhere : isPathLike t = false) : hasDrive t = false := by
  simp only [isPathLike, Bool.or_eq_false_iff] at elsewhere
  exact elsewhere.1.2

theorem ofInput_of_isPathLike (path : isPathLike (stripFile s)) :
    ofInput s = normalizePath (stripFile s) := by
  rw [ofInput, if_pos path]

theorem ofInput_of_not_isPathLike (elsewhere : isPathLike (stripFile s) = false) :
    ofInput s = stripFile s := by
  rw [ofInput, if_neg (by simp [elsewhere])]

/-- The path of a file uri is one from the root, and everything else stays as it is. -/
theorem stripFile_cases (t : Text) :
    ((t.startsWith FileUri.scheme ∧ (FileUri.path? t).isSome) ∧ Posix.isAbsolute (stripFile t)) ∨
      (¬ (t.startsWith FileUri.scheme ∧ (FileUri.path? t).isSome) ∧ stripFile t = t) := by
  unfold stripFile
  split
  next file =>
    cases read : FileUri.path? t with
    | none => exact .inr ⟨by simp, rfl⟩
    | some p => exact .inl ⟨⟨file, rfl⟩, FileUri.isAbsolute_of_path? read⟩
  next other => exact .inr ⟨fun h => other h.1, rfl⟩

theorem ne_of_startsWith_scheme (file : t.startsWith FileUri.scheme)
    (absolute : Posix.isAbsolute s) : s ≠ t := by
  rintro rfl
  obtain ⟨rest, rfl⟩ := List.isPrefixOf_iff_prefix.1 file
  have first : (FileUri.scheme ++ rest).head? = some (Text.unit 'f') := rfl
  simp only [Posix.isAbsolute, first] at absolute
  exact absurd absolute (by decide)

/-- What an input is kept as: a normal path with forward slashes, or any text that is no path. -/
def IsKept (u : Uri) : Prop := isPathLike u → Posix.IsNormal u ∧ Text.unit '\\' ∉ u

theorem isKept_ofInput (s : Text) : IsKept (ofInput s) := by
  cases path : isPathLike (stripFile s) with
  | true =>
    rw [ofInput_of_isPathLike path]
    exact fun _ => ⟨isNormal_normalizePath _, backslash_not_mem_normalizePath _⟩
  | false =>
    rw [ofInput_of_not_isPathLike path]
    exact fun isPath => by simp [path] at isPath

theorem IsKept.ofInput_eq_iff {u : Uri} (kept : IsKept u) : ofInput u = u ↔ ¬ Drifts u := by
  obtain ⟨file, absolute⟩ | ⟨noFile, same⟩ := stripFile_cases u
  · have path := isPathLike_of_isAbsolute absolute
    refine iff_of_false ?_ (not_not_intro (.inr file))
    rw [ofInput_of_isPathLike path]
    exact ne_of_startsWith_scheme file.1 (isAbsolute_normalizePath absolute)
  · have drifts : Drifts u ↔ lowerDrive u ≠ u := or_iff_left noFile
    rw [drifts, ne_eq, Decidable.not_not]
    cases path : isPathLike u with
    | true =>
      obtain ⟨normal, slashes⟩ := kept path
      rw [ofInput_of_isPathLike (by rwa [same]), same, normalizePath_eq_lowerDrive normal slashes]
    | false =>
      rw [ofInput_of_not_isPathLike (by rwa [same]), same]
      exact iff_of_true rfl (lowerDrive_of_not_hasDrive (not_hasDrive_of_not_isPathLike path))

/-- An identity that comes back names the same document exactly if it does not drift; every
operation of an engine then takes it for what was handed in. -/
theorem ofInput_ofInput (s : Text) :
    (ofInput (ofInput s) = ofInput s ↔ ¬ Drifts (ofInput s)) ∧
      (¬ Drifts (ofInput s) → ∀ e : Engine,
        (∀ text version language, e.open (ofInput s) text version language =
          e.open s text version language) ∧
        (∀ changes version, e.edit (ofInput s) changes version = e.edit s changes version) ∧
        e.close (ofInput s) = e.close s ∧
        (∀ ticket, e.compile ticket (ofInput s) = e.compile ticket s) ∧
        e.pinMain (some (ofInput s)) = e.pinMain (some s) ∧
        ∀ source, e.focusMain (some (ofInput s)) source = e.focusMain (some s) source) := by
  have canonical := (isKept_ofInput s).ofInput_eq_iff
  refine ⟨canonical, fun stays e => ?_⟩
  have same := canonical.2 stays
  simp only [Engine.open, Engine.edit, Engine.close, Engine.compile, Engine.pinMain,
    Engine.focusMain, Store.open,
    Store.edit, Store.close, Option.map_some, same, implies_true, and_self]

theorem ofInput_ofInput_backslashes :
    let e := Engine.start (.ofCompiler .quill .sha256) .default
    ¬ Drifts (ofInput ".\\..\\C:\\.\\a.quill") ∧
      ofInput (ofInput ".\\..\\C:\\.\\a.quill") = ofInput ".\\..\\C:\\.\\a.quill" ∧
      e.pinMain (some (ofInput ".\\..\\C:\\.\\a.quill")) =
        e.pinMain (some ".\\..\\C:\\.\\a.quill") := by
  have stays : ¬ Drifts (ofInput ".\\..\\C:\\.\\a.quill") := by decide +kernel
  obtain ⟨canonical, same⟩ := ofInput_ofInput ".\\..\\C:\\.\\a.quill"
  exact ⟨stays, canonical.2 stays, (same stays _).2.2.2.2.1⟩

/-- Working off the dots in front of a drive brings it to the front, in upper case. -/
theorem not_ofInput_ofInput : ofInput (ofInput "./C:/a.quill") ≠ ofInput "./C:/a.quill" := by
  decide +kernel

end Quill.Uri

namespace Quill

/-! ## Repaired paths -/

namespace Posix

variable {s p last : Text} {names : List Text}

theorem isName_repaired (name : IsName s) : IsName s.repaired where
  ne_nil eq := name.ne_nil (List.length_eq_zero_iff.1 (by rw [← Text.length_repaired, eq]; rfl))
  apart mem := name.apart (Text.mem_of_mem_repaired mem (by decide))
  stays eq := name.stays (Text.eq_of_repaired_eq eq (by decide))
  down eq := name.down (Text.eq_of_repaired_eq eq (by decide))

theorem repaired_fromRoot (names : List Text) (last : Text) :
    (fromRoot names last).repaired = fromRoot (names.map Text.repaired) last.repaired := by
  have through := Text.repaired_append_cons (u := slash) rfl rfl
  rw [fromRoot_eq_join, fromRoot_eq_join, ← List.nil_append (slash :: _), through [],
    Text.map_join rfl through, List.map_append]
  rfl

theorem isNormal_repaired (normal : IsNormal p) (absolute : isAbsolute p) :
    IsNormal p.repaired ∧ isAbsolute p.repaired := by
  obtain ⟨names, last, proper, properLast, rfl⟩ := exists_fromRoot normal absolute
  rw [repaired_fromRoot]
  refine ⟨isNormal_fromRoot (fun r mem => ?_) fun ne => isName_repaired
    (properLast fun eq => ne (by rw [eq]; rfl)), rfl⟩
  obtain ⟨s, inside, rfl⟩ := List.mem_map.1 mem
  exact isName_repaired (proper s inside)

end Posix

namespace Uri

variable {s t u p : Text}

/-! ## What clients send -/

/-- The inputs that clients send: a path from the root, a file uri or a uri of another scheme. -/
def IsClientInput (s : Text) :
    Prop := Posix.isAbsolute s ∨ s.startsWith FileUri.scheme ∨ hasScheme s

theorem hasScheme_of_startsWith (file : t.startsWith FileUri.scheme) : hasScheme t := by
  obtain ⟨rest, rfl⟩ := List.isPrefixOf_iff_prefix.1 file
  have split : FileUri.scheme ++ rest = Text.unit 'f' :: ("ile:" ++ rest) := rfl
  have tail : (Text.ofString "ile:" ++ rest).dropWhile isSchemeUnit = Text.unit ':' :: rest := rfl
  have letter : FileUri.isLetter (Text.unit 'f') = true := by decide
  rw [split, hasScheme, tail, letter]
  simp [Text.ofString, Text.unitsOf]

theorem not_isPathLike_of_hasScheme (scheme : hasScheme t) : isPathLike t = false := by
  match t, scheme with
  | u :: rest, scheme =>
    have drive : hasDrive (u :: rest) = false := by
      match rest, scheme with
      | [], _ => rfl
      | [_], _ => rfl
      | b :: c :: rest, scheme =>
        refine Bool.eq_false_iff.2 fun drive => ?_
        obtain rfl : b = Text.unit ':' := by
          simp only [hasDrive, Bool.and_eq_true, beq_iff_eq] at drive
          exact drive.1.2
        have stops : (Text.unit ':' :: c :: rest).dropWhile isSchemeUnit = Text.unit ':' ::
            c :: rest := rfl
        simp [hasScheme, stops] at scheme
    have relative : Posix.isAbsolute (u :: rest) = false := by
      refine Bool.eq_false_iff.2 fun absolute => ?_
      obtain rfl : u = Posix.slash := by simpa [Posix.isAbsolute] using absolute
      have noLetter : FileUri.isLetter Posix.slash = false := by decide
      simp [hasScheme, noLetter] at scheme
    simp [isPathLike, scheme, drive, relative]

/-- What clients send is kept as a path from the root, or as it is because it is no file. -/
theorem IsClientInput.cases (client : IsClientInput s) : Posix.isAbsolute (ofInput s) ∨
    ofInput s = s ∧ isPathLike s = false := by
  obtain ⟨-, absolute⟩ | ⟨-, same⟩ := stripFile_cases s
  · rw [ofInput_of_isPathLike (isPathLike_of_isAbsolute absolute)]
    exact .inl (isAbsolute_normalizePath absolute)
  · obtain absolute | file | scheme := client
    · rw [ofInput_of_isPathLike (by rw [same]; exact isPathLike_of_isAbsolute absolute), same]
      exact .inl (isAbsolute_normalizePath absolute)
    · have elsewhere := not_isPathLike_of_hasScheme (hasScheme_of_startsWith file)
      exact .inr ⟨by rw [ofInput_of_not_isPathLike (by rwa [same]), same], elsewhere⟩
    · have elsewhere := not_isPathLike_of_hasScheme scheme
      exact .inr ⟨by rw [ofInput_of_not_isPathLike (by rwa [same]), same], elsewhere⟩

/-! ## There and back -/

end Uri

namespace FileUri

/-- A way of writing the uris of paths: the path as seen from the root, every octet that does not
stand for itself as an escape. -/
structure Escapes (ofPath : Text → Text) : Prop where
  absolute {p : Text} (absolute : Posix.isAbsolute p) :
    ofPath p = scheme ++ "//" ++ Percent.encode isPlain (resolved p)

def escaped (p : Text) : Text := scheme ++ "//" ++ Percent.encode isPlain (resolved p)

theorem escapes_escaped : Escapes escaped := ⟨fun _ => rfl⟩

/-- A normal path from the root is written as it is. -/
theorem Escapes.ofPath_of_isNormal {ofPath : Text → Text} {p : Text} (escapes : Escapes ofPath)
    (normal : Posix.IsNormal p) (absolute : Posix.isAbsolute p) :
    ofPath p = scheme ++ "///" ++ Percent.encode isPlain (p.drop 1) := by
  obtain ⟨rest, rfl⟩ : ∃ rest, p = Posix.slash :: rest := by
    cases p <;> simp_all [Posix.isAbsolute]
  have cut := encode_append_slash [] rest
  rw [List.nil_append] at cut
  rw [escapes.absolute absolute, resolved_eq_self normal absolute, cut]
  rfl

end FileUri

namespace Uri

variable {s : Text} {p : Text}

/-- The uri of a normal path, read again: the repaired path. -/
theorem ofInput_written (normal : Posix.IsNormal p) (absolute : Posix.isAbsolute p)
    (slashes : Text.unit '\\' ∉ p) :
    ofInput (FileUri.scheme ++ "///" ++ Percent.encode FileUri.isPlain (p.drop 1)) =
      p.repaired := by
  have file : (FileUri.scheme ++ "///" ++ Percent.encode FileUri.isPlain (p.drop 1)).startsWith
      FileUri.scheme := by
    rw [List.append_assoc]
    exact List.isPrefixOf_iff_prefix.2 (List.prefix_append _ _)
  have read : stripFile (FileUri.scheme ++ "///" ++ Percent.encode FileUri.isPlain (p.drop 1)) =
      p.repaired := by
    rw [stripFile, if_pos file, FileUri.path?_of_isNormal normal absolute, Option.getD_some]
  obtain ⟨normal', absolute'⟩ := Posix.isNormal_repaired normal absolute
  rw [ofInput_of_isPathLike (by rw [read]; exact isPathLike_of_isAbsolute absolute'), read,
    normalizePath_eq_lowerDrive normal' fun mem =>
      slashes (Text.mem_of_mem_repaired mem (by decide)),
    lowerDrive_of_not_hasDrive (not_hasDrive_of_isAbsolute absolute')]

theorem ofInput_written_eq_iff (normal : Posix.IsNormal p) (absolute : Posix.isAbsolute p)
    (slashes : Text.unit '\\' ∉ p) :
    ofInput (FileUri.scheme ++ "///" ++ Percent.encode FileUri.isPlain (p.drop 1)) = p ↔
    Text.IsWellFormed p := by
  rw [ofInput_written normal absolute slashes]
  exact ⟨fun eq => eq ▸ Text.isWellFormed_repaired p, Text.IsWellFormed.repaired⟩

/-- What a client is told of comes back if the path does, and always if it is no path. -/
theorem IsClientInput.ofInput_toProtocolBy_eq_iff (client : IsClientInput s)
    (ofPath : Text → Text) :
    ofInput (toProtocolBy ofPath (ofInput s)) = ofInput s ↔
      (isPathLike (ofInput s) → ofInput (ofPath (ofInput s)) = ofInput s) := by
  obtain absolute | ⟨same, elsewhere⟩ := client.cases
  · have path := isPathLike_of_isAbsolute absolute
    rw [toProtocolBy, if_pos path]
    exact ⟨fun comesBack _ => comesBack, fun comesBack => comesBack path⟩
  · rw [same, toProtocolBy, if_neg (by simp [elsewhere]), same]
    exact iff_of_true rfl fun path => by simp [elsewhere] at path

/-- What clients send and is kept as a path is kept as a path from the root. -/
theorem IsClientInput.isAbsolute_of_isPathLike (client : IsClientInput s)
    (path : isPathLike (ofInput s)) :
    Posix.isAbsolute (ofInput s) := by
  obtain absolute | ⟨same, elsewhere⟩ := client.cases
  · exact absolute
  · simp [same, elsewhere] at path

/-- Where every octet is escaped, what a client is told of comes back exactly if it is no path or
every surrogate in it has its partner. -/
theorem ofInput_toProtocolBy_iff {ofPath : Text → Text} (escapes : FileUri.Escapes ofPath)
    (client : IsClientInput s) :
    ofInput (toProtocolBy ofPath (ofInput s)) = ofInput s ↔
      (isPathLike (ofInput s) → Text.IsWellFormed (ofInput s)) := by
  rw [client.ofInput_toProtocolBy_eq_iff]
  refine forall_congr' fun path => ?_
  obtain ⟨normal, slashes⟩ := isKept_ofInput s path
  have absolute := client.isAbsolute_of_isPathLike path
  rw [escapes.ofPath_of_isNormal normal absolute, ofInput_written_eq_iff normal absolute slashes]

theorem ofInput_toProtocolBy_escaped :
    FileUri.Escapes FileUri.escaped ∧ IsClientInput "file:///ws/./50%25%20%F0%9F%98%80/%01" ∧
      ofInput (toProtocolBy FileUri.escaped (ofInput "file:///ws/./50%25%20%F0%9F%98%80/%01")) =
        ofInput "file:///ws/./50%25%20%F0%9F%98%80/%01" := by
  have client : IsClientInput "file:///ws/./50%25%20%F0%9F%98%80/%01" := .inr (.inl (by decide))
  have path : ofInput "file:///ws/./50%25%20%F0%9F%98%80/%01" = Text.ofString "/ws/50% 😀/\x01" := by
    decide +kernel
  refine ⟨FileUri.escapes_escaped, client,
    (ofInput_toProtocolBy_iff FileUri.escapes_escaped client).2 fun _ => ?_⟩
  rw [path]
  exact Text.isWellFormed_ofString _

/-- A surrogate without its partner comes back as U+FFFD, in the way that is used too. -/
theorem not_ofInput_toProtocolBy :
    let s := Text.ofString "/a" ++ [0xD800]
    FileUri.Escapes FileUri.escaped ∧ IsClientInput s ∧
      ofInput (toProtocolBy FileUri.escaped (ofInput s)) ≠ ofInput s ∧
      ofInput (toProtocol (ofInput s)) ≠ ofInput s :=
  ⟨FileUri.escapes_escaped, .inl (by decide), by decide +kernel, by decide +kernel⟩

/-! ## The way that is used -/

/-- A path whose uri comes back: every surrogate has its partner, and nothing vanishes at the
end. -/
def IsWritable (u : Uri) : Prop :=
  isPathLike u → Text.IsWellFormed u ∧ ∀ x ∈ u.getLast?, FileUri.isDroppedAtEnd x = false

/-- A path from the root comes back exactly if it can be written. -/
theorem ofInput_ofPath_iff (normal : Posix.IsNormal p) (absolute : Posix.isAbsolute p)
    (slashes : Text.unit '\\' ∉ p) : ofInput (FileUri.ofPath p) = p ↔
      Text.IsWellFormed p ∧ ∀ x ∈ p.getLast?, FileUri.isDroppedAtEnd x = false := by
  rw [← FileUri.beforeEnd_eq_self_iff]
  by_cases stays : FileUri.beforeEnd p = p
  · rw [FileUri.ofPath_of_isNormal normal absolute stays,
      ofInput_written_eq_iff normal absolute slashes, and_iff_left stays]
  · obtain ⟨q, normal', absolute', subset, shorter, written⟩ :=
      FileUri.exists_ofPath_eq normal absolute stays
    rw [written, ofInput_written normal' absolute' fun mem => slashes (subset mem)]
    refine iff_of_false (fun eq => ?_) fun writable => stays writable.2
    have length := Text.length_repaired q
    rw [eq] at length
    omega

/-- What a client is told of comes back exactly if it can be written. -/
theorem ofInput_toProtocol_iff (client : IsClientInput s) :
    ofInput (toProtocol (ofInput s)) = ofInput s ↔ IsWritable (ofInput s) := by
  rw [toProtocol, client.ofInput_toProtocolBy_eq_iff]
  refine forall_congr' fun path => ?_
  obtain ⟨normal, slashes⟩ := isKept_ofInput s path
  exact ofInput_ofPath_iff normal (client.isAbsolute_of_isPathLike path) slashes

/-- A control unit at the end is lost on the way. -/
example : ofInput (toProtocol (ofInput "/a\x01")) = "/a" := by decide +kernel

end Uri

end Quill
