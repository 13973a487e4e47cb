import Quill.Proofs.Text.Words

/-!
# Identifiers in a text

Blanks belong to no identifier, so that an identifier ends with its word at the latest.
-/

namespace Quill.Identifier

open Text (Apart)

variable {name t rest : Text} {u : UInt16}

theorem not_isBlank_of_isPart (part : isPart u) : Text.isBlank u = false := by
  have hyphen : Text.unit '-' = 45 := by decide
  have underscore : Text.unit '_' = 95 := by decide
  simp only [isPart, isWord, isLetter, isDigit, hyphen,
    underscore, Bool.or_eq_true, Bool.and_eq_true, decide_eq_true_eq, beq_iff_eq,
    UInt16.le_iff_toNat_le, ← UInt16.toNat_inj] at part
  simp only [Text.isBlank, Bool.or_eq_false_iff, Bool.and_eq_false_iff, decide_eq_false_iff_not,
    beq_eq_false_iff_ne, ne_eq, UInt16.le_iff_toNat_le, ← UInt16.toNat_inj]
  simp only [UInt16.reduceToNat] at part ⊢
  omega

theorem isPart_of_isStart (start : isStart u) : isPart u := by
  simp only [isStart, isPart, isWord, Bool.or_eq_true] at start ⊢
  grind

theorem isPart_of_isValid (valid : isValid name) : ∀ u ∈ name, isPart u := by
  cases name with
  | nil => simp [isValid] at valid
  | cons u rest =>
    simp only [isValid, Bool.and_eq_true, List.all_eq_true] at valid
    intro v mem
    rcases List.mem_cons.1 mem with rfl | mem
    · exact isPart_of_isStart valid.1
    · exact valid.2 v mem

/-- An identifier with something behind it that cannot belong to it. -/
theorem leading?_append (valid : isValid name)
    (ends : ∀ u ∈ rest.head?, isPart u = false) :
    leading? (name ++ rest) = some name := by
  cases name with
  | nil => simp [isValid] at valid
  | cons u name =>
    simp only [isValid, Bool.and_eq_true, List.all_eq_true] at valid
    simp only [List.cons_append, leading?, valid.1, if_true]
    cases rest with
    | nil => simp [Text.takeWhile_eq_self valid.2]
    | cons v rest => rw [Text.takeWhile_append_cons valid.2 (ends v (by simp))]

theorem isPart_of_isWord (word : isWord u) : isPart u := by
  simp only [isPart, word, Bool.true_or]

theorem not_isPart_of_isBlank (blank : Text.isBlank u = true) : isPart u = false :=
  Bool.eq_false_iff.2 fun part => by simp [not_isBlank_of_isPart part] at blank

theorem leading?_append_apart (apart : Apart rest) (t : Text) :
    leading? (t ++ rest) = leading? t := by
  cases t with
  | nil =>
    cases rest with
    | nil => rfl
    | cons u rest =>
      have := mt isPart_of_isStart
          (Bool.eq_false_iff.1 (not_isPart_of_isBlank (Text.apart_cons.1 apart)))
      simp [leading?, this]
  | cons u t =>
    simp only [List.cons_append, leading?,
      Text.takeWhile_append_apart apart fun _ => not_isPart_of_isBlank]

end Quill.Identifier

/-- The word of a directive holds no blank. -/
theorem Quill.Directive.solid_keyword (d : Directive) :
    ∀ u ∈ d.keyword, Text.isBlank u = false := by
  cases d <;> exact Text.solid_of_any (by decide)
