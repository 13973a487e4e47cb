import Quill.Text.Basic

/-!
# Identifiers and directive words

## Main definitions

* `Identifier.isStart`, `Identifier.isPart` — the units of an identifier.
* `Identifier.isValid` — whether a whole text is an identifier.
* `Identifier.leading?` — the identifier at the start of a text.
* `Directive` — the words that open a directive line.
-/

namespace Quill

namespace Identifier

def isLetter (u : UInt16) : Bool := (65 ≤ u && u ≤ 90) || (97 ≤ u && u ≤ 122)

def isDigit (u : UInt16) : Bool := 48 ≤ u && u ≤ 57

def isWord (u : UInt16) : Bool := isLetter u || isDigit u

def isStart (u : UInt16) : Bool := isLetter u || u == Text.unit '_'

def isPart (u : UInt16) : Bool := isWord u || u == Text.unit '_' || u == Text.unit '-'

def isValid : Text → Bool
  | [] => false
  | u :: rest => isStart u && rest.all isPart

def leading? : Text → Option Text
  | [] => none
  | u :: rest => if isStart u then some (u :: rest.takeWhile isPart) else none

theorem isValid_of_leading? {t name : Text} (h : leading? t = some name) : isValid name := by
  cases t with
  | nil => simp [leading?] at h
  | cons u rest =>
    by_cases hu : isStart u
    · simp only [leading?, hu, if_true, Option.some.injEq] at h
      subst h
      simp only [isValid, hu, Bool.true_and]
      induction rest with
      | nil => rfl
      | cons v rest ih =>
        by_cases hv : isPart v <;> simp [hv, ih]
    · simp [leading?, hu] at h

/-- What `leading?` finds is a beginning of the text. -/
theorem isPrefixOf_of_leading? {t name : Text} (h : leading? t = some name) : name <+: t := by
  cases t with
  | nil => simp [leading?] at h
  | cons u rest =>
    by_cases hu : isStart u
    · simp only [leading?, hu, if_true, Option.some.injEq] at h
      subst h
      exact List.cons_prefix_cons.2 ⟨rfl, List.takeWhile_prefix _⟩
    · simp [leading?, hu] at h

end Identifier

/-- The words that open a directive line. -/
inductive Directive where
  | binding
  | inclusion
  deriving DecidableEq, Repr

namespace Directive

def word : Directive → Text
  | .binding => "let"
  | .inclusion => "include"

def all : List Directive := [.binding, .inclusion]

def isReserved (name : Text) : Bool := all.any fun d => d.word == name

def keyword (d : Directive) : Text := Text.unit '#' :: d.word

end Directive

end Quill
