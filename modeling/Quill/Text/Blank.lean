import Quill.Text.Basic

/-!
# Blank units and trimming

The blank characters are the ASCII blanks (tab, line feed, vertical tab, form feed, carriage
return, space), the space separators of Unicode, the two Unicode line separators and the byte order
mark. All of them are single units.

## Main definitions

* `Text.isBlank` — membership in the class.
* `Text.trimStart`, `Text.trimEnd`, `Text.trim` — the text without blanks at one end or both.
* `Text.words` — the maximal runs of units that are not blank.
* `Text.collapseBlanks` — every run of blanks made one space.
-/

namespace Quill.Text

/-- Tab, LF, VT, FF, CR, the space separators, U+2028, U+2029 and U+FEFF. -/
def isBlank (u : UInt16) : Bool :=
  (0x09 ≤ u && u ≤ 0x0D) || u == 0x20 || u == 0xA0 || u == 0x1680 || (0x2000 ≤ u && u ≤ 0x200A) ||
    u == 0x2028 || u == 0x2029 || u == 0x202F || u == 0x205F || u == 0x3000 || u == 0xFEFF

def isSpaceOrTab (u : UInt16) : Bool := u == unit ' ' || u == unit '\t'

def trimStart (t : Text) : Text := t.dropWhile isBlank

def trimEnd : Text → Text
  | [] => []
  | u :: rest =>
    match trimEnd rest with
    | [] => if isBlank u then [] else [u]
    | kept => u :: kept

def trim (t : Text) : Text := trimEnd (trimStart t)

@[simp] theorem trimEnd_nil : trimEnd [] = [] := rfl

/-- Trimming the end only removes a run of blanks. -/
theorem exists_trimEnd_append (t : Text) :
    ∃ tail : Text, t = trimEnd t ++ tail ∧ tail.all isBlank := by
  induction t with
  | nil => exact ⟨[], by simp⟩
  | cons u rest ih =>
    obtain ⟨tail, h, hb⟩ := ih
    rw [trimEnd]
    split
    next he =>
      rw [he] at h
      by_cases hu : isBlank u
      · exact ⟨u :: rest, by simp [hu], by simp [hu, h] at *; simpa using hb⟩
      · exact ⟨rest, by simp [hu], by rw [h]; simpa using hb⟩
    next => exact ⟨tail, by rw [List.cons_append, ← h], hb⟩

theorem length_trimEnd_le (t : Text) : (trimEnd t).length ≤ t.length := by
  obtain ⟨tail, h, _⟩ := exists_trimEnd_append t
  have := congrArg List.length h
  simp only [List.length_append] at this
  omega

/-- The maximal runs of units that are not blank, in order. -/
def words (t : Text) : List Text := (split isBlank t).filter (!·.isEmpty)

/-- Every run of blanks becomes one space; `inside` says that the run has been written. -/
def collapseBlanks (inside : Bool := false) : Text → Text
  | [] => []
  | u :: rest =>
    if isBlank u then
      if inside then collapseBlanks true rest else unit ' ' :: collapseBlanks true rest
    else u :: collapseBlanks false rest

end Quill.Text
