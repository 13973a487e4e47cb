/-!
# Text as UTF-16 code units

Every offset, length and column of this library counts UTF-16 code units, so a text is kept as the
list of its units. A character outside the basic plane is a pair of surrogate units, and an offset
may fall between the two.

## Main definitions

* `Text` — a list of code units; `Text.ofString` and `Text.toString` go to strings and back.
* `Text.slice` — the units between two offsets.
* `Text.split` — cut at every unit of a class.
* `Text.occursIn` — whether one text stands somewhere inside another.
-/

namespace Quill

/-- A text is the list of its UTF-16 code units. -/
abbrev Text := List UInt16

namespace Text

/-- The code unit of a character of the basic plane. -/
@[inline] def unit (c : Char) : UInt16 := c.val.toUInt16

/-- First half of a surrogate pair. -/
def isHighSurrogate (u : UInt16) : Bool := 0xD800 ≤ u && u ≤ 0xDBFF

/-- Second half of a surrogate pair. -/
def isLowSurrogate (u : UInt16) : Bool := 0xDC00 ≤ u && u ≤ 0xDFFF

/-- The code units of one character: one in the basic plane, a surrogate pair above it. -/
def unitsOf (c : Char) : Text :=
  if c.val < 0x10000 then [c.val.toUInt16]
  else
    let v := c.val - 0x10000
    [((0xD800 : UInt32) + (v >>> 10)).toUInt16, ((0xDC00 : UInt32) + (v &&& 0x3FF)).toUInt16]

def ofString (s : String) : Text := s.toList.flatMap unitsOf

instance : Coe String Text := ⟨ofString⟩

/-- The character that a surrogate pair stands for. -/
def ofPair (high low : UInt16) : Char :=
  Char.ofNat (0x10000 + (high.toNat - 0xD800) * 0x400 + (low.toNat - 0xDC00))

/-- The characters of a text; a surrogate without its partner reads as U+FFFD. -/
def chars : Text → List Char
  | [] => []
  | [u] => [if isHighSurrogate u || isLowSurrogate u then '\uFFFD' else Char.ofNat u.toNat]
  | u :: v :: rest =>
    if isHighSurrogate u then
      if isLowSurrogate v then ofPair u v :: chars rest else '\uFFFD' :: chars (v :: rest)
    else if isLowSurrogate u then '\uFFFD' :: chars (v :: rest)
    else Char.ofNat u.toNat :: chars (v :: rest)

def toString (t : Text) : String := String.ofList t.chars

def ofChars (cs : List Char) : Text := cs.flatMap unitsOf

/-- The text of its characters: every surrogate without its partner is replaced by U+FFFD. -/
def repaired (t : Text) : Text := ofChars t.chars

def utf8 (t : Text) : List UInt8 := t.chars.flatMap String.utf8EncodeChar

/-- The units from offset `start` up to offset `stop`. -/
def slice (t : Text) (start stop : Nat) : Text := (t.drop start).take (stop - start)

@[simp] theorem slice_nil (start stop : Nat) : slice [] start stop = [] := by simp [slice]

@[simp] theorem slice_self (t : Text) (i : Nat) : t.slice i i = [] := by simp [slice]

@[simp] theorem slice_zero_length (t : Text) : t.slice 0 t.length = t := by simp [slice]

theorem length_slice (t : Text) (i j : Nat) :
    (t.slice i j).length = min (j - i) (t.length - i) := by
  simp [slice]

def startsWith (t head : Text) : Bool := head.isPrefixOf t

def endsWith (t tail : Text) : Bool := tail.isSuffixOf t

/-- Whether `needle` stands somewhere inside `hay`. -/
def occursIn (needle : Text) : Text → Bool
  | [] => needle.isEmpty
  | u :: rest => needle.isPrefixOf (u :: rest) || occursIn needle rest

/-- The pieces between the units of the class `sep`; always at least one piece. -/
def split (sep : UInt16 → Bool) : Text → List Text
  | [] => [[]]
  | u :: rest =>
    if sep u then [] :: split sep rest
    else match split sep rest with
      | [] => [[u]]
      | piece :: pieces => (u :: piece) :: pieces

theorem split_ne_nil (sep : UInt16 → Bool) (t : Text) : split sep t ≠ [] := by
  cases t with
  | nil => simp [split]
  | cons u rest =>
    rw [split]
    split
    · simp
    · split <;> simp

/-- The pieces put together with `glue` between neighbours. -/
def join (glue : Text) : List Text → Text
  | [] => []
  | [piece] => piece
  | piece :: pieces => piece ++ glue ++ join glue pieces

/-- Joining one unit between the pieces undoes cutting at that unit. -/
theorem join_split (u : UInt16) (t : Text) : join [u] (split (· == u) t) = t := by
  induction t with
  | nil => simp [split, join]
  | cons a rest ih =>
    rw [split]
    have hne := split_ne_nil (· == u) rest
    split
    next h =>
      have : a = u := by simpa using h
      subst this
      cases hs : split (· == a) rest with
      | nil => exact absurd hs hne
      | cons p ps => rw [← ih, hs]; cases ps <;> simp [join]
    next h =>
      cases hs : split (· == u) rest with
      | nil => exact absurd hs hne
      | cons p ps => rw [← ih, hs]; cases ps <;> simp [join]

def ofNat (n : Nat) : Text := ofString (Nat.repr n)

/-- The decimal digits of an integer, with a leading hyphen when it is negative. -/
def ofInt : Int → Text
  | .ofNat n => ofNat n
  | .negSucc n => unit '-' :: ofNat (n + 1)

def hex (bytes : List UInt8) : Text :=
  bytes.flatMap fun b => [digit (b.toNat / 16), digit (b.toNat % 16)]
where
  /-- The lower-case hexadecimal digit of a number below sixteen. -/
  digit (n : Nat) : UInt16 := if n < 10 then (48 + n).toUInt16 else (87 + n).toUInt16

end Text

end Quill
