import Quill.Text.Basic

/-!
# Percent escapes

An escape stands for an octet, and the octets of a run of escapes for a text in UTF-8.

## Main definitions

* `Utf8.decode?` — the text of well-formed octets. Overlong forms, surrogates and code points past
  U+10FFFF are refused.
* `Percent.decode?` — every escape replaced by what it stands for; refused when an escape is
  malformed or a run of escapes is not UTF-8.
* `Percent.decodeLenient` — the same, but what cannot be read stays as it is.
* `Percent.encode` — the octets outside a class written as escapes.
-/

namespace Quill.Utf8

def isTail (b : UInt8) : Bool := 0x80 ≤ b && b ≤ 0xBF

def tailBits (b : UInt8) : Nat := b.toNat % 64

/-- The characters of well-formed octets. -/
def chars? : List UInt8 → Option (List Char)
  | [] => some []
  | a :: rest =>
    if a < 0x80 then (chars? rest).map (Char.ofNat a.toNat :: ·)
    else match rest with
      | [] => none
      | b :: rest =>
        if 0xC2 ≤ a && a ≤ 0xDF && isTail b then
          (chars? rest).map (Char.ofNat (a.toNat % 32 * 64 + tailBits b) :: ·)
        else match rest with
          | [] => none
          | c :: rest =>
            let n3 := a.toNat % 16 * 4096 + tailBits b * 64 + tailBits c
            if 0xE0 ≤ a && a ≤ 0xEF && isTail b && isTail c && 0x800 ≤ n3
                && !(0xD800 ≤ n3 && n3 ≤ 0xDFFF) then
              (chars? rest).map (Char.ofNat n3 :: ·)
            else match rest with
              | [] => none
              | d :: rest =>
                let n4 := a.toNat % 8 * 262144 + tailBits b * 4096 + tailBits c * 64 + tailBits d
                if 0xF0 ≤ a && a ≤ 0xF4 && isTail b && isTail c && isTail d && 0x10000 ≤ n4
                    && n4 ≤ 0x10FFFF then
                  (chars? rest).map (Char.ofNat n4 :: ·)
                else none

def decode? (octets : List UInt8) : Option Text := (chars? octets).map Text.ofChars

end Quill.Utf8

namespace Quill.Percent

abbrev sign : UInt16 := 37

def hexValue? (u : UInt16) : Option Nat :=
  if 48 ≤ u && u ≤ 57 then some (u.toNat - 48)
  else if 65 ≤ u && u ≤ 70 then some (u.toNat - 55)
  else if 97 ≤ u && u ≤ 102 then some (u.toNat - 87)
  else none

/-- The octet of an escape, given the two units behind the sign. -/
def octet? (a b : UInt16) : Option UInt8 := do
  let high ← hexValue? a
  let low ← hexValue? b
  some (high * 16 + low).toUInt8

/-- Put the text of the octets `run`, read in reverse, in front of `rest`. -/
def flush (run : List UInt8) (rest : Text) : Option Text :=
  (Utf8.decode? run.reverse).map (· ++ rest)

/-- Decode with the octets of the escapes right before the text in `run`, in reverse. -/
def decodeAux (run : List UInt8) : Text → Option Text
  | u :: a :: b :: rest =>
    if u == sign then
      match octet? a b with
      | some o => decodeAux (o :: run) rest
      | none => none
    else (decodeAux [] (a :: b :: rest)).bind fun tail => flush run (u :: tail)
  | u :: rest =>
    if u == sign then none else (decodeAux [] rest).bind fun tail => flush run (u :: tail)
  | [] => flush run []

def decode? (t : Text) : Option Text := decodeAux [] t

def isAlphanumeric (u : UInt16) : Bool :=
  (48 ≤ u && u ≤ 57) || (65 ≤ u && u ≤ 90) || (97 ≤ u && u ≤ 122)

/-- One run of escapes as text, each given with its octet, if it has one, and its spelling. When the
run does not read as a whole its first escape keeps its spelling. -/
def decodeRun : List (Option UInt8 × Text) → Text
  | [] => []
  | (o, spelling) :: rest =>
    match ((o :: rest.map Prod.fst).mapM id).bind Utf8.decode? with
    | some t => t
    | none => spelling ++ decodeRun rest

/-- Decode leniently with the escapes right before the text in `run`, in reverse. An escape is the
sign and two letters or digits. -/
def decodeLenientAux (run : List (Option UInt8 × Text)) : Text → Text
  | u :: a :: b :: rest =>
    if u == sign && isAlphanumeric a && isAlphanumeric b then
      decodeLenientAux ((octet? a b, [u, a, b]) :: run) rest
    else decodeRun run.reverse ++ u :: decodeLenientAux [] (a :: b :: rest)
  | u :: rest => decodeRun run.reverse ++ u :: decodeLenientAux [] rest
  | [] => decodeRun run.reverse

def decodeLenient (t : Text) : Text := decodeLenientAux [] t

def escape (o : UInt8) : Text := sign :: (Text.hex [o]).map upper
where
  /-- The upper-case form of a hexadecimal digit. -/
  upper (u : UInt16) : UInt16 := if 97 ≤ u && u ≤ 102 then u - 32 else u

/-- The octets of a text, those outside the class `plain` as escapes. -/
def encode (plain : UInt8 → Bool) (t : Text) : Text :=
  t.utf8.flatMap fun o => if plain o then [o.toUInt16] else escape o

end Quill.Percent
