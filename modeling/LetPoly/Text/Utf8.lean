/-! # Reading bytes as characters

A source arrives as bytes.  A **rune** is what one reading step takes from them:
a well-formed UTF-8 sequence with the character it encodes, or a single byte
that starts no such sequence, which reads as the replacement character.  Every
byte string therefore has exactly one reading (`runes`), and nothing of it is
lost (`runes_bytes`).
-/

namespace LetPoly.Text

/-- One character read from a byte string, with the bytes it was read from. -/
structure Rune where
  char : Char
  bytes : List UInt8
deriving DecidableEq, Repr

/-- The character that stands for a byte outside every well-formed sequence. -/
def replacement : Char := '\uFFFD'

/-- The six bits that a continuation byte carries. -/
def continuation? (b : UInt8) : Option Nat :=
  if 0x80 ≤ b ∧ b ≤ 0xBF then some (b.toNat - 0x80) else none

/-- The character with the given code, provided that the code is a scalar value
that needs a sequence of this length, which is to say that it is at least
`least`. -/
def scalar? (least code : Nat) : Option Char :=
  if least ≤ code ∧ code.isValidChar then some (Char.ofNat code) else none

/-- The character encoded at the front of the bytes, and how many bytes after
the first one its sequence has. -/
def leading? (b : UInt8) (rest : List UInt8) : Option (Char × Nat) :=
  if b < 0x80 then
    some (Char.ofNat b.toNat, 0)
  else if 0xC0 ≤ b ∧ b < 0xE0 then
    match rest with
    | x :: _ => do
      let x ← continuation? x
      let c ← scalar? 0x80 ((b.toNat - 0xC0) * 0x40 + x)
      return (c, 1)
    | _ => none
  else if 0xE0 ≤ b ∧ b < 0xF0 then
    match rest with
    | x :: y :: _ => do
      let x ← continuation? x
      let y ← continuation? y
      let c ← scalar? 0x800 (((b.toNat - 0xE0) * 0x40 + x) * 0x40 + y)
      return (c, 2)
    | _ => none
  else if 0xF0 ≤ b ∧ b < 0xF8 then
    match rest with
    | x :: y :: z :: _ => do
      let x ← continuation? x
      let y ← continuation? y
      let z ← continuation? z
      let c ← scalar? 0x10000 ((((b.toNat - 0xF0) * 0x40 + x) * 0x40 + y) * 0x40 + z)
      return (c, 3)
    | _ => none
  else none

/-- **The reading of a byte string**, one rune after the other. -/
def runes : List UInt8 → List Rune
  | [] => []
  | b :: rest =>
    match leading? b rest with
    | some (c, n) => ⟨c, b :: rest.take n⟩ :: runes (rest.drop n)
    | none => ⟨replacement, [b]⟩ :: runes rest
termination_by bytes => bytes.length
decreasing_by all_goals simp only [List.length_drop, List.length_cons]; omega

/-- The characters of a byte string. -/
def decode (bytes : List UInt8) : List Char := (runes bytes).map Rune.char

/-- Nothing is lost in reading: the runes' bytes, put together, are the input. -/
theorem runes_bytes (bytes : List UInt8) : (runes bytes).flatMap Rune.bytes = bytes := by
  fun_induction runes bytes with
  | case1 => rfl
  | case2 b rest c n _ ih => simp [ih]
  | case3 b rest _ ih => simp [ih]

end LetPoly.Text
