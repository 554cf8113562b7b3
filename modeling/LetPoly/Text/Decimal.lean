/-! # Decimal numerals

Integers are written in base ten without leading zeros, and read back with an
optional sign and any number of leading zeros.  Everything that is read must fit
a signed word of 64 bits.
-/

namespace LetPoly.Text.Decimal

/-- The numeral of a natural number. -/
def natural (n : Nat) : String := String.ofList (Nat.toDigits 10 n)

/-- The numeral of an integer, with a minus sign below zero. -/
def integer (i : Int) : String :=
  if i < 0 then "-" ++ natural i.natAbs else natural i.natAbs

/-- The numeral of a word. -/
def word (n : Int64) : String := integer n.toInt

/-- One of the ten ASCII digits. -/
def isDigit (c : Char) : Bool := '0' ≤ c && c ≤ '9'

/-- The number that a non-empty row of digits stands for. -/
def digits? (cs : List Char) : Option Nat :=
  if !cs.isEmpty && cs.all isDigit then some (Nat.ofDigitChars 10 cs 0) else none

/-- The word with the given value, if there is one. -/
def fit? (i : Int) : Option Int64 :=
  if Int64.minValue.toInt ≤ i ∧ i ≤ Int64.maxValue.toInt then some (Int64.ofInt i) else none

/-- The word that an unsigned numeral stands for. -/
def unsigned? (s : String) : Option Int64 := do
  let n ← digits? s.toList
  fit? n

/-- The word that a numeral with an optional sign stands for. -/
def signed? (s : String) : Option Int64 :=
  match s.toList with
  | '-' :: cs => do
    let n ← digits? cs
    fit? (-n)
  | '+' :: cs => do
    let n ← digits? cs
    fit? n
  | cs => do
    let n ← digits? cs
    fit? n

end LetPoly.Text.Decimal
