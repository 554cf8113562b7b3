import LetPoly.Text.Decimal

/-! # Fresh type variables

A supply hands out variables named by consecutive numbers, in decimal.  Numbers
are signed words of 64 bits: after the largest comes the smallest.
-/

namespace LetPoly

structure Supply where
  /-- The number of the next variable. -/
  next : Int64
  /-- How many variables have been handed out since the last restart. -/
  count : Nat := 0
deriving DecidableEq, Repr

namespace Supply

/-- Hands out a variable. -/
def fresh (s : Supply) : String × Supply :=
  (Text.Decimal.word s.next, { next := s.next + 1, count := s.count + 1 })

/-- Hands out several variables. -/
def freshList : Nat → Supply → List String × Supply
  | 0, s => ([], s)
  | n + 1, s =>
    let (x, s) := s.fresh
    let (xs, s) := freshList n s
    (x :: xs, s)

/-- Passes over a variable, if its name is a number. -/
def skip (s : Supply) (x : String) : Supply :=
  match Text.Decimal.signed? x with
  | some n => if s.next ≤ n then { s with next := n + 1 } else s
  | none => s

/-- Passes over several variables. -/
def skipAll (s : Supply) (xs : List String) : Supply := xs.foldl skip s

/-- Counts from zero again; the numbers go on. -/
def restart (s : Supply) : Supply := { s with count := 0 }

end Supply

end LetPoly
