import LetPoly.Proofs.Printing

/-! # Printed numbers keep their value

Negative numbers have no literals, so the printer writes `0 - 5` for the number of value -5,
in parentheses where a sum needs them.  Whatever numbers stand in a tree that otherwise has been
parsed, its text is parsed to the tree with such subtractions in place of the negative numbers
(`Expr.parse_signed`).

There is one exception.  The magnitude of the least number is printed as any other, but it is one
more than the largest number, and so its numeral is no literal: the text of a tree with the least
number in it is never parsed.
-/

namespace LetPoly

open Token Word

/-! ## Numerals that stand for numbers -/

/-- The numerals among the words stand for numbers. -/
def Word.Fit (ws : List Word) : Prop := ∀ s, .int s ∈ ws → ∃ n, Numeral s n

namespace Word

@[simp] theorem fit_nil : Fit [] := by simp [Fit]

@[simp] theorem fit_append {v w : List Word} : Fit (v ++ w) ↔ Fit v ∧ Fit w := by
  simp [Fit, or_imp, forall_and]

@[simp] theorem fit_mark {k : Kind} {w : List Word} : Fit (.mark k :: w) ↔ Fit w := by
  simp [Fit]

@[simp] theorem fit_ident {x : String} {w : List Word} : Fit (.ident x :: w) ↔ Fit w := by
  simp [Fit]

@[simp] theorem fit_between {l r : Kind} {w : List Word} : Fit (between l r w) ↔ Fit w := by
  simp [between]

theorem Separated.fit {ws : List (List Word)} {w : List Word} (h : Separated ws w)
    (hws : ∀ v ∈ ws, Fit v) : Fit w := by
  induction h with
  | last w => exact hws w (by simp)
  | closed w => simpa using hws w (by simp)
  | cons v _ ih =>
    obtain ⟨hv, hws⟩ := List.forall_mem_cons.1 hws
    simpa using ⟨hv, ih hws⟩

end Word

theorem Ty.Phrase.fit {n : Nat} {w : List Word} {t : Ty} (h : Phrase n w t) : Fit w := by
  induction h with
  | base | var => simp
  | paren _ ih | list _ ih | dot _ ih | tfn _ ih | loosen _ ih => simpa using ih
  | app _ _ ihl ihr | arrow _ _ ihl ihr => simpa using ⟨ihl, ihr⟩

theorem Pat.Phrase.fit {n : Nat} {w : List Word} {p : Pat} (h : Phrase n w p) : Fit w := by
  induction h with
  | number hn => simpa [Fit] using ⟨_, hn⟩
  | string => simp [Fit]
  | boolean | unit | wildcard | ident | nil => simp
  | paren _ ih | loosen _ ih => simpa using ih
  | cons _ _ ihl ihr => simpa using ⟨ihl, ihr⟩

namespace Expr

theorem Head.fit {w : List Word} {p : Pat} {a : Option Ty} (h : Head w p a) : Fit w := by
  cases h with
  | plain hp => exact hp.fit
  | typed hp ht => simpa using ⟨hp.fit, ht.fit⟩

theorem Ascription.fit {w : List Word} {a : Option Ty} (h : Ascription w a) : Fit w := by
  cases h with
  | none => exact fit_nil
  | some ht => simpa using ht.fit

/-- **The numerals of a phrase stand for numbers.** -/
theorem Phrase.fit {n : Nat} {w : List Word} {e : Expr} (h : Phrase n w e) : Fit w := by
  induction h with
  | number hn => simpa [Fit] using ⟨_, hn⟩
  | string => simp [Fit]
  | boolean | unit | nil | ident => simp
  | paren _ ih | loosen _ ih => simpa using ih
  | app _ _ ihl ihr | binary _ _ _ _ ihl ihr | cons _ _ ihl ihr => simpa using ⟨ihl, ihr⟩
  | lambda hp _ ih => simpa using ⟨hp.fit, ih⟩
  | cond _ _ _ ihc ihy ihn => simpa using ⟨ihc, ihy, ihn⟩
  | define _ hp ha _ ih => simpa using ⟨hp.fit, ha.fit, ih⟩
  | block _ hsep _ ih =>
    refine fit_between.2 (hsep.fit ?_)
    simpa using ih
  | select _ hp _ hsep ihe ihb =>
    have harms := hsep.fit (by
      simp only [List.mem_map, forall_exists_index, and_imp, forall_apply_eq_imp_iff₂]
      exact fun arm harm => by simpa [caseWords] using ⟨(hp arm harm).fit, ihb arm harm⟩)
    simpa using ⟨ihe, harms⟩

/-- The magnitude of the least number is that of no other. -/
theorem not_numeral_least (n : Int64) :
    ¬Numeral (Text.Decimal.natural Int64.minValue.toInt.natAbs) n := by
  rintro ⟨hnonneg, hdigits⟩
  rw [Text.Decimal.natural, String.toList_ofList, Text.Decimal.digits?_toDigits,
    Option.some.injEq, Int64.toInt_minValue] at hdigits
  have := n.toInt_lt
  omega

/-! ## Whole expressions -/

theorem parse_eq_ok {source : List Char} {e : Expr} :
    parse source = .ok e ↔ (scan source).fault = none ∧ Phrase 9 (words source) e :=
  Reader.readAll_eq_ok_iff reads_read (fun bound _ _ => delivers_read bound)
    (Follows.of_closing (by simp) 9)

/-- **Printed numbers keep their value.**  Let an expression differ from a parsed one in its
numbers only.  Its text is parsed exactly if the least number is not among them, and then to the
expression with `0 - m` for each negative number of magnitude `m`.  Such a subtraction evaluates
to the number that it stands for. -/
theorem parse_signed {source : List Char} {e₀ e : Expr} (h : parse source = .ok e₀)
    (he : e.zeroed = e₀.zeroed) :
    (∀ e', parse e.text.toList = .ok e' ↔ Int64.minValue ∉ e.numbers ∧ e' = e.spelledOut) ∧
      ∀ n bound ρ, Value.eval (bound + 2) ρ (unsigned n) = .ok (.int n) := by
  refine ⟨fun e' => ?_, fun n bound ρ => Value.eval_unsigned bound ρ n⟩
  obtain ⟨-, hphrase⟩ := parse_eq_ok.1 h
  obtain ⟨ws, -, hshows⟩ := hphrase.shows (fun x => named_of_mem_words) he
  have hshows := (hshows (by decide)).mono e.level_le
  obtain ⟨hfault, hwords⟩ := hshows.spells.scans.words
  rw [text_eq_bare]
  constructor
  · intro hparse
    obtain ⟨-, hread⟩ := parse_eq_ok.1 hparse
    have hmin : Int64.minValue ∉ e.numbers := by
      intro hmem
      obtain ⟨n, hn⟩ := hread.fit _ (hwords ▸ hshows.numerals _ hmem)
      exact not_numeral_least n hn
    have hspelled := parse_eq_ok.2 ⟨hfault, hwords ▸ hshows.phrase hmin⟩
    exact ⟨hmin, Except.ok.inj (hparse.symm.trans hspelled)⟩
  · rintro ⟨hmin, rfl⟩
    exact parse_eq_ok.2 ⟨hfault, hwords ▸ hshows.phrase hmin⟩

/-- Negative numbers on both sides of operators, in applications and in lists. -/
theorem parse_signed_operands :
    parse "0 :: 0 0 * 0 :: 0 - 0 :: 0".toList = .ok (.cons (.number 0)
        (.cons (.binary .times (.app (.number 0) (.number 0)) (.number 0))
          (.cons (.binary .minus (.number 0) (.number 0)) (.number 0)))) ∧
      parse (text (.cons (.number (-1))
        (.cons (.binary .times (.app (.number (-2)) (.number (-3))) (.number (-4)))
          (.cons (.binary .minus (.number (-5)) (.number (-6)))
            (.number (-9223372036854775807)))))).toList =
        .ok (spelledOut (.cons (.number (-1))
          (.cons (.binary .times (.app (.number (-2)) (.number (-3))) (.number (-4)))
            (.cons (.binary .minus (.number (-5)) (.number (-6)))
              (.number (-9223372036854775807)))))) := by
  have hparse : parse "0 :: 0 0 * 0 :: 0 - 0 :: 0".toList = .ok (.cons (.number 0)
      (.cons (.binary .times (.app (.number 0) (.number 0)) (.number 0))
        (.cons (.binary .minus (.number 0) (.number 0)) (.number 0)))) := by
    cbv
  refine ⟨hparse, ((parse_signed hparse ?_).1 _).2 ⟨?_, rfl⟩⟩
  · rfl
  · decide

/-- The text of a sum with the least number in it is not parsed. -/
theorem parse_least_summand :
    parse "0 + 1".toList = .ok (.binary .plus (.number 0) (.number 1)) ∧
      text (.binary .plus (.number Int64.minValue) (.number 1)) =
        "0 - 9223372036854775808 + 1" ∧
      parse (text (.binary .plus (.number Int64.minValue) (.number 1))).toList =
        .error ⟨⟨1, 5⟩, .outOfRange "9223372036854775808"⟩ := by
  refine ⟨?_, ?_, ?_⟩ <;> cbv

end Expr

end LetPoly
