import LetPoly.Expr.Printer
import LetPoly.Proofs.Lexing
import LetPoly.Proofs.SignedNumbers

/-! # The texts of trees

The text of a tree spells a phrase of the tree's own level.  This is proved along the
derivation of the phrase from which the tree was read, with one case for each rule: the
printer puts a part into parentheses exactly where it is looser than its place allows,
and a parenthesized phrase is an atom.

Only names and numbers could go wrong.  Names have to spell themselves, and the printer shows
type variables that are numerals by letters.  In a parsed tree every name is a word of the
source, so it is no keyword and no numeral (`displayName_of_named`).  A negative number is
printed as a subtraction, and its phrase is one for the expression as it is spelled out
(`Expr.Shows`); only the least number is printed with a numeral that stands for no number.
So other numbers, negative ones too, may stand in a parsed tree (`Expr.Phrase.shows`).  The
numbers of the parsed tree itself are not negative, so its text spells a phrase for it
(`Expr.Phrase.prints`).
-/

namespace LetPoly

open Token Word

/-! ## Numerals and names -/

theorem Text.Decimal.digits?_toDigits (n : Nat) : digits? (Nat.toDigits 10 n) = some n := by
  have hdigits : ∀ c ∈ Nat.toDigits 10 n, isDigit c := fun c hc =>
    Nat.isDigit_of_mem_toDigits (by decide) (by decide) hc
  rw [digits?, if_pos (by simpa using hdigits), Nat.ofDigitChars_ten_toDigits]

/-- The numeral of a natural number stands for the word with this value. -/
theorem numeral_natural {k : Nat} {n : Int64} (hn : n.toInt = k) :
    Numeral (Text.Decimal.natural k) n := by
  refine ⟨by omega, ?_⟩
  rw [Text.Decimal.natural, String.toList_ofList, Text.Decimal.digits?_toDigits, hn]
  rfl

theorem word_of_nonneg {n : Int64} (h : 0 ≤ n.toInt) :
    Text.Decimal.word n = Text.Decimal.natural n.toInt.natAbs := by
  rw [Text.Decimal.word, Text.Decimal.integer, if_neg (by omega)]

theorem numeral_word {n : Int64} (h : 0 ≤ n.toInt) : Numeral (Text.Decimal.word n) n := by
  rw [word_of_nonneg h]
  exact numeral_natural (by omega)

theorem spells_natural (k : Nat) :
    Spells (Text.Decimal.natural k) [.int (Text.Decimal.natural k)] := by
  refine .digits ?_ ?_ <;> rw [Text.Decimal.natural, String.toList_ofList]
  · exact Nat.toDigits_ne_nil
  · exact fun c hc => Nat.isDigit_of_mem_toDigits (by decide) (by decide) hc

/-- Without a sign in front, a signed numeral is an unsigned one. -/
theorem Text.Decimal.signed?_of_class {q : Char → Bool} {s : String} {c : Char} {cs : List Char}
    (hs : s.toList = c :: cs) (hc : q c) (hq : ['-', '+'].any q = false) :
    signed? s = (digits? s.toList).bind fun n => fit? n := by
  have hmem : c ∉ ['-', '+'] := fun h => List.any_eq_false.1 hq c h hc
  simp only [List.mem_cons, List.not_mem_nil, or_false, not_or] at hmem
  simp [signed?, hs, hmem, Option.bind]

/-- The numeral of a natural number is read back, if its value fits. -/
theorem Text.Decimal.signed?_natural_eq (n : Nat) : signed? (natural n) = fit? n := by
  obtain ⟨c, cs, hd⟩ := List.exists_cons_of_ne_nil (Nat.toDigits_ne_nil (n := n) (b := 10))
  have hs : (natural n).toList = c :: cs := by rw [natural, String.toList_ofList, hd]
  have hc : isDigit c :=
    Nat.isDigit_of_mem_toDigits (by decide) (by decide) (hd ▸ List.mem_cons_self)
  rw [signed?_of_class hs hc (by decide), hs, ← hd, digits?_toDigits]
  rfl

theorem Token.Named.exists_letter {x : String} (h : Named x) :
    ∃ c cs, x.toList = c :: cs ∧ isLetter c := by
  have hword := h.1
  cases hx : x.toList with
  | nil => simp [hx, isWord] at hword
  | cons c cs =>
    simp only [hx, isWord, Bool.and_eq_true] at hword
    exact ⟨c, cs, rfl, hword.1⟩

/-- A name is shown as it is. -/
theorem displayName_of_named {x : String} (h : Named x) : displayName x = x := by
  obtain ⟨c, cs, hx, hc⟩ := h.exists_letter
  have hdigit : Text.Decimal.isDigit c = false := by
    rw [Bool.eq_false_iff]
    intro hd
    simp [isLetter_of_isDigit hd] at hc
  have hsigned : Text.Decimal.signed? x = none := by
    rw [Text.Decimal.signed?_of_class hx hc (by decide)]
    simp [hx, Text.Decimal.digits?, hdigit]
  rw [displayName, hsigned]

/-! ## Types -/

namespace Ty

/-- How tightly the text of a type binds. -/
def level : Ty → Nat
  | .const _ | .var _ | .list _ | .missing => 1
  | .app .. => 2
  | .arrow .. => 3
  | .poly .. => 4

theorem print_eq (simple : Bool) (t : Ty) :
    t.print simple = parenthesized (simple && 1 < t.level) (t.print false) := by
  cases t <;> cases simple <;> rfl

theorem isOpen_eq (t : Ty) : t.isOpen = decide (2 < t.level) := by
  cases t <;> rfl

theorem level_le (t : Ty) : t.level ≤ 4 := by
  cases t <;> simp [level]

/-- Where the text of a type is simple, or binds tightly enough, it is a phrase of the
level of its place. -/
theorem prints_within (n : Nat) (simple : Bool) {t : Ty}
    (h : ∃ ws, Spells (t.print false) ws ∧ Phrase t.level ws t) (hn : 1 ≤ n)
    (hlevel : simple = false → t.level ≤ n) :
    ∃ ws, Spells (t.print simple) ws ∧ Phrase n ws t := by
  obtain ⟨ws, hspells, hphrase⟩ := h
  rw [print_eq]
  cases hwrap : simple && decide (1 < t.level) with
  | false =>
    refine ⟨ws, hspells, hphrase.mono ?_⟩
    cases simple <;> simp_all
    omega
  | true =>
    have hparen := (hphrase.mono t.level_le).paren
    exact ⟨_, hspells.parens, hparen.mono hn⟩

/-- **The text of a type spells a phrase for it.** -/
theorem Phrase.prints {n : Nat} {w : List Word} {t : Ty} (h : Phrase n w t)
    (hw : ∀ x, .ident x ∈ w → Named x) :
    ∃ ws, Spells (t.print false) ws ∧ Phrase t.level ws t := by
  induction h with
  | @base x hx => exact ⟨_, .name (hw x (by simp)), .base hx⟩
  | @var x hx =>
    have hnamed := hw x (by simp)
    refine ⟨_, ?_, .var hx⟩
    rw [print, displayName_of_named hnamed]
    exact .name hnamed
  | paren _ ih => exact ih fun x hx => hw x (by simp [between, hx])
  | list _ ih =>
    obtain ⟨ws, hspells, hphrase⟩ := ih fun x hx => hw x (by simp [between, hx])
    exact ⟨_, hspells.squares, .list (hphrase.mono (level_le _))⟩
  | @app v w f a _ _ ihf iha =>
    obtain ⟨vs, hvs, hf⟩ := prints_within 2 f.isOpen (ihf fun x hx => hw x (by simp [hx]))
      (by decide) (fun h => by simpa [isOpen_eq] using h)
    obtain ⟨ws, hws, ha⟩ := prints_within 1 true (iha fun x hx => hw x (by simp [hx]))
      (by decide) (by simp)
    refine ⟨vs ++ ws, ?_, hf.app ha⟩
    show Spells (f.print f.isOpen ++ " " ++ a.print true) _
    rw [String.append_assoc]
    exact hvs.append hws.blank (boundary_blank _)
  | @arrow v w a r _ _ iha ihr =>
    obtain ⟨vs, hvs, ha⟩ := prints_within 2 a.isOpen (iha fun x hx => hw x (by simp [hx]))
      (by decide) (fun h => by simpa [isOpen_eq] using h)
    obtain ⟨ws, hws, hr⟩ := ihr fun x hx => hw x (by simp [hx])
    exact ⟨_, hvs.join (k := .arrow) (by decide) hws, ha.arrow (hr.mono (level_le _))⟩
  | @dot w x t _ ih | @tfn w x t _ ih =>
    obtain ⟨ws, hws, ht⟩ := ih fun x hx => hw x (by simp [hx])
    have hnamed := hw x (by simp)
    refine ⟨_, ?_, .dot (ht.mono (level_le _))⟩
    have htext : (Ty.poly x t).print false = x ++ " . " ++ t.print false := by
      rw [print, displayName_of_named hnamed]
      rfl
    rw [htext]
    exact (Spells.name hnamed).join (k := .dot) (by decide) hws
  | loosen _ ih => exact ih hw

end Ty

/-! ## Patterns -/

namespace Pat

/-- How tightly the text of a pattern binds. -/
def level : Pat → Nat
  | .cons .. => 2
  | .number _ | .string _ | .boolean _ | .unit | .wildcard | .ident _ | .nil | .missing => 1

theorem print_eq (simple : Bool) (p : Pat) :
    p.print simple = parenthesized (simple && 1 < p.level) (p.print false) := by
  cases p <;> cases simple <;> rfl

theorem level_le (p : Pat) : p.level ≤ 2 := by
  cases p <;> simp [level]

theorem prints_simple {p : Pat} (h : ∃ ws, Spells p.text ws ∧ Phrase p.level ws p) :
    ∃ ws, Spells (p.print true) ws ∧ Phrase 1 ws p := by
  obtain ⟨ws, hspells, hphrase⟩ := h
  rw [print_eq]
  cases hwrap : true && decide (1 < p.level) with
  | false => exact ⟨ws, hspells, hphrase.mono (by simpa using hwrap)⟩
  | true =>
    exact ⟨_, hspells.parens, (hphrase.mono p.level_le).paren⟩

/-- **The text of a pattern spells a phrase for it.** -/
theorem Phrase.prints {n : Nat} {w : List Word} {p : Pat} (h : Phrase n w p)
    (hw : ∀ x, .ident x ∈ w → Named x) :
    ∃ ws, Spells p.text ws ∧ Phrase p.level ws p := by
  induction h with
  | number hn => exact ⟨_, .numeral (numeral_word hn.1), .number (numeral_word hn.1)⟩
  | @string s => exact ⟨_, .literal s, .string⟩
  | @boolean k b hb =>
    refine ⟨_, ?_, .boolean hb⟩
    show Spells (boolText b) _
    rw [← hb]
    exact .keyword (mem_keywords_of_boolText hb)
  | unit => exact ⟨_, Spells.empty.parens, .unit⟩
  | wildcard => exact ⟨_, .keyword (k := .underscore) (by decide), .wildcard⟩
  | @ident x => exact ⟨_, .name (hw x (by simp)), .ident⟩
  | nil => exact ⟨_, Spells.empty.squares, .nil⟩
  | paren _ ih => exact ih fun x hx => hw x (by simp [between, hx])
  | cons _ _ ihp ihq =>
    obtain ⟨vs, hvs, hp⟩ := prints_simple (ihp fun x hx => hw x (by simp [hx]))
    obtain ⟨ws, hws, hq⟩ := ihq fun x hx => hw x (by simp [hx])
    exact ⟨_, hvs.join (k := .cons) (by decide) hws, hp.cons (hq.mono (level_le _))⟩
  | loosen _ ih => exact ih hw

end Pat

/-! ## Rows of items -/

/-- Items as they are printed: each after a blank and before a semicolon. -/
def listed : List String → String
  | [] => ""
  | s :: ss => " " ++ s ++ ";" ++ listed ss

theorem Token.Spells.listed_cons {s : String} {ss : List String} {v w : List Word}
    (hs : Spells s v) (hss : Spells (listed ss) w) :
    Spells (listed (s :: ss)) (v ++ .mark .semicolon :: w) := by
  show Spells (" " ++ s ++ ";" ++ listed ss) _
  rw [String.append_assoc, String.append_assoc]
  have hsemi := hss.bracket (k := .semicolon) (by decide)
  exact (hs.append hsemi (boundary_bracket (by decide) _)).blank

/-- Items as they are printed are separated by semicolons. -/
theorem spells_listed {σ : Type} (words : σ → List Word) (text : σ → String) {ss : List σ}
    (hne : ss ≠ []) (h : ∀ s ∈ ss, Spells (text s) (words s)) :
    ∃ w, Separated (ss.map words) w ∧ Spells (listed (ss.map text)) w := by
  induction ss with
  | nil => exact absurd rfl hne
  | cons s ss ih =>
    obtain ⟨hs, hss⟩ := List.forall_mem_cons.1 h
    cases ss with
    | nil => exact ⟨_, .closed _, Spells.listed_cons hs (Spells.empty : Spells (listed []) [])⟩
    | cons s' ss =>
      obtain ⟨w, hsep, hw⟩ := ih (by simp) hss
      exact ⟨_, .cons _ hsep, hs.listed_cons hw⟩

/-- Words for each of several trees. -/
theorem exists_spelled {σ α : Type} (tree : σ → α) (P : σ → Prop) {as : List α}
    (h : ∀ a ∈ as, ∃ s, tree s = a ∧ P s) : ∃ ss : List σ, ss.map tree = as ∧ ∀ s ∈ ss, P s := by
  induction as with
  | nil => exact ⟨[], rfl, by simp⟩
  | cons a as ih =>
    obtain ⟨⟨s, rfl, hs⟩, has⟩ := List.forall_mem_cons.1 h
    obtain ⟨ss, rfl, hss⟩ := ih has
    exact ⟨s :: ss, rfl, List.forall_mem_cons.2 ⟨hs, hss⟩⟩

/-! ## Expressions -/

namespace Expr

/-- The text of a case. -/
def armText (arm : Pat × Expr) : String := "case " ++ arm.1.text ++ " => " ++ arm.2.bare

theorem bareStmts_eq (es : List Expr) : bareStmts es = listed (es.map bare) := by
  induction es with
  | nil => rfl
  | cons e es ih => rw [bareStmts, ih, List.map_cons, listed]

theorem bareArms_eq (arms : List (Pat × Expr)) : bareArms arms = listed (arms.map armText) := by
  induction arms with
  | nil => rfl
  | cons arm arms ih =>
    obtain ⟨p, e⟩ := arm
    have hcase : " case " = " " ++ "case " := rfl
    simp only [bareArms, ih, List.map_cons, listed, armText, hcase, String.append_assoc]

theorem level_le (e : Expr) : e.level ≤ 9 := by
  cases e with
  | number n => simp only [level]; split <;> decide
  | binary op l r => exact Nat.le_trans op.level_le.2 (by decide)
  | _ => simp [level, appLevel, consLevel, loosest, atomLevel]

/-- Nothing around a whole expression asks for parentheses. -/
theorem text_eq_bare (e : Expr) : e.text = e.bare := by
  have hwrap : ¬loosest < e.level := Nat.not_lt.2 e.level_le
  simp [text, print, parenthesized, hwrap]

theorem Head.prints {w : List Word} {p : Pat} {a : Option Ty} (h : Head w p a)
    (hw : ∀ x, .ident x ∈ w → Named x) : ∃ ws, Spells (headText p a) ws ∧ Head ws p a := by
  cases h with
  | plain hp =>
    obtain ⟨ws, hws, hp⟩ := Pat.prints_simple (hp.prints hw)
    exact ⟨ws, hws, .plain hp⟩
  | typed hp ht =>
    obtain ⟨vs, hvs, hp⟩ := hp.prints fun x hx => hw x (by simp [between, hx])
    obtain ⟨ws, hws, ht⟩ := ht.prints fun x hx => hw x (by simp [between, hx])
    refine ⟨_, ?_, .typed (hp.mono (Pat.level_le _)) (ht.mono (Ty.level_le _))⟩
    have hrow := (hvs.join (k := .colon) (by decide) hws).parens
    rw [← String.append_assoc, ← String.append_assoc] at hrow
    exact hrow

theorem Ascription.prints {w : List Word} {a : Option Ty} (h : Ascription w a)
    (hw : ∀ x, .ident x ∈ w → Named x) :
    ∃ ws, Spells (ascriptionText a) ws ∧ Boundary (ascriptionText a).toList ∧ Ascription ws a := by
  cases h with
  | none => exact ⟨_, .empty, by simp [Boundary, ascriptionText], .none⟩
  | @some w t ht =>
    obtain ⟨ws, hws, ht⟩ := ht.prints fun x hx => hw x (by simp [hx])
    have htext : ascriptionText (.some t) = " " ++ (Kind.colon.name ++ " " ++ t.print false) := by
      rw [← String.append_assoc]
      rfl
    rw [htext]
    exact ⟨_, (hws.before (by decide)).blank, boundary_blank _, .some (ht.mono (Ty.level_le _))⟩

/-! ### What the text of an expression shows -/

/-- The magnitude of every word but the least is one of a word. -/
theorem natAbs_lt {m : Int64} (h : m ≠ Int64.minValue) : m.toInt.natAbs < 2 ^ 63 := by
  have hle := m.le_toInt
  have hlt := m.toInt_lt
  have hne : m.toInt ≠ Int64.minValue.toInt := mt Int64.toInt_inj.1 h
  rw [Int64.toInt_minValue] at hne
  omega

/-- The word in the text of a number. -/
def numeralWord (m : Int64) : Word := .int (Text.Decimal.natural m.toInt.natAbs)

/-- **What the text of an expression shows**: words, among them one for each number, which are a
phrase for the expression as it is spelled out, unless the least number is among its numbers. -/
structure Shows (s : String) (n : Nat) (e : Expr) (ws : List Word) : Prop where
  spells : Spells s ws
  numerals : ∀ m ∈ e.numbers, numeralWord m ∈ ws
  phrase : Int64.minValue ∉ e.numbers → Phrase n ws e.spelledOut

namespace Shows
variable {s t : String} {n : Nat} {u v w ws : List Word}

theorem mono {e : Expr} {k : Nat} (h : Shows s n e ws) (hn : n ≤ k) : Shows s k e ws :=
  ⟨h.spells, h.numerals, fun hmin => (h.phrase hmin).mono hn⟩

theorem single {e : Expr} (hs : Spells s ws) (h : Phrase n ws e) (hnumbers : e.numbers = [])
    (hself : e.spelledOut = e) : Shows s n e ws where
  spells := hs
  numerals := by simp [hnumbers]
  phrase _ := by rwa [hself]

theorem number (m : Int64) : ∃ ws, Shows (bare (.number m)) (level (.number m)) (.number m) ws := by
  have hnumeral := spells_natural m.toInt.natAbs
  by_cases hneg : m < 0
  · have hzero : Spells "0" [.int "0"] := spells_natural 0
    refine ⟨[.int "0", .mark .minus, numeralWord m], ?_, by simp, fun hmin => ?_⟩
    · rw [bare, if_pos hneg]
      exact hzero.join (k := .minus) (by decide) hnumeral
    · rw [level, if_pos hneg, spelledOut, mapNumbers, unsigned, if_pos hneg]
      have hfits : (Int64.ofNat m.toInt.natAbs).toInt = m.toInt.natAbs :=
        Int64.toInt_ofNat_of_lt (natAbs_lt fun h => hmin (by simp [h]))
      have hleft : Phrase 1 [.int "0"] (.number 0) := .number (numeral_natural (k := 0) rfl)
      have hright := Phrase.number (numeral_natural hfits)
      exact .binary (n := 3) rfl rfl (hleft.mono (by decide)) (hright.mono (by decide))
  · have hle : 0 ≤ m.toInt := by
      rw [Int64.lt_iff_toInt_lt] at hneg
      exact Int.not_lt.1 hneg
    refine ⟨[numeralWord m], ?_, by simp, fun _ => ?_⟩
    · rw [bare, if_neg hneg, word_of_nonneg hle]
      exact hnumeral
    · rw [level, if_neg hneg, spelledOut, mapNumbers, unsigned, if_neg hneg]
      exact .number (numeral_natural (by omega))

theorem within {e : Expr} (h : Shows e.bare e.level e ws) (hn : 1 ≤ n) :
    ∃ ws, Shows (parenthesized (n < e.level) e.bare) n e ws := by
  cases hwrap : decide (n < e.level) with
  | false => exact ⟨ws, h.mono (by simpa using hwrap)⟩
  | true =>
    refine ⟨_, h.spells.parens, fun m hm => ?_, fun hmin => ?_⟩
    · simp [between, h.numerals m hm]
    · exact ((h.phrase hmin).mono e.level_le).paren.mono hn

theorem app {f a : Expr} (hf : Shows s 2 f u) (ha : Shows t 1 a v) :
    Shows (s ++ " " ++ t) 2 (.app f a) (u ++ v) where
  spells := by
    rw [String.append_assoc]
    exact hf.spells.append ha.spells.blank (boundary_blank _)
  numerals m hm := by
    rw [numbers_app, List.mem_append] at hm
    exact List.mem_append.2 (hm.imp (hf.numerals m) (ha.numerals m))
  phrase hmin := by
    rw [numbers_app, List.mem_append, not_or] at hmin
    exact (hf.phrase hmin.1).app (ha.phrase hmin.2)

theorem binary {k : Kind} {op : Op} {l r : Expr} (hop : k.name = op.spelling)
    (hl : Shows s op.level l u) (hr : Shows t (op.level - 1) r v) :
    Shows (s ++ " " ++ op.spelling ++ " " ++ t) op.level (.binary op l r) (u ++ .mark k :: v) where
  spells := by
    have hrow := hl.spells.join (.inl (mem_symbols_of_operator hop)) hr.spells
    simp only [← hop, String.append_assoc] at hrow ⊢
    exact hrow
  numerals m hm := by
    rw [numbers_binary, List.mem_append] at hm
    exact List.mem_append.2 (hm.imp (hl.numerals m) fun hm => .tail _ (hr.numerals m hm))
  phrase hmin := by
    rw [numbers_binary, List.mem_append, not_or] at hmin
    obtain ⟨n, hlevel⟩ : ∃ n, op.level = n + 1 := ⟨op.level - 1, by have := op.level_le; omega⟩
    have hl := hl.phrase hmin.1
    have hr := hr.phrase hmin.2
    rw [hlevel] at hl hr ⊢
    exact .binary hop hlevel hl hr

theorem cons {h r : Expr} (hh : Shows s 7 h u) (hr : Shows t 9 r v) :
    Shows (s ++ " :: " ++ t) 8 (.cons h r) (u ++ .mark .cons :: v) where
  spells := hh.spells.join (k := .cons) (by decide) hr.spells
  numerals m hm := by
    rw [numbers_cons, List.mem_append] at hm
    exact List.mem_append.2 (hm.imp (hh.numerals m) fun hm => .tail _ (hr.numerals m hm))
  phrase hmin := by
    rw [numbers_cons, List.mem_append, not_or] at hmin
    exact (hh.phrase hmin.1).cons (hr.phrase hmin.2)

theorem lambda {p : Pat} {a : Option Ty} {b : Expr} (hs : Spells (headText p a) u)
    (hp : Head u p a) (hb : Shows t 9 b v) :
    Shows (headText p a ++ " => " ++ t) 9 (.lambda p a b) (u ++ .mark .fatArrow :: v) where
  spells := hs.join (k := .fatArrow) (by decide) hb.spells
  numerals m hm := List.mem_append.2 (.inr (.tail _ (hb.numerals m hm)))
  phrase hmin := .lambda hp (hb.phrase hmin)

theorem cond {c y n : Expr} {s t r : String} (hc : Shows s 9 c u) (hy : Shows t 9 y v)
    (hn : Shows r 9 n w) : Shows ("if " ++ s ++ " then " ++ t ++ " else " ++ r) 9 (.cond c y n)
      (.mark .kwIf :: (u ++ .mark .kwThen :: (v ++ .mark .kwElse :: w))) where
  spells := by
    have htest := hc.spells.before (k := .kwIf) (by decide)
    have hyes := htest.join (k := .kwThen) (by decide) hy.spells
    have hno := hyes.join (k := .kwElse) (by decide) hn.spells
    rw [List.append_assoc] at hno
    exact hno
  numerals m hm := by
    simp only [numbers_cond, List.mem_append, List.mem_cons] at hm ⊢
    obtain (hm | hm) | hm := hm
    · simp [hc.numerals m hm]
    · simp [hy.numerals m hm]
    · simp [hn.numerals m hm]
  phrase hmin := by
    simp only [numbers_cond, List.mem_append, not_or] at hmin
    exact .cond (hc.phrase hmin.1.1) (hy.phrase hmin.1.2) (hn.phrase hmin.2)

theorem define {k : Kind} {binder : Binder} {p : Pat} {a : Option Ty} {e : Expr}
    (hk : k.name = binder.spelling) (hps : Spells (p.print true) u) (hp : Pat.Phrase 1 u p)
    (has : Spells (ascriptionText a) v) (hboundary : Boundary (ascriptionText a).toList)
    (ha : Ascription v a) (he : Shows t 9 e w) :
    Shows (binder.spelling ++ " " ++ p.print true ++ ascriptionText a ++ " = " ++ t) 10
      (.define binder p a e) (.mark k :: (u ++ v ++ .mark .assign :: w)) where
  spells := by
    have hhead := (hps.before (.inr (mem_keywords_of_binder hk))).append has hboundary
    have hrow := hhead.join (k := .assign) (by decide) he.spells
    rw [hk] at hrow
    exact hrow
  numerals m hm := .tail _ (List.mem_append.2 (.inr (.tail _ (he.numerals m hm))))
  phrase hmin := .define hk hp ha (he.phrase hmin)

theorem block (stmts : List Expr) (hne : stmts ≠ [])
    (h : ∀ e ∈ stmts, ∃ ws, Shows e.bare 10 e ws)
    (hlast : ∀ e ∈ stmts.getLast?, e.isDefinition = false) :
    ∃ ws, Shows (bare (.block stmts)) 1 (.block stmts) ws := by
  obtain ⟨ss, rfl, hss⟩ := exists_spelled Spelled.tree
    (fun s => Shows s.tree.bare 10 s.tree s.words) fun e he => by
      obtain ⟨ws, hws⟩ := h e he
      exact ⟨⟨ws, e⟩, rfl, hws⟩
  obtain ⟨w, hsep, hw⟩ := spells_listed Spelled.words (fun s : Spelled Expr => s.tree.bare)
    (by simpa using hne) fun s hs => (hss s hs).spells
  refine ⟨between .lbrace .rbrace w, ?_, fun m hm => ?_, fun hmin => ?_⟩
  · rw [bare, bareStmts_eq, List.map_map]
    exact hw.braces
  · simp only [numbers_block, List.mem_flatMap, List.mem_map] at hm
    obtain ⟨_, ⟨s, hs, rfl⟩, hm⟩ := hm
    have hmem := (hsep.sublist (List.mem_map_of_mem hs)).subset ((hss s hs).numerals m hm)
    simp [between, hmem]
  · simp only [numbers_block, List.mem_flatMap, List.mem_map, not_exists, not_and] at hmin
    -- the same words, with the statements as they are spelled out
    let spelled (s : Spelled Expr) : Spelled Expr := ⟨s.words, s.tree.spelledOut⟩
    have hphrase : Phrase 1 (between .lbrace .rbrace w)
        (.block ((ss.map spelled).map (·.tree))) := .block
      (by
        simp only [List.mem_map, forall_exists_index, and_imp, forall_apply_eq_imp_iff₂]
        exact fun s hs => (hss s hs).phrase (hmin _ ⟨s, hs, rfl⟩))
      (by
        rw [List.map_map]
        exact hsep)
      (by
        simp only [List.getLast?_map, Option.mem_map, forall_exists_index, and_imp,
          forall_apply_eq_imp_iff₂, spelled, isDefinition_spelledOut]
        exact fun s hs => hlast s.tree (by rw [List.getLast?_map, Option.mem_def.1 hs]; rfl))
    rw [spelledOut, mapNumbers, mapNumbersStmts_eq]
    simpa [spelled, spelledOut, Function.comp_def] using hphrase

theorem select (arms : List (Pat × Expr)) {e : Expr} (hne : arms ≠ []) (he : Shows s 9 e v)
    (hp : ∀ arm ∈ arms, ∃ ws, Spells arm.1.text ws ∧ Pat.Phrase 2 ws arm.1)
    (hb : ∀ arm ∈ arms, ∃ ws, Shows arm.2.bare 9 arm.2 ws) :
    ∃ ws, Shows ("match " ++ s ++ " with \x7b" ++ bareArms arms ++ " \x7d") 9 (.select e arms)
      ws := by
  obtain ⟨ss, rfl, hss⟩ := exists_spelled
    (fun s : Spelled Pat × Spelled Expr => (s.1.tree, s.2.tree))
    (fun s => Spells (armText (s.1.tree, s.2.tree)) (caseWords s) ∧
      Pat.Phrase 2 s.1.words s.1.tree ∧ Shows s.2.tree.bare 9 s.2.tree s.2.words)
    fun arm harm => by
      obtain ⟨ps, hps, hp⟩ := hp arm harm
      obtain ⟨bs, hb⟩ := hb arm harm
      have hcase := hps.before (k := .kwCase) (by decide)
      exact ⟨(⟨ps, arm.1⟩, ⟨bs, arm.2⟩), rfl,
        hcase.join (k := .fatArrow) (by decide) hb.spells, hp, hb⟩
  obtain ⟨w, hsep, hw⟩ := spells_listed caseWords (fun s => armText (s.1.tree, s.2.tree))
    (by simpa using hne) fun s hs => (hss s hs).1
  refine ⟨.mark .kwMatch :: (v ++ .mark .kwWith :: between .lbrace .rbrace w), ?_, fun m hm => ?_,
    fun hmin => ?_⟩
  · have hmatch := he.spells.before (k := .kwMatch) (by decide)
    have hrow := hmatch.join (k := .kwWith) (by decide) hw.braces
    have hwith : " with \x7b" = " with " ++ "\x7b" := rfl
    rw [bareArms_eq, List.map_map, hwith]
    simp only [String.append_assoc] at hrow ⊢
    exact hrow
  · simp only [numbers_select, List.mem_append, List.mem_flatMap, List.mem_map] at hm
    obtain hm | ⟨_, ⟨s, hs, rfl⟩, hm⟩ := hm
    · simp [he.numerals m hm]
    · have hbody : numeralWord m ∈ caseWords s := by
        simp [caseWords, (hss s hs).2.2.numerals m hm]
      simp [between, (hsep.sublist (List.mem_map_of_mem hs)).subset hbody]
  · simp only [numbers_select, List.mem_append, List.mem_flatMap, List.mem_map, not_or,
      not_exists, not_and] at hmin
    let spelled (s : Spelled Pat × Spelled Expr) : Spelled Pat × Spelled Expr :=
      (s.1, ⟨s.2.words, s.2.tree.spelledOut⟩)
    have hphrase : Phrase 9 (.mark .kwMatch :: (v ++ .mark .kwWith :: between .lbrace .rbrace w))
        (.select e.spelledOut ((ss.map spelled).map fun arm => (arm.1.tree, arm.2.tree))) :=
      .select (he.phrase hmin.1)
      (by
        simp only [List.mem_map, forall_exists_index, and_imp, forall_apply_eq_imp_iff₂]
        exact fun s hs => (hss s hs).2.1)
      (by
        simp only [List.mem_map, forall_exists_index, and_imp, forall_apply_eq_imp_iff₂]
        exact fun s hs => (hss s hs).2.2.phrase (hmin.2 _ ⟨s, hs, rfl⟩))
      (by
        rw [List.map_map]
        exact hsep)
    rw [spelledOut, mapNumbers, mapNumbersArms_eq]
    simpa [spelled, spelledOut, Function.comp_def] using hphrase

end Shows

/-- **The text of an expression shows it**, if the expression differs from that of a phrase in
its numbers only. -/
theorem Phrase.shows {n : Nat} {w : List Word} {e₀ : Expr} (h : Phrase n w e₀)
    (hw : ∀ x, .ident x ∈ w → Named x) {e : Expr} (he : e.zeroed = e₀.zeroed) :
    ∃ ws, Shows e.bare 10 e ws ∧ (n ≤ 9 → Shows e.bare e.level e ws) := by
  -- It is enough to find a phrase of the expression's own level.
  have hown {e : Expr} {n : Nat} (h : ∃ ws, Shows e.bare e.level e ws) :
      ∃ ws, Shows e.bare 10 e ws ∧ (n ≤ 9 → Shows e.bare e.level e ws) := by
    obtain ⟨ws, hws⟩ := h
    exact ⟨ws, hws.mono (Nat.le_trans e.level_le (by decide)), fun _ => hws⟩
  induction h generalizing e with
  | number =>
    cases e with
    | number m => exact hown (Shows.number m)
    | _ => cases he
  | @string s =>
    cases e with
    | string => cases he; exact hown ⟨_, .single (.literal s) .string rfl rfl⟩
    | _ => cases he
  | @boolean k b hb =>
    cases e with
    | boolean =>
      cases he
      have hspells : Spells (boolText b) [.mark k] := hb ▸ .keyword (mem_keywords_of_boolText hb)
      exact hown ⟨_, .single hspells (.boolean hb) rfl rfl⟩
    | _ => cases he
  | unit =>
    cases e with
    | unit => exact hown ⟨_, .single Spells.empty.parens .unit rfl rfl⟩
    | _ => cases he
  | nil =>
    cases e with
    | nil => exact hown ⟨_, .single Spells.empty.squares .nil rfl rfl⟩
    | _ => cases he
  | @ident x =>
    cases e with
    | ident => cases he; exact hown ⟨_, .single (.name (hw x (by simp))) .ident rfl rfl⟩
    | _ => cases he
  | paren _ ih =>
    obtain ⟨ws, h10, hlevel⟩ := ih (fun x hx => hw x (by simp [between, hx])) he
    exact ⟨ws, h10, fun _ => hlevel (by decide)⟩
  | @block w stmts _ hsep hlast ih =>
    cases e with
    | block ss =>
      have he := Expr.block.inj he
      rw [mapNumbersStmts_eq, mapNumbersStmts_eq, List.map_map] at he
      refine hown (Shows.block ss ?_ (fun s hs => ?_) fun s hs => ?_)
      · rintro rfl
        exact hsep.ne_nil (by simpa using he.symm)
      · obtain ⟨t, ht, heq⟩ := List.mem_map.1 (he ▸ List.mem_map_of_mem hs)
        obtain ⟨ws, hws, -⟩ := ih t ht (fun x hx =>
          hw x (by simp [between, (hsep.sublist (List.mem_map_of_mem ht)).subset hx])) heq.symm
        exact ⟨ws, hws⟩
      · have hget := congrArg List.getLast? he
        rw [List.getLast?_map, List.getLast?_map, hs, Option.map_some] at hget
        obtain ⟨t, ht, heq⟩ := Option.map_eq_some_iff.1 hget.symm
        rw [← isDefinition_zeroed, zeroed, ← heq]
        exact (isDefinition_zeroed t.tree).trans (hlast t ht)
    | _ => cases he
  | @app v w f a _ _ ihf iha =>
    cases e with
    | app f' a' =>
      obtain ⟨hf, ha⟩ := Expr.app.inj he
      obtain ⟨fs, -, hfs⟩ := ihf (fun x hx => hw x (by simp [hx])) hf
      obtain ⟨as, -, has⟩ := iha (fun x hx => hw x (by simp [hx])) ha
      obtain ⟨fs, hfs⟩ := (hfs (by decide)).within (n := appLevel) (by decide)
      obtain ⟨as, has⟩ := (has (by decide)).within (n := atomLevel) (by decide)
      exact hown ⟨_, hfs.app has⟩
    | _ => cases he
  | @binary n v w k op l r hop hlevel _ _ ihl ihr =>
    cases e with
    | binary op' l' r' =>
      obtain ⟨rfl, hl, hr⟩ := Expr.binary.inj he
      have hop7 := op'.level_le
      obtain ⟨ls, -, hls⟩ := ihl (fun x hx => hw x (by simp [hx])) hl
      obtain ⟨rs, -, hrs⟩ := ihr (fun x hx => hw x (by simp [hx])) hr
      obtain ⟨ls, hls⟩ := (hls (by omega)).within (n := op'.level) (by omega)
      obtain ⟨rs, hrs⟩ := (hrs (by omega)).within (n := op'.level - 1) (by omega)
      exact hown ⟨_, .binary hop hls hrs⟩
    | _ => cases he
  | @cons v w h t _ _ ihh iht =>
    cases e with
    | cons h' t' =>
      obtain ⟨hh, ht⟩ := Expr.cons.inj he
      obtain ⟨hs, -, hhs⟩ := ihh (fun x hx => hw x (by simp [hx])) hh
      obtain ⟨ts, -, hts⟩ := iht (fun x hx => hw x (by simp [hx])) ht
      obtain ⟨hs, hhs⟩ := (hhs (by decide)).within (n := consLevel - 1) (by decide)
      obtain ⟨ts, hts⟩ := (hts (by decide)).within (n := consLevel) (by decide)
      exact hown ⟨_, hhs.cons (hts.mono (by decide))⟩
    | _ => cases he
  | @lambda v w p a b hp _ ih =>
    cases e with
    | lambda p' a' b' =>
      obtain ⟨rfl, rfl, hb⟩ := Expr.lambda.inj he
      obtain ⟨vs, hvs, hp⟩ := hp.prints fun x hx => hw x (by simp [hx])
      obtain ⟨bs, -, hbs⟩ := ih (fun x hx => hw x (by simp [hx])) hb
      exact hown ⟨_, .lambda hvs hp ((hbs (by decide)).mono b'.level_le)⟩
    | _ => cases he
  | @cond u v w c y n _ _ _ ihc ihy ihn =>
    cases e with
    | cond c' y' n' =>
      obtain ⟨hc, hy, hn⟩ := Expr.cond.inj he
      obtain ⟨cs, -, hcs⟩ := ihc (fun x hx => hw x (by simp [hx])) hc
      obtain ⟨ys, -, hys⟩ := ihy (fun x hx => hw x (by simp [hx])) hy
      obtain ⟨ns, -, hns⟩ := ihn (fun x hx => hw x (by simp [hx])) hn
      exact hown ⟨_, .cond ((hcs (by decide)).mono c'.level_le)
        ((hys (by decide)).mono y'.level_le) ((hns (by decide)).mono n'.level_le)⟩
    | _ => cases he
  | @select v w e₀ arms _ hp _ hsep ihe ihb =>
    cases e with
    | select e' arms' =>
      obtain ⟨he, harms⟩ := Expr.select.inj he
      rw [mapNumbersArms_eq, mapNumbersArms_eq, List.map_map] at harms
      have hnamed {arm : Spelled Pat × Spelled Expr} (harm : arm ∈ arms) (x : String)
          (hx : .ident x ∈ caseWords arm) : Named x :=
        hw x (by simp [between, (hsep.sublist (List.mem_map_of_mem harm)).subset hx])
      obtain ⟨vs, -, hvs⟩ := ihe (fun x hx => hw x (by simp [hx])) he
      have hvalue := (hvs (by decide)).mono e'.level_le
      refine hown (Shows.select arms' ?_ hvalue (fun arm harm => ?_) fun arm harm => ?_)
      · rintro rfl
        exact hsep.ne_nil (by simpa using harms.symm)
      · obtain ⟨t, ht, heq⟩ := List.mem_map.1 (harms ▸ List.mem_map_of_mem harm)
        obtain ⟨ws, hws, hphrase⟩ := (hp t ht).prints fun x hx =>
          hnamed ht x (by simp [caseWords, hx])
        rw [← congrArg Prod.fst heq]
        exact ⟨ws, hws, hphrase.mono (Pat.level_le _)⟩
      · obtain ⟨t, ht, heq⟩ := List.mem_map.1 (harms ▸ List.mem_map_of_mem harm)
        obtain ⟨ws, -, hws⟩ := ihb t ht (fun x hx => hnamed ht x (by simp [caseWords, hx]))
          (congrArg Prod.snd heq).symm
        exact ⟨ws, (hws (by decide)).mono (level_le _)⟩
    | _ => cases he
  | @define u v w k binder p a e₀ hk hp ha _ ihe =>
    cases e with
    | define binder' p' a' e' =>
      obtain ⟨rfl, rfl, rfl, hv⟩ := Expr.define.inj he
      obtain ⟨ps, hps, hp⟩ := Pat.prints_simple (hp.prints fun x hx => hw x (by simp [hx]))
      obtain ⟨as, has, hboundary, ha⟩ := ha.prints fun x hx => hw x (by simp [hx])
      obtain ⟨es, -, hes⟩ := ihe (fun x hx => hw x (by simp [hx])) hv
      have hvalue := (hes (by decide)).mono e'.level_le
      exact ⟨_, .define hk hps hp has hboundary ha hvalue, fun h => absurd h (by decide)⟩
    | _ => cases he
  | loosen _ ih =>
    obtain ⟨ws, h10, hlevel⟩ := ih hw he
    exact ⟨ws, h10, fun hn => hlevel (by omega)⟩

/-- What is read has no negative numbers. -/
theorem Phrase.numbers_nonneg {n : Nat} {w : List Word} {e : Expr} (h : Phrase n w e) :
    ∀ m ∈ e.numbers, 0 ≤ m.toInt := by
  induction h with
  | number hn => simpa using hn.1
  | string | boolean | unit | nil | ident => simp [numbers, walk, number?]
  | paren _ ih | loosen _ ih | lambda _ _ ih | define _ _ _ _ ih => exact ih
  | app _ _ ihl ihr | cons _ _ ihl ihr | binary _ _ _ _ ihl ihr =>
    simpa using List.forall_mem_append.2 ⟨ihl, ihr⟩
  | cond _ _ _ ihc ihy ihn =>
    simpa using List.forall_mem_append.2 ⟨List.forall_mem_append.2 ⟨ihc, ihy⟩, ihn⟩
  | block _ _ _ ih =>
    simp only [numbers_block, List.mem_flatMap, List.mem_map]
    rintro m ⟨_, ⟨s, hs, rfl⟩, hm⟩
    exact ih s hs m hm
  | select _ _ _ _ ihe ihb =>
    simp only [numbers_select, List.mem_append, List.mem_flatMap, List.mem_map]
    rintro m (hm | ⟨_, ⟨arm, harm, rfl⟩, hm⟩)
    · exact ihe m hm
    · exact ihb arm harm m hm

/-- **The text of a tree that is read spells a phrase for it.** -/
theorem Phrase.prints {n : Nat} {w : List Word} {e : Expr} (h : Phrase n w e)
    (hw : ∀ x, .ident x ∈ w → Named x) : ∃ ws, Spells e.bare ws ∧ Phrase 10 ws e := by
  obtain ⟨ws, hws, -⟩ := h.shows hw rfl
  have hmin : Int64.minValue ∉ e.numbers := fun hm => absurd (h.numbers_nonneg _ hm) (by decide)
  have hphrase := hws.phrase hmin
  rw [spelledOut_eq_self h.numbers_nonneg] at hphrase
  exact ⟨ws, hws.spells, hphrase⟩

end Expr

end LetPoly
