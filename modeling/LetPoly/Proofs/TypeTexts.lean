import LetPoly.Proofs.CanonicalForms
import LetPoly.Proofs.LetterNames

/-! # The texts of types

A type that has been read is read again from its text (`Ty.parse_reprinted`).

The texts in which types are shown are not all sources: the letters of a number may be a
keyword, and a missing type is shown as `<nil>`.  They are unambiguous nevertheless.  A text
is cut into **pieces** at its blanks and brackets (`pieces`), and the pieces are words of the
grammar of types if every piece that is no sign counts as a name (`pieceWords`).  The words
are a phrase for the type with its names as they are shown (`Ty.phrase_print`), no row of
words is a phrase for two types (`Ty.Phrase.unique`), and no two numbers are shown alike
(`displayName_natural_injective`).  So types are displayed alike if and only if they have the same
canonical form once their free variables are bound (`Ty.display_eq_iff`).
-/

namespace LetPoly

open Word

/-! ## Types that have been read -/

namespace Ty

theorem parse_eq_ok {source : List Char} {t : Ty} :
    parse source = .ok t ↔ (Token.scan source).fault = none ∧ Phrase 4 (Token.words source) t :=
  Reader.readAll_eq_ok_iff reads_read (fun bound _ _ => delivers_read bound)
    (by simp [Follows, startsAtom])

/-- **A type that has been read is read again from its text.** -/
theorem parse_reprinted (source : List Char) (t : Ty) (h : parse source = .ok t) :
    parse t.text.toList = .ok t := by
  obtain ⟨-, hphrase⟩ := parse_eq_ok.1 h
  obtain ⟨ws, hws, hphrase⟩ := hphrase.prints fun x => Token.named_of_mem_words
  obtain ⟨hfault, hwords⟩ := hws.scans.words
  refine parse_eq_ok.2 ⟨hfault, ?_⟩
  rw [show Token.words t.text.toList = ws from hwords]
  exact hphrase.mono t.level_le

/-- Both ways to write a quantifier, one of them after an arrow, a bound name that is the name of
a base type, and parentheses that the text does without. -/
theorem parse_reprinted_quantified :
    ∃ t, parse "tfn Int -> ((f a) [b]) -> b . ((Int)) (b -> c)".toList = .ok t ∧
      t.text = "Int . f a [b] -> b . Int (b -> c)" ∧ parse t.text.toList = .ok t := by
  have h : parse "tfn Int -> ((f a) [b]) -> b . ((Int)) (b -> c)".toList =
      .ok (.poly "Int" (.arrow (.app (.app (.var "f") (.var "a")) (.list (.var "b")))
        (.poly "b" (.app .int (.arrow (.var "b") (.var "c")))))) := by
    cbv
  exact ⟨_, h, by cbv, parse_reprinted _ _ h⟩

/-- No row of tokens is a phrase for two types. -/
theorem Phrase.unique {ts : List Token} {t u : Ty} (h : Phrase 4 (ts.map Token.word) t)
    (h' : Phrase 4 (ts.map Token.word) u) : t = u := by
  have hread {t : Ty} (h : Phrase 4 (ts.map Token.word) t) :=
    delivers_read (ts.length + 1) h (by simp) ts ⟨.eof, "", .start⟩ [] rfl
      (by simp [Follows, startsAtom])
  have heq := (hread h).symm.trans (hread h')
  simpa using heq

end Ty

/-! ## Texts in pieces -/

/-- The characters that end a piece. -/
def isDelimiter (c : Char) : Bool := [' ', '(', ')', '[', ']'].contains c

/-- **The pieces of a text**: its brackets, and what stands between blanks and brackets. -/
def pieces (cs : List Char) : List (List Char) :=
  (cs.splitBy fun c d => !isDelimiter c && !isDelimiter d).filter (· ≠ [' '])

/-- The signs in the text of a type. -/
def signs : List Token.Kind := [.lparen, .rparen, .lbracket, .rbracket, .arrow, .dot]

/-- A piece that is no sign counts as a name. -/
def pieceToken (p : List Char) : Token :=
  ⟨(signs.find? (·.name == String.ofList p)).getD .ident, String.ofList p, .start⟩

/-- **The words of a text**, with names for all pieces that are no signs. -/
def pieceWords (s : String) : List Word := ((pieces s.toList).map pieceToken).map Token.word

theorem pieceWords_delimited (s t : String) {d : Char} (hd : isDelimiter d) :
    pieceWords (s ++ String.singleton d ++ t) =
      pieceWords s ++ pieceWords (String.singleton d) ++ pieceWords t := by
  have hsplit (cs ds : List Char) :
      pieces (cs ++ [d] ++ ds) = pieces cs ++ pieces [d] ++ pieces ds := by
    rw [pieces, List.splitBy_append (by simp [hd]), List.splitBy_append (by simp [hd]),
      List.filter_append, List.filter_append]
    rfl
  simp only [pieceWords, String.toList_append, String.toList_singleton, hsplit, List.map_append]

theorem pieceWords_blank (s t : String) :
    pieceWords (s ++ " " ++ t) = pieceWords s ++ pieceWords t := by
  have h := pieceWords_delimited s t (d := ' ') (by decide)
  rw [show pieceWords (String.singleton ' ') = [] by decide, List.append_nil] at h
  exact h

theorem pieceWords_between (s : String) {l r : Char} {j k : Token.Kind}
    (hl : isDelimiter l ∧ pieceWords (String.singleton l) = [.mark j])
    (hr : isDelimiter r ∧ pieceWords (String.singleton r) = [.mark k]) :
    pieceWords (String.singleton l ++ s ++ String.singleton r) = between j k (pieceWords s) := by
  have hempty : pieceWords "" = [] := by decide
  have hleft := pieceWords_delimited "" (s ++ String.singleton r) hl.1
  have hright := pieceWords_delimited s "" hr.1
  rw [String.append_empty] at hright
  rw [String.empty_append, ← String.append_assoc, hright, hempty, hl.2, hr.2] at hleft
  simpa [between] using hleft

theorem pieceWords_parens (s : String) :
    pieceWords ("(" ++ s ++ ")") = between .lparen .rparen (pieceWords s) :=
  pieceWords_between s (l := '(') (r := ')') (by decide) (by decide)

theorem pieceWords_squares (s : String) :
    pieceWords ("[" ++ s ++ "]") = between .lbracket .rbracket (pieceWords s) :=
  pieceWords_between s (l := '[') (r := ']') (by decide) (by decide)

/-- A sign between blanks. -/
theorem pieceWords_sign (s t sign : String) {k : Token.Kind} (hk : pieceWords sign = [.mark k]) :
    pieceWords (s ++ (" " ++ sign ++ " ") ++ t) = pieceWords s ++ .mark k :: pieceWords t := by
  have hassoc : s ++ (" " ++ sign ++ " ") ++ t = s ++ " " ++ (sign ++ " " ++ t) := by
    simp only [String.append_assoc]
  rw [hassoc, pieceWords_blank, pieceWords_blank, hk, List.singleton_append]

/-! ## Phrases for what is shown -/

namespace Ty

/-- The names of the constants in a type. -/
def constants : Ty → List String
  | .const c => [c]
  | .var _ | .missing => []
  | .arrow a r => a.constants ++ r.constants
  | .app f a => f.constants ++ a.constants
  | .poly _ t => t.constants
  | .list t => t.constants

/-- The type with its names as they are shown, and a name for what is missing. -/
def shown : Ty → Ty
  | .const c => .const c
  | .var x => .var (displayName x)
  | .arrow a r => .arrow a.shown r.shown
  | .app f a => .app f.shown a.shown
  | .poly b t => .poly (displayName b) t.shown
  | .list t => .list t.shown
  | .missing => .var "<nil>"

/-- A name that is a piece by itself, and not the name of a base type. -/
structure Legible (x : String) : Prop where
  word : pieceWords x = [.ident x]
  not_base : x ∉ baseNames

/-- In parentheses, or where it binds tightly enough, the text of a type is a phrase of the
level of its place. -/
theorem phrase_within (n : Nat) (simple : Bool) {t : Ty}
    (h : Phrase t.level (pieceWords (t.print false)) t.shown) (hn : 1 ≤ n)
    (hlevel : simple = false → t.level ≤ n) :
    Phrase n (pieceWords (t.print simple)) t.shown := by
  rw [print_eq]
  cases hwrap : simple && decide (1 < t.level) with
  | false =>
    refine h.mono ?_
    cases simple <;> simp_all
    omega
  | true =>
    have hparen := ((h.mono t.level_le).paren).mono hn
    rwa [← pieceWords_parens] at hparen

/-- **The words of the text of a type are a phrase for the type as it is shown.** -/
theorem phrase_print {t : Ty} (hconst : ∀ c ∈ t.constants, c ∈ baseNames)
    (hnames : ∀ x ∈ t.names, Legible (displayName x)) :
    Phrase t.level (pieceWords (t.print false)) t.shown := by
  induction t with
  | const c =>
    have hc : c ∈ baseNames := hconst c (by simp [constants])
    have hword : ∀ c ∈ baseNames, pieceWords c = [.ident c] := by decide
    rw [print, hword c hc]
    exact .base hc
  | var x =>
    obtain ⟨hword, hbase⟩ := hnames x (by simp [names])
    rw [print, hword]
    exact .var hbase
  | missing => exact .var (by decide)
  | list t ih =>
    rw [print, pieceWords_squares]
    exact .list ((ih hconst hnames).mono (level_le _))
  | app f a ihf iha =>
    simp only [constants, names, List.forall_mem_append] at hconst hnames
    have hf := phrase_within 2 f.isOpen (ihf hconst.1 hnames.1) (by decide)
      (fun h => by simpa [isOpen_eq] using h)
    have ha := phrase_within 1 true (iha hconst.2 hnames.2) (by decide) (by simp)
    show Phrase 2 (pieceWords (f.print f.isOpen ++ " " ++ a.print true)) _
    rw [pieceWords_blank]
    exact hf.app ha
  | arrow a r iha ihr =>
    simp only [constants, names, List.forall_mem_append] at hconst hnames
    have ha := phrase_within 2 a.isOpen (iha hconst.1 hnames.1) (by decide)
      (fun h => by simpa [isOpen_eq] using h)
    have hr := (ihr hconst.2 hnames.2).mono (level_le _)
    show Phrase 3 (pieceWords (a.print a.isOpen ++ (" " ++ "->" ++ " ") ++ r.print false)) _
    rw [pieceWords_sign _ _ "->" (k := .arrow) (by decide)]
    exact ha.arrow hr
  | poly b t ih =>
    obtain ⟨hb, hnames⟩ := List.forall_mem_cons.1 hnames
    show Phrase 4 (pieceWords (displayName b ++ (" " ++ "." ++ " ") ++ t.print false)) _
    rw [pieceWords_sign _ _ "." (k := .dot) (by decide), hb.word]
    exact .dot ((ih hconst hnames).mono (level_le _))

end Ty

/-! ## Numbers as names -/

/-- The characters in which numbers are shown. -/
def isShown (c : Char) : Bool := c.isLower || c.isDigit

theorem displayName_isShown {n : Nat} (hn : 0 < n) :
    (displayName (Text.Decimal.natural n)).toList ≠ [] ∧
      ∀ c ∈ (displayName (Text.Decimal.natural n)).toList, isShown c := by
  rw [displayName_natural hn, String.toList_ofList]
  by_cases hlt : n < Supply.capacity
  · rw [if_pos hlt]
    exact ⟨by simp [letters_of_pos hn], fun c hc => by simp [isShown, isLower_of_mem_letters hc]⟩
  · rw [if_neg hlt]
    refine ⟨Nat.toDigits_ne_nil, fun c hc => ?_⟩
    have hdigit := Nat.isDigit_of_mem_toDigits (by decide) (by decide) hc
    simp [isShown, hdigit]

theorem Ty.legible_of_isShown {x : String} (hne : x.toList ≠ []) (h : ∀ c ∈ x.toList, isShown c) :
    Ty.Legible x := by
  have hplain : ∀ c ∈ x.toList, isDelimiter c = false := by
    have hchars : [' ', '(', ')', '[', ']'].any isShown = false := by decide
    intro c hc
    rw [Bool.eq_false_iff]
    intro hd
    exact List.any_eq_false.1 hchars c (by simpa [isDelimiter] using hd) (h c hc)
  have hpieces : pieces x.toList = [x.toList] := by
    have hchain : x.toList.IsChain fun c d => !isDelimiter c && !isDelimiter d :=
      (List.pairwise_of_forall_mem_list fun c hc d hd => by
        simp [hplain c hc, hplain d hd]).isChain
    have hblank : x.toList ≠ [' '] := by
      intro heq
      simp [heq, isDelimiter] at hplain
    rw [pieces, List.splitBy_of_isChain hne hchain]
    simp [hblank]
  have hsign : signs.find? (·.name == x) = none := by
    have hnames : signs.any (·.name.toList.all isShown) = false := by decide
    refine List.find?_eq_none.2 fun k hk hkx => ?_
    refine List.any_eq_false.1 hnames k hk ?_
    rw [eq_of_beq hkx]
    exact List.all_eq_true.2 h
  have hbase : baseNames.any (·.toList.all isShown) = false := by decide
  refine ⟨?_, fun hmem => List.any_eq_false.1 hbase x hmem (List.all_eq_true.2 h)⟩
  rw [pieceWords, hpieces, List.map_singleton, pieceToken, String.ofList_toList, hsign]
  rfl

namespace Ty

/-- The variable is named by a number, counted from one. -/
def Numbered (x : String) : Prop := ∃ n, 0 < n ∧ x = Text.Decimal.natural n

theorem Numbered.legible {x : String} (h : Numbered x) : Legible (displayName x) := by
  obtain ⟨n, hn, rfl⟩ := h
  obtain ⟨hne, hall⟩ := displayName_isShown hn
  exact legible_of_isShown hne hall

theorem Numbered.ne_nil {x : String} (h : Numbered x) : displayName x ≠ "<nil>" := by
  obtain ⟨n, hn, rfl⟩ := h
  intro heq
  have hall := (displayName_isShown hn).2
  rw [heq] at hall
  exact absurd (hall '<' (by decide)) (by decide)

theorem Numbered.eq_of_displayName {x y : String} (hx : Numbered x) (hy : Numbered y)
    (h : displayName x = displayName y) : x = y := by
  obtain ⟨m, hm, rfl⟩ := hx
  obtain ⟨n, hn, rfl⟩ := hy
  rw [displayName_natural_injective hm hn h]

/-- **Types whose variables are numbered are shown differently.** -/
theorem shown_injective {t u : Ty} (ht : ∀ x ∈ t.names, Numbered x) (hu : ∀ x ∈ u.names, Numbered x)
    (h : t.shown = u.shown) : t = u := by
  induction t generalizing u with
  | const c =>
    cases u with
    | const d => exact h
    | var | arrow | app | poly | list | missing => cases h
  | var x =>
    have hx : Numbered x := ht x (by simp [names])
    cases u with
    | var y =>
      have hy : Numbered y := hu y (by simp [names])
      rw [hx.eq_of_displayName hy (Ty.var.inj h)]
    | missing => exact absurd (Ty.var.inj h) hx.ne_nil
    | const | arrow | app | poly | list => cases h
  | arrow a r iha ihr =>
    cases u with
    | arrow a' r' =>
      simp only [names, List.forall_mem_append] at ht hu
      obtain ⟨ha, hr⟩ := Ty.arrow.inj h
      rw [iha ht.1 hu.1 ha, ihr ht.2 hu.2 hr]
    | const | var | app | poly | list | missing => cases h
  | app f a ihf iha =>
    cases u with
    | app f' a' =>
      simp only [names, List.forall_mem_append] at ht hu
      obtain ⟨hf, ha⟩ := Ty.app.inj h
      rw [ihf ht.1 hu.1 hf, iha ht.2 hu.2 ha]
    | const | var | arrow | poly | list | missing => cases h
  | poly b t ih =>
    cases u with
    | poly b' t' =>
      simp only [names, List.forall_mem_cons] at ht hu
      obtain ⟨hb, ht'⟩ := Ty.poly.inj h
      rw [ht.1.eq_of_displayName hu.1 hb, ih ht.2 hu.2 ht']
    | const | var | arrow | app | list | missing => cases h
  | list t ih =>
    cases u with
    | list t' => rw [ih (u := t') ht hu (Ty.list.inj h)]
    | const | var | arrow | app | poly | missing => cases h
  | missing =>
    cases u with
    | missing => rfl
    | var y => exact absurd (Ty.var.inj h).symm (hu y (by simp [names])).ne_nil
    | const | arrow | app | poly | list => cases h

/-! ## What is displayed -/

/-- The names of a canonical form are numbers. -/
theorem numbered_canonical {t : Ty} {x : String} (hx : x ∈ t.canonical.names) : Numbered x := by
  rw [canonical_eq, names_mapNames] at hx
  obtain ⟨y, -, rfl⟩ := List.mem_map.1 hx
  exact ⟨_, Nat.succ_pos _, rfl⟩

theorem constants_mapNames (f : String → String) (t : Ty) :
    (t.mapNames f).constants = t.constants := by
  induction t <;> simp_all [mapNames, constants]

theorem constants_bindAll (xs : List String) (t : Ty) :
    (bindAll xs t).constants = t.constants := by
  induction xs with
  | nil => rfl
  | cons x xs ih => exact ih

theorem constants_unbind (t : Ty) : t.unbind.2.constants = t.constants := by
  induction t with
  | poly b t ih => exact ih
  | const | var | arrow | app | list | missing => rfl

theorem constants_quantify_canonical (t : Ty) :
    t.quantify.canonical.constants = t.constants := by
  rw [canonical_eq, constants_mapNames, arranged, constants_bindAll, constants_unbind, quantify,
    constants_bindAll]

theorem phrase_display {t : Ty} (ht : ∀ c ∈ t.constants, c ∈ baseNames) :
    Phrase 4 (pieceWords t.display) t.quantify.canonical.shown := by
  have hphrase := phrase_print (t := t.quantify.canonical)
    (by rwa [constants_quantify_canonical]) fun x hx => (numbered_canonical hx).legible
  exact hphrase.mono (level_le _)

/-- **What is displayed is unambiguous**: two types are displayed alike if and only if they
have the same canonical form once their free variables are bound. -/
theorem display_eq_iff (t u : Ty) (ht : ∀ c ∈ t.constants, c ∈ baseNames)
    (hu : ∀ c ∈ u.constants, c ∈ baseNames) :
    t.display = u.display ↔ t.quantify.canonical = u.quantify.canonical := by
  refine ⟨fun h => ?_, fun h => congrArg text h⟩
  have hshown := (phrase_display ht).unique (h ▸ phrase_display hu)
  exact shown_injective (fun _ => numbered_canonical) (fun _ => numbered_canonical) hshown

/-- Two types that differ in how applications nest, and one with other names that binds one of
them already. -/
theorem display_eq_iff_nested :
    let t : Ty := .arrow (.app (.app (.var "f") (.var "7")) (.var "7")) (.poly "a" (.var "a"))
    let u : Ty := .arrow (.app (.var "f") (.app (.var "7") (.var "7"))) (.poly "a" (.var "a"))
    let v : Ty := .poly "y" (.arrow (.app (.app (.var "x") (.var "y")) (.var "y"))
      (.poly "z" (.var "z")))
    t.display = "a . b . a b b -> c . c" ∧ t.display = v.display ∧
      t.quantify.canonical = v.quantify.canonical ∧
      u.display = "a . b . a (b b) -> c . c" ∧ t.quantify.canonical ≠ u.quantify.canonical := by
  intro t u v
  have hdisplay : t.display = "a . b . a b b -> c . c" := by cbv
  have htv : t.display = v.display := by cbv
  have hu : u.display = "a . b . a (b b) -> c . c" := by cbv
  have hconst {w : Ty} (hw : w.constants = []) : ∀ c ∈ w.constants, c ∈ baseNames := by simp [hw]
  refine ⟨hdisplay, htv, (display_eq_iff t v (hconst rfl) (hconst rfl)).1 htv, hu, fun heq => ?_⟩
  have hsame := (display_eq_iff t u (hconst rfl) (hconst rfl)).2 heq
  rw [hdisplay, hu] at hsame
  exact absurd hsame (by decide)

end Ty

end LetPoly
