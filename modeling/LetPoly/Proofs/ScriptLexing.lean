import LetPoly.Proofs.Lexing
import LetPoly.Proofs.ScriptGrammar

/-! # Dividing scripts into words

A text is divided into words in at most one way (`Scans.unique`).  Which words these are is
found from the parts of the text.  A part **spells** words if, put before any text that does
not go on a word, it adds them to the words of that text (`Spells`); a part that ends in a
blank or a bracket may stand before anything (`Opens`).  Names, numerals and texts between
quotes spell themselves; what stands between them is known word by word
(`Opens.of_layout`).
-/

namespace LetPoly.Script

open Text.Decimal (isDigit)

/-! ## The first character of a word -/

theorem isNameStart_of_isDigit {c : Char} (h : isDigit c) : isNameStart c = false := by
  have hdollar : c ≠ '$' := by
    rintro rfl
    exact absurd h (by decide)
  simp [isNameStart, Token.isLetter_of_isDigit h, hdollar]

theorem isName_iff {w : String} : isName w ↔ ∃ c cs, w.toList = c :: cs ∧ isNameStart c ∧
    ∀ d ∈ cs, isNamePart d := by
  unfold isName
  cases w.toList with
  | nil => simp
  | cons c cs => simp

theorem isNumeral_iff {w : String} : isNumeral w ↔ ∃ c cs, w.toList = c :: cs ∧ isDigit c ∧
    (∀ d ∈ cs, isDigit d) ∧ (c ≠ '0' ∨ cs = []) := by
  unfold isNumeral
  cases w.toList with
  | nil => simp
  | cons c cs => simp [and_assoc]

/-- The first character of a word tells of which kind it is. -/
theorem Lexeme.first {w : String} (hw : Lexeme w) : ∃ c cs, w.toList = c :: cs ∧ c ≠ ' ' ∧
    (isNameStart c → isName w) ∧ (isDigit c → isNumeral w) ∧ (c = '"' → IsLiteral w) ∧
    (isNamePart c = false → c ≠ '"' → w ∈ punctuators) := by
  cases hw with
  | name h =>
    obtain ⟨c, cs, hcs, hc, -⟩ := isName_iff.1 h
    refine ⟨c, cs, hcs, ?_, fun _ => h, fun hd => ?_, ?_, fun hn => ?_⟩
    · rintro rfl
      exact absurd hc (by decide)
    · simp [isNameStart_of_isDigit hd] at hc
    · rintro rfl
      exact absurd hc (by decide)
    · simp [isNamePart, hc] at hn
  | numeral h =>
    obtain ⟨c, cs, hcs, hc, -⟩ := isNumeral_iff.1 h
    refine ⟨c, cs, hcs, ?_, fun hn => ?_, fun _ => h, ?_, fun hn => ?_⟩
    · rintro rfl
      exact absurd hc (by decide)
    · simp [isNameStart_of_isDigit hc] at hn
    · rintro rfl
      exact absurd hc (by decide)
    · simp [isNamePart, hc] at hn
  | literal h =>
    obtain ⟨cs, hcs, hquoted⟩ := h
    refine ⟨'"', cs, hcs, by decide, fun hn => ?_, fun hd => ?_, fun _ => ⟨cs, hcs, hquoted⟩,
      fun _ hc => absurd rfl hc⟩
    · exact absurd hn (by decide)
    · exact absurd hd (by decide)
  | punctuator h =>
    have hfirst : ∀ w ∈ punctuators, w.toList.head?.any fun c =>
        c != ' ' && !isNamePart c && c != '"' := by decide
    obtain ⟨c, hc, hsign⟩ := (Option.any_eq_true _ _).1 (hfirst w h)
    obtain ⟨cs, hcs⟩ := List.head?_eq_some_iff.1 hc
    simp only [isNamePart, Bool.and_eq_true, bne_iff_ne, Bool.not_eq_true', Bool.or_eq_false_iff]
      at hsign
    obtain ⟨⟨hblank, hstart, hdigit⟩, hquote⟩ := hsign
    refine ⟨c, cs, hcs, hblank, fun hn => ?_, fun hd => ?_, fun hq => absurd hq hquote,
      fun _ _ => h⟩
    · simp [hstart] at hn
    · simp [hdigit] at hd

theorem Lexeme.ne_nil {w : String} (hw : Lexeme w) : w.toList ≠ [] := by
  obtain ⟨c, cs, hcs, -⟩ := hw.first
  simp [hcs]

/-! ## Words are read in one way -/

theorem Scans.cases_text {cs : List Char} {ws : List String} (h : Scans cs ws) :
    cs = [] ∧ ws = [] ∨ (∃ rest, cs = ' ' :: rest ∧ Scans rest ws) ∨
      ∃ w rest us, cs = w.toList ++ rest ∧ ws = w :: us ∧ Lexeme w ∧
        (∀ v, Lexeme v → v.toList <+: cs → v.toList.length ≤ w.toList.length) ∧
        Scans rest us := by
  cases h with
  | nil => exact .inl ⟨rfl, rfl⟩
  | blank h => exact .inr (.inl ⟨_, rfl, h⟩)
  | word hw hlongest _ h => exact .inr (.inr ⟨_, _, _, rfl, rfl, hw, hlongest, h⟩)

/-- **A text is divided into words in at most one way.** -/
theorem Scans.unique {cs : List Char} {ws ws' : List String} (h : Scans cs ws)
    (h' : Scans cs ws') : ws = ws' := by
  induction h generalizing ws' with
  | nil =>
    obtain ⟨-, rfl⟩ | ⟨_, heq, -⟩ | ⟨w, _, _, heq, -, hw, -⟩ := h'.cases_text
    · rfl
    · cases heq
    · exact absurd (List.append_eq_nil_iff.1 heq.symm).1 hw.ne_nil
  | @blank cs ws h ih =>
    obtain ⟨heq, -⟩ | ⟨_, heq, hrest⟩ | ⟨w, _, _, heq, -, hw, -⟩ := h'.cases_text
    · cases heq
    · cases heq
      exact ih hrest
    · obtain ⟨c, cs, hcs, hc, -⟩ := hw.first
      rw [hcs] at heq
      cases heq
      exact absurd rfl hc
  | @word w cs ws hw hlongest _ h ih =>
    obtain ⟨heq, -⟩ | ⟨_, heq, -⟩ | ⟨v, rest, us, heq, rfl, hv, hlongest', hrest⟩ := h'.cases_text
    · exact absurd (List.append_eq_nil_iff.1 heq).1 hw.ne_nil
    · obtain ⟨c, cs, hcs, hc, -⟩ := hw.first
      rw [hcs] at heq
      cases heq
      exact absurd rfl hc
    · -- both are the longest word of this place
      have hle := hlongest v hv (heq ▸ List.prefix_append _ _)
      have hge := hlongest' w hw (List.prefix_append _ _)
      obtain ⟨hwv, rfl⟩ := List.append_inj heq (by omega)
      rw [String.toList_injective hwv, ih hrest]

/-! ## Words in front of a text -/

/-- What begins as a row of characters of a class is no longer than the row, if the class
ends with it. -/
theorem length_le_of_class {q : Char → Bool} {v w cs : List Char} (hw : w ≠ [])
    (hv : ∀ c ∈ v.tail, q c) (hcs : ∀ c ∈ cs.head?, q c = false) (h : v <+: w ++ cs) :
    v.length ≤ w.length := by
  by_contra hlt
  obtain ⟨u, rfl⟩ : w <+: v :=
    List.prefix_of_prefix_length_le (List.prefix_append w cs) h (by omega)
  have hu : u <+: cs := (List.prefix_append_right_inj w).1 h
  cases u with
  | nil => simp at hlt
  | cons d u =>
    obtain ⟨rest, rfl⟩ := hu
    have hd : q d := hv d (by rw [List.tail_append_of_ne_nil hw]; simp)
    simp [hcs d rfl] at hd

theorem head?_eq_of_prefix {v w cs : List Char} {c : Char} (h : v <+: c :: w ++ cs) (hv : v ≠ []) :
    v.head? = some c := by
  cases v with
  | nil => exact absurd rfl hv
  | cons d v => simp_all [List.cons_prefix_cons]

/-- A word is the longest one at its place if those of its kind are no longer. -/
theorem Scans.of_kind {kind : String → Prop} {w : String} {c : Char} {cs rest : List Char}
    {us : List String} (hw : Lexeme w) (hcs : w.toList = c :: cs)
    (hkind : ∀ v, Lexeme v → v.toList.head? = some c → kind v)
    (hlongest : ∀ v, kind v → v.toList <+: w.toList ++ rest → v.toList.length ≤ w.toList.length)
    (hnumeral : isNumeral w → ∀ c ∈ rest.head?, isNamePart c = false ∧ c ≠ '.')
    (h : Scans rest us) : Scans (w.toList ++ rest) (w :: us) := by
  refine .word hw (fun v hv hfront => hlongest v (hkind v hv ?_) hfront) hnumeral h
  rw [hcs] at hfront
  exact head?_eq_of_prefix hfront hv.ne_nil

theorem Scans.name {x : String} {rest : List Char} {us : List String} (hx : isName x)
    (hrest : ∀ c ∈ rest.head?, isNamePart c = false) (h : Scans rest us) :
    Scans (x.toList ++ rest) (x :: us) := by
  obtain ⟨c, cs, hcs, hc, -⟩ := isName_iff.1 hx
  refine .of_kind (.name hx) hcs (fun v hv hfirst => ?_) (fun v (hv : isName v) hfront => ?_)
    (fun hnumeral => ?_) h
  · obtain ⟨d, ds, hds, -, hname, -⟩ := hv.first
    rw [hds, List.head?_cons, Option.some.injEq] at hfirst
    exact hname (hfirst ▸ hc)
  · obtain ⟨d, ds, hds, -, hpart⟩ := isName_iff.1 hv
    exact length_le_of_class (by simp [hcs]) (by simpa [hds] using hpart) hrest hfront
  · obtain ⟨d, ds, hds, hd, -⟩ := isNumeral_iff.1 hnumeral
    rw [hcs] at hds
    cases hds
    simp [isNameStart_of_isDigit hd] at hc

theorem Scans.numeral {w : String} {rest : List Char} {us : List String} (hw : isNumeral w)
    (hrest : ∀ c ∈ rest.head?, isNamePart c = false ∧ c ≠ '.') (h : Scans rest us) :
    Scans (w.toList ++ rest) (w :: us) := by
  obtain ⟨c, cs, hcs, hc, -⟩ := isNumeral_iff.1 hw
  refine .of_kind (.numeral hw) hcs (fun v hv hfirst => ?_) (fun v (hv : isNumeral v) hfront => ?_)
    (fun _ => hrest) h
  · obtain ⟨d, ds, hds, -, -, hnumeral, -⟩ := hv.first
    rw [hds, List.head?_cons, Option.some.injEq] at hfirst
    exact hnumeral (hfirst ▸ hc)
  · obtain ⟨d, ds, hds, -, hdigits, -⟩ := isNumeral_iff.1 hv
    refine length_le_of_class (by simp [hcs]) (by simpa [hds] using hdigits) (fun e he => ?_) hfront
    have hpart := (hrest e he).1
    simp only [isNamePart, Bool.or_eq_false_iff] at hpart
    exact hpart.2

/-! ### Texts between quotes -/

/-- What follows the closing quote. -/
def afterQuote : List Char → Option (List Char)
  | [] => none
  | '\\' :: _ :: cs => afterQuote cs
  | c :: cs => if c = '"' then some cs else afterQuote cs

theorem afterQuote_cons {c : Char} (hbackslash : c ≠ '\\') (hquote : c ≠ '"') (cs : List Char) :
    afterQuote (c :: cs) = afterQuote cs := by
  cases cs <;> simp [afterQuote, hbackslash, hquote]

theorem afterQuote_hex {cs : List Char} (hcs : cs.all isHexDigit) (rest : List Char) :
    afterQuote (cs ++ rest) = afterQuote rest := by
  induction cs with
  | nil => rfl
  | cons c cs ih =>
    rw [List.all_cons, Bool.and_eq_true] at hcs
    rw [List.cons_append, afterQuote_cons, ih hcs.2]
    · rintro rfl
      exact absurd hcs.1 (by decide)
    · rintro rfl
      exact absurd hcs.1 (by decide)

/-- The closing quote is the first one that is not escaped. -/
theorem Quoted.afterQuote_append {cs : List Char} (h : Quoted cs) (rest : List Char) :
    afterQuote (cs ++ rest) = some rest := by
  induction h with
  | close => rfl
  | plain hc _ ih =>
    simp only [List.mem_cons, not_or] at hc
    rw [List.cons_append, afterQuote_cons hc.2.1 hc.1, ih]
  | escape _ _ ih => exact ih
  | @short a b cs hcode _ ih => exact (afterQuote_hex hcode (cs ++ rest)).trans ih
  | @long a b c d cs hcode _ ih => exact (afterQuote_hex hcode (cs ++ rest)).trans ih

theorem Scans.literal {w : String} {rest : List Char} {us : List String} (hw : IsLiteral w)
    (h : Scans rest us) : Scans (w.toList ++ rest) (w :: us) := by
  obtain ⟨cs, hcs, hquoted⟩ := hw
  refine .of_kind (.literal ⟨cs, hcs, hquoted⟩) hcs (fun v hv hfirst => ?_)
    (fun v (hv : IsLiteral v) hfront => ?_) (fun hnumeral => ?_) h
  · obtain ⟨d, ds, hds, -, -, -, hliteral, -⟩ := hv.first
    rw [hds, List.head?_cons, Option.some.injEq] at hfirst
    exact hliteral hfirst
  · obtain ⟨ds, hds, hquoted'⟩ := hv
    obtain ⟨rest', heq⟩ := hfront
    rw [hcs, hds, List.cons_append, List.cons_append, List.cons.injEq] at heq
    have hafter := hquoted'.afterQuote_append rest'
    rw [heq.2, hquoted.afterQuote_append, Option.some.injEq] at hafter
    rw [hafter, List.append_cancel_right_eq] at heq
    rw [hcs, hds, heq.2]
  · obtain ⟨d, ds, hds, hd, -⟩ := isNumeral_iff.1 hnumeral
    rw [hcs] at hds
    cases hds
    exact absurd hd (by decide)

/-! ### Signs -/

/-- The characters that a sign may go on with. -/
def signParts : List Char := ['.', '=', '<', '>', '+', '-', '*', '&', '|', '?']

def isSignPart (c : Char) : Bool := signParts.contains c

/-- The signs that no other sign starts with. -/
def brackets : List String := [lbrace, rbrace, "(", ")", ";", ",", ":"]

theorem Scans.punctuator {w : String} {rest : List Char} {us : List String}
    (hw : w ∈ punctuators)
    (hlongest : ∀ v ∈ punctuators, v.toList <+: w.toList ++ rest →
      v.toList.length ≤ w.toList.length) (h : Scans rest us) :
    Scans (w.toList ++ rest) (w :: us) := by
  have hfirst : ∀ w ∈ punctuators, w.toList.head?.any fun c => !isNamePart c && c != '"' := by
    decide
  obtain ⟨c, hc, hsign⟩ := (Option.any_eq_true _ _).1 (hfirst w hw)
  obtain ⟨cs, hcs⟩ := List.head?_eq_some_iff.1 hc
  simp only [Bool.and_eq_true, bne_iff_ne, Bool.not_eq_true'] at hsign
  refine .of_kind (.punctuator hw) hcs (fun v hv hfirst => ?_) hlongest (fun hnumeral => ?_) h
  · obtain ⟨d, ds, hds, -, -, -, -, hpunctuator⟩ := hv.first
    rw [hds, List.head?_cons, Option.some.injEq] at hfirst
    exact hpunctuator (hfirst ▸ hsign.1) (hfirst ▸ hsign.2)
  · obtain ⟨d, ds, hds, hd, -⟩ := isNumeral_iff.1 hnumeral
    rw [hcs] at hds
    cases hds
    simp [isNamePart, hd] at hsign

/-- A bracket may stand before anything. -/
theorem Scans.bracket {w : String} {rest : List Char} {us : List String} (hw : w ∈ brackets)
    (h : Scans rest us) : Scans (w.toList ++ rest) (w :: us) := by
  have halone : ∀ w ∈ brackets, w ∈ punctuators ∧ w.toList ≠ [] ∧ ∀ v ∈ punctuators,
      v.toList.head? = w.toList.head? → v.toList.length ≤ w.toList.length := by decide
  obtain ⟨hpunctuator, hne, halone⟩ := halone w hw
  refine .punctuator hpunctuator (fun v hv hfront => halone v hv ?_) h
  obtain ⟨c, cs, hcs⟩ := List.exists_cons_of_ne_nil hne
  rw [hcs] at hfront ⊢
  exact head?_eq_of_prefix hfront (Lexeme.punctuator hv).ne_nil

theorem Scans.sign {w : String} {rest : List Char} {us : List String} (hw : w ∈ punctuators)
    (hrest : ∀ c ∈ rest.head?, isSignPart c = false) (h : Scans rest us) :
    Scans (w.toList ++ rest) (w :: us) := by
  have hparts : ∀ v ∈ punctuators, v.toList.tail.all isSignPart := by decide
  refine .punctuator hw (fun v hv hfront => ?_) h
  exact length_le_of_class (Lexeme.punctuator hw).ne_nil (List.all_eq_true.1 (hparts v hv)) hrest
    hfront

/-! ## What a text spells -/

/-- A text that starts with this character does not go on a word. -/
def stops (c : Char) : Bool := !isNamePart c && c != '.'

/-- The text does not go on a word. -/
def Boundary (rest : List Char) : Prop := ∀ c ∈ rest.head?, stops c

theorem Boundary.isNamePart {rest : List Char} (h : Boundary rest) :
    ∀ c ∈ rest.head?, isNamePart c = false ∧ c ≠ '.' := by
  intro c hc
  simpa [stops] using h c hc

/-- **The text spells the words**: put before any text that does not go on a word, it adds
them to its words. -/
def Spells (s : String) (ws : List String) : Prop :=
  ∀ rest us, Boundary rest → Scans rest us → Scans (s.toList ++ rest) (ws ++ us)

/-- The text spells the words, whatever comes after it. -/
def Opens (s : String) (ws : List String) : Prop :=
  ∀ rest us, Scans rest us → Scans (s.toList ++ rest) (ws ++ us)

section
variable {s t : String} {ws vs : List String}

/-- The text alone has the words that it spells. -/
theorem Spells.scans (h : Spells s ws) : Scans s.toList ws := by
  simpa using h [] [] (by simp [Boundary]) .nil

theorem Opens.spells (h : Opens s ws) : Spells s ws := fun rest us _ hus => h rest us hus

theorem Opens.append (hs : Opens s ws) (ht : Opens t vs) : Opens (s ++ t) (ws ++ vs) := by
  intro rest us hus
  rw [String.toList_append, List.append_assoc, List.append_assoc]
  exact hs _ _ (ht rest us hus)

theorem Opens.before (hs : Opens s ws) (ht : Spells t vs) : Spells (s ++ t) (ws ++ vs) := by
  intro rest us hrest hus
  rw [String.toList_append, List.append_assoc, List.append_assoc]
  exact hs _ _ (ht rest us hrest hus)

theorem Spells.before (hs : Spells s ws) (ht : Opens t vs) (hst : t.toList.head?.any stops) :
    Opens (s ++ t) (ws ++ vs) := by
  intro rest us hus
  obtain ⟨c, hc, hstops⟩ := (Option.any_eq_true _ _).1 hst
  obtain ⟨cs, hcs⟩ := List.head?_eq_some_iff.1 hc
  rw [String.toList_append, List.append_assoc, List.append_assoc]
  refine hs _ _ (fun d hd => ?_) (ht rest us hus)
  obtain rfl : c = d := by simpa [hcs] using hd
  exact hstops

end

theorem Spells.name {x : String} (hx : isName x) : Spells x [x] :=
  fun _ _ hrest hus => .name hx (fun c hc => (hrest.isNamePart c hc).1) hus

theorem Spells.numeral {w : String} (hw : isNumeral w) : Spells w [w] :=
  fun _ _ hrest hus => .numeral hw hrest.isNamePart hus

theorem Opens.literal {w : String} (hw : IsLiteral w) : Opens w [w] :=
  fun _ _ hus => .literal hw hus

/-- An operator between blanks. -/
theorem Opens.sign {s w : String} {ws : List String} (hs : Opens s ws) (hw : w ∈ punctuators) :
    Opens (s ++ w ++ " ") (ws ++ [w]) := by
  rw [String.append_assoc]
  refine hs.append fun rest us hus => ?_
  rw [String.toList_append, List.append_assoc]
  refine Scans.sign hw (fun c hc => ?_) (.blank hus)
  obtain rfl : ' ' = c := by simpa using hc
  decide

/-! ### Texts that are known word by word -/

/-- The characters of a row of words and blanks. -/
def layout (ps : List String) : List Char := ps.flatMap String.toList

/-- No word of the row is gone on by what follows it, and the last is a bracket or a
blank. -/
def isSpaced : List String → Bool
  | [] => true
  | p :: ps => isSpaced ps && (p == " " || brackets.contains p ||
      isName p && (layout ps).head?.any (!isNamePart ·) ||
      punctuators.contains p && (layout ps).head?.any (!isSignPart ·))

theorem Opens.of_layout {s : String} (ps : List String) (hs : s.toList = layout ps)
    (h : isSpaced ps) : Opens s (ps.filter (· != " ")) := by
  intro rest us hus
  rw [hs]
  clear hs
  have hfirst {q : Char → Bool} {cs : List Char} (hcs : cs.head?.any (!q ·)) :
      ∀ c ∈ (cs ++ rest).head?, q c = false := by
    cases cs with
    | nil => cases hcs
    | cons c cs => simpa using hcs
  induction ps with
  | nil => exact hus
  | cons p ps ih =>
    simp only [isSpaced, Bool.and_eq_true, Bool.or_eq_true, beq_iff_eq, List.contains_iff_mem] at h
    obtain ⟨hps, hp⟩ := h
    have hwords (hblank : p ≠ " ")
        (h : Scans (p.toList ++ (layout ps ++ rest)) (p :: (ps.filter (· != " ") ++ us))) :
        Scans (layout (p :: ps) ++ rest) ((p :: ps).filter (· != " ") ++ us) := by
      simpa [layout, hblank] using h
    obtain ((rfl | hbracket) | ⟨hname, hnext⟩) | ⟨hsign, hnext⟩ := hp
    · exact (ih hps).blank
    · refine hwords ?_ (.bracket hbracket (ih hps))
      rintro rfl
      exact absurd hbracket (by decide)
    · refine hwords ?_ (.name hname (hfirst hnext) (ih hps))
      rintro rfl
      exact absurd hname (by decide)
    · refine hwords ?_ (.sign hsign (hfirst hnext) (ih hps))
      rintro rfl
      exact absurd hsign (by decide)

theorem opens_blank : Opens " " [] := .of_layout [" "] rfl (by decide)

theorem opens_lparen : Opens "(" ["("] := .of_layout ["("] rfl (by decide)

theorem opens_rparen : Opens ")" [")"] := .of_layout [")"] rfl (by decide)

theorem Spells.paren {s : String} {ws : List String} (h : Spells s ws) :
    Opens ("(" ++ s ++ ")") ("(" :: ws ++ [")"]) :=
  (opens_lparen.before h).before opens_rparen rfl

/-! ### Numerals -/

/-- The numeral of a number other than zero does not start with a zero. -/
theorem head?_toDigits_ne {n : Nat} (hn : 0 < n) : (Nat.toDigits 10 n).head? ≠ some '0' := by
  induction n using Nat.strongRecOn with
  | ind n ih =>
    rw [Nat.toDigits_eq_if (by decide)]
    split
    · have hsmall : ∀ m < 10, 0 < m → [Nat.digitChar m].head? ≠ some '0' := by decide
      exact hsmall n ‹_› hn
    · rw [List.head?_append_of_ne_nil _ Nat.toDigits_ne_nil]
      exact ih (n / 10) (by omega) (by omega)

theorem isNumeral_natural (n : Nat) : isNumeral (Text.Decimal.natural n) := by
  obtain ⟨c, cs, hcs⟩ := List.exists_cons_of_ne_nil (Nat.toDigits_ne_nil (n := n) (b := 10))
  have hdigits : ∀ d ∈ c :: cs, isDigit d := fun d hd =>
    Nat.isDigit_of_mem_toDigits (by decide) (by decide) (hcs ▸ hd)
  obtain ⟨hc, hrest⟩ := List.forall_mem_cons.1 hdigits
  refine isNumeral_iff.2 ⟨c, cs, by simp [Text.Decimal.natural, hcs], hc, hrest, ?_⟩
  obtain rfl | hn := Nat.eq_zero_or_pos n
  · rw [Nat.toDigits_of_lt_base (by decide), List.cons.injEq] at hcs
    exact .inr hcs.2.symm
  · refine .inl fun hzero => head?_toDigits_ne hn ?_
    rw [hcs, hzero, List.head?_cons]

theorem Spells.negative {w : String} (hw : isNumeral w) : Spells ("-" ++ w) ["-", w] := by
  intro rest us hrest hus
  rw [String.toList_append, List.append_assoc]
  refine Scans.sign (by decide) (fun c hc => ?_) (.numeral hw hrest.isNamePart hus)
  obtain ⟨d, ds, hds, hd, -⟩ := isNumeral_iff.1 hw
  obtain rfl : d = c := by simpa [hds] using hc
  have hsigns : signParts.any isDigit = false := by decide
  rw [Bool.eq_false_iff]
  exact fun hsign => List.any_eq_false.1 hsigns d (List.contains_iff_mem.1 hsign) hd

/-- The words of a numeral with a sign. -/
def numeralWords (n : Int64) : List String :=
  if n < 0 then ["-", Text.Decimal.natural n.toInt.natAbs]
  else [Text.Decimal.natural n.toInt.natAbs]

theorem word_eq (n : Int64) : Text.Decimal.word n =
    if n < 0 then "-" ++ Text.Decimal.natural n.toInt.natAbs
    else Text.Decimal.natural n.toInt.natAbs := by
  have hneg : n < 0 ↔ n.toInt < 0 := Int64.lt_iff_toInt_lt
  simp only [Text.Decimal.word, Text.Decimal.integer, hneg]

theorem spells_word (n : Int64) : Spells (Text.Decimal.word n) (numeralWords n) := by
  rw [word_eq, numeralWords]
  split
  · exact .negative (isNumeral_natural _)
  · exact .numeral (isNumeral_natural _)

/-! ### Escaped texts -/

theorem isHexDigit_hexDigit (n : Nat) : isHexDigit (Text.hexDigit n) := by
  have hall : ∀ m < 16, isHexDigit (Nat.digitChar m) := by decide
  exact hall _ (Nat.mod_lt _ (by decide))

theorem all_isHexDigit_hex (width n : Nat) : (Text.hex width n).all isHexDigit := by
  induction width generalizing n with
  | zero => rfl
  | succ width ih => simp [Text.hex, ih, isHexDigit_hexDigit]

theorem Quoted.hex {ds cs : List Char} (hds : ds.all isHexDigit) (h : Quoted cs) :
    Quoted (ds ++ cs) := by
  induction ds with
  | nil => exact h
  | cons d ds ih =>
    rw [List.all_cons, Bool.and_eq_true] at hds
    have hall : ['"', '\\', '\n', '\r'].any isHexDigit = false := by decide
    exact .plain (fun hd => List.any_eq_false.1 hall d hd hds.1) (ih hds.2)

/-- Whatever a character is written as may stand between quotes. -/
theorem quoted_escapedWithin (c : Char) {cs : List Char} (h : Quoted cs) :
    Quoted (Text.escapedWithin '"' c ++ cs) := by
  unfold Text.escapedWithin
  split
  · exact .escape (by decide) h
  split
  · exact .escape (by decide) h
  split
  · next hquote hbackslash hprintable =>
    refine .plain (fun hc => ?_) h
    have hends : ['\n', '\r'].any Text.isPrintable = false := by decide
    simp only [List.mem_cons, hquote, hbackslash, false_or] at hc
    exact List.any_eq_false.1 hends c (by simpa using hc) hprintable
  split
  iterate 7 exact .escape (by decide) h
  split
  · exact .short (all_isHexDigit_hex 2 _) h
  split
  · exact .long (all_isHexDigit_hex 4 _) h
  · exact .escape (by decide) (.hex (all_isHexDigit_hex 8 _) h)

theorem isLiteral_escaped (s : String) : IsLiteral (Text.escaped s) := by
  refine ⟨s.toList.flatMap (Text.escapedWithin '"') ++ ['"'], by simp [Text.escaped], ?_⟩
  induction s.toList with
  | nil => exact .close
  | cons c cs ih =>
    rw [List.flatMap_cons, List.append_assoc]
    exact quoted_escapedWithin c ih

end LetPoly.Script
