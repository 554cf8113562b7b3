import LetPoly.Proofs.Parsing

/-! # The words that a text spells

A text **spells** a row of words if, put before any source whose first character does
not go on a word, it adds exactly these words to those of the source
(`Token.Spells`).  Names, keywords, numerals and literals spell one word each; brackets
and semicolons may stand next to anything, other signs before a blank.  Texts that spell
words are put together by a small calculus: `Spells.append`, `Spells.bracket`,
`Spells.before`, `Spells.join`, `Spells.between`.

Every name among the words of a source spells itself again (`named_of_mem_words`).
-/

namespace LetPoly.Token

/-! ## Sources and their words -/

/-- The source has no fault and these words, wherever it starts. -/
def Scans (cs : List Char) (ws : List Word) : Prop :=
  ∀ p, (scanFrom p cs).fault = none ∧
    (scanFrom p cs).tokens.map Token.word = ws ++ [.mark .eof]

theorem Scans.nil : Scans [] [] := by
  intro p
  rw [scanFrom]
  exact ⟨rfl, rfl⟩

/-- A blank in front moves a source, and does nothing else. -/
theorem scanFrom_blank (p : Pos) (cs : List Char) :
    scanFrom p (' ' :: cs) = scanFrom (p.advance ' ') cs := by
  have hskip : skip false (' ' :: cs) = (' ' :: (skip false cs).1, (skip false cs).2) := rfl
  rw [scanFrom, scanFrom]
  split <;> split <;> simp_all [Pos.advanceAll]

theorem Scans.blank {cs : List Char} {ws : List Word} (h : Scans cs ws) :
    Scans (' ' :: cs) ws := by
  intro p
  rw [scanFrom_blank]
  exact h _

/-- A lexeme in front of a source puts its word in front. -/
theorem Scans.lexeme {c : Char} {cs rest : List Char} {w : Word} {ws : List Word}
    (hskip : skip false (c :: cs) = ([], c :: cs))
    (hfault : ∀ p, (lexeme p c cs).fault = none) (hrest : ∀ p, (lexeme p c cs).rest = rest)
    (hword : ∀ p, (Token.mk (lexeme p c cs).kind (lexeme p c cs).literal p).word = w)
    (h : Scans rest ws) : Scans (c :: cs) (w :: ws) := by
  intro p
  rw [scanFrom]
  split
  · simp_all
  · next gap c' cs' heq =>
    obtain ⟨rfl, rfl, rfl⟩ : gap = [] ∧ c' = c ∧ cs' = cs := by simp_all
    have hstart : p.advanceAll [] = p := rfl
    obtain ⟨hmore, htokens⟩ := h (p.advanceAll (Token.lexeme p c' cs').span)
    rw [← hrest p] at hmore htokens
    rw [hstart]
    refine ⟨by simp [hfault, hmore], ?_⟩
    rw [List.map_cons, htokens, hword]
    rfl

/-- A class of characters without blanks. -/
theorem isSeparator_eq_false {q : Char → Bool} {c : Char} (hc : q c)
    (hq : [' ', '\t', '\n', '\r'].any q = false) : isSeparator c = false := by
  rw [Bool.eq_false_iff]
  intro hsep
  have hmem : c ∈ [' ', '\t', '\n', '\r'] := by simpa [isSeparator, or_assoc] using hsep
  exact List.any_eq_false.1 hq c hmem hc

theorem skip_eq_nil {c : Char} {cs : List Char} (hc : isSeparator c = false)
    (hslash : c = '/' → cs.head? ≠ some '/') : skip false (c :: cs) = ([], c :: cs) := by
  rw [skip]
  by_cases h : c = '/' <;> simp_all

/-! ## What a text spells -/

/-- The source does not go on a word. -/
def Boundary (rest : List Char) : Prop := ∀ c ∈ rest.head?, isWordChar c = false

/-- **The text spells the words**: put before any source that does not go on a word, it
adds them to its words. -/
def Spells (s : String) (ws : List Word) : Prop :=
  ∀ rest us, Boundary rest → Scans rest us → Scans (s.toList ++ rest) (ws ++ us)

/-- The text alone has the words that it spells. -/
theorem Spells.scans {s : String} {ws : List Word} (h : Spells s ws) : Scans s.toList ws := by
  simpa using h [] [] (by simp [Boundary]) .nil

theorem Spells.empty : Spells "" [] := fun _ _ _ h => h

theorem Spells.append {s t : String} {ws vs : List Word} (hs : Spells s ws) (ht : Spells t vs)
    (hst : Boundary t.toList) : Spells (s ++ t) (ws ++ vs) := by
  intro rest us hrest hus
  rw [String.toList_append, List.append_assoc, List.append_assoc]
  refine hs _ _ ?_ (ht rest us hrest hus)
  cases h : t.toList with
  | nil => exact hrest
  | cons c cs =>
    rw [h] at hst
    exact hst

theorem Spells.blank {s : String} {ws : List Word} (h : Spells s ws) : Spells (" " ++ s) ws := by
  intro rest us hrest hus
  rw [String.toList_append, List.append_assoc]
  exact (h rest us hrest hus).blank

theorem boundary_blank (s : String) : Boundary (" " ++ s).toList := by
  rw [String.toList_append]
  intro c hc
  obtain rfl : ' ' = c := by simpa using hc
  rfl

/-! ### Names and keywords -/

/-- A row of characters that is read as one word. -/
def isWord : List Char → Bool
  | [] => false
  | c :: cs => isLetter c && cs.all isWordChar

theorem takeWhile_boundary {q : Char → Bool} {cs rest : List Char} (hcs : ∀ c ∈ cs, q c)
    (hrest : ∀ c ∈ rest.head?, q c = false) : (cs ++ rest).takeWhile q = cs := by
  rw [List.takeWhile_append_of_pos hcs]
  cases rest with
  | nil => simp
  | cons c rest => simp [hrest c rfl]

theorem dropWhile_boundary {q : Char → Bool} {cs rest : List Char} (hcs : ∀ c ∈ cs, q c)
    (hrest : ∀ c ∈ rest.head?, q c = false) : (cs ++ rest).dropWhile q = rest := by
  have h := List.takeWhile_append_dropWhile (p := q) (l := cs ++ rest)
  rw [takeWhile_boundary hcs hrest] at h
  exact List.append_cancel_left h

theorem Spells.word {s : String} (hs : isWord s.toList) :
    Spells s [(Token.mk (.ofWord s) s .start).word] := by
  intro rest us hrest hus
  cases h : s.toList with
  | nil => simp [h, isWord] at hs
  | cons c cs =>
    simp only [h, isWord, Bool.and_eq_true, List.all_eq_true] at hs
    obtain ⟨hc, hcs⟩ := hs
    have hquote : c ≠ '"' := by
      rintro rfl
      exact absurd hc (by decide)
    have hs' : String.ofList (c :: cs) = s := by rw [← h, String.ofList_toList]
    refine Scans.lexeme (skip_eq_nil ?_ ?_) (fun p => ?_) (fun p => ?_) (fun p => ?_) hus
    · exact isSeparator_eq_false hc (by decide)
    · rintro rfl
      exact absurd hc (by decide)
    · simp [Token.lexeme, hquote, hc]
    · simp [Token.lexeme, hquote, hc, dropWhile_boundary hcs hrest]
    · simp [Token.lexeme, hquote, hc, takeWhile_boundary hcs hrest, hs', Token.word]

/-- A name: a word that is no keyword. -/
def Named (x : String) : Prop := isWord x.toList ∧ Kind.ofWord x = .ident

theorem Spells.name {x : String} (hx : Named x) : Spells x [.ident x] := by
  have h := Spells.word hx.1
  rwa [word_ident (by exact hx.2)] at h

theorem mem_keywords_of_boolText {k : Kind} {b : Bool} (h : k.name = boolText b) :
    k ∈ Kind.keywords := by
  cases b <;> cases Kind.eq_of_boolText h <;> decide

theorem mem_keywords_of_binder {k : Kind} {b : Binder} (h : k.name = b.spelling) :
    k ∈ Kind.keywords := by
  cases b <;> cases Kind.eq_of_binder h <;> decide

theorem mem_symbols_of_operator {k : Kind} {op : Op} (h : k.name = op.spelling) :
    k ∈ Kind.symbols := by
  rw [← Expr.opOf?_eq_some] at h
  revert h
  cases k <;> first | exact fun _ => by decide | exact nofun

theorem Spells.keyword {k : Kind} (hk : k ∈ Kind.keywords) : Spells k.name [.mark k] := by
  have hword : ∀ k ∈ Kind.keywords, isWord k.name.toList ∧ Kind.ofWord k.name = k ∧
      k ≠ .ident ∧ k ≠ .int ∧ k ≠ .string := by decide
  obtain ⟨hisWord, hofWord, hmark⟩ := hword k hk
  have h := Spells.word hisWord
  rwa [word_of_kind hofWord hmark] at h

/-! ### Numerals and literals -/

theorem isDigit_of_boundary {rest : List Char} (h : Boundary rest) :
    ∀ c ∈ rest.head?, Text.Decimal.isDigit c = false := by
  intro c hc
  have := h c hc
  simp only [isWordChar, Bool.or_eq_false_iff] at this
  exact this.2

theorem isLetter_of_isDigit {c : Char} (h : Text.Decimal.isDigit c) : isLetter c = false := by
  simp only [Text.Decimal.isDigit, Bool.and_eq_true, decide_eq_true_eq, Char.le_def,
    UInt32.le_iff_toNat_le] at h
  have hunderscore : c ≠ '_' := by
    rintro rfl
    exact absurd h (by decide)
  simp only [isLetter, hunderscore, decide_false, Bool.or_false, Bool.or_eq_false_iff,
    Bool.and_eq_false_iff, decide_eq_false_iff_not, Char.le_def, UInt32.le_iff_toNat_le]
  have hvalues : '9'.val.toNat < 'a'.val.toNat ∧ '9'.val.toNat < 'A'.val.toNat := by decide
  omega

theorem Spells.digits {s : String} (hne : s.toList ≠ [])
    (hdigits : ∀ c ∈ s.toList, Text.Decimal.isDigit c) : Spells s [.int s] := by
  intro rest us hrest hus
  obtain ⟨c, cs, h⟩ := List.exists_cons_of_ne_nil hne
  rw [h] at hdigits ⊢
  obtain ⟨hc, hcs⟩ := List.forall_mem_cons.1 hdigits
  have hquote : c ≠ '"' := by
    rintro rfl
    exact absurd hc (by decide)
  have hletter := isLetter_of_isDigit hc
  have hs' : String.ofList (c :: cs) = s := by rw [← h, String.ofList_toList]
  have hrest' := isDigit_of_boundary hrest
  refine Scans.lexeme (skip_eq_nil ?_ ?_) (fun p => ?_) (fun p => ?_) (fun p => ?_) hus
  · exact isSeparator_eq_false hc (by decide)
  · rintro rfl
    exact absurd hc (by decide)
  · simp [Token.lexeme, hquote, hletter, hc]
  · simp [Token.lexeme, hquote, hletter, hc, dropWhile_boundary hcs hrest']
  · simp [Token.lexeme, hquote, hletter, hc, takeWhile_boundary hcs hrest', hs', Token.word]

theorem Spells.numeral {s : String} {n : Int64} (hs : Numeral s n) : Spells s [.int s] := by
  have hdigits : s.toList ≠ [] ∧ ∀ c ∈ s.toList, Text.Decimal.isDigit c := by
    have := hs.2
    unfold Text.Decimal.digits? at this
    split at this
    · simp_all
    · cases this
  exact .digits hdigits.1 hdigits.2

/-- A literal is read back as the text that it stands for. -/
theorem stringTail_literal (p : Pos) (cs rest : List Char) :
    (stringTail p (cs.flatMap Text.literalChar ++ '"' :: rest)).content = cs ∧
      (stringTail p (cs.flatMap Text.literalChar ++ '"' :: rest)).closed = true ∧
      (stringTail p (cs.flatMap Text.literalChar ++ '"' :: rest)).rest = rest ∧
      (stringTail p (cs.flatMap Text.literalChar ++ '"' :: rest)).fault = none := by
  induction cs generalizing p with
  | nil => simp [stringTail]
  | cons c cs ih =>
    rw [List.flatMap_cons, List.append_assoc, Text.literalChar]
    split
    · next h => simp [stringTail, escape?, StringTail.before, ih, h]
    · split
      · next h => simp [stringTail, escape?, StringTail.before, ih, h]
      · split
        · next h => simp [stringTail, escape?, StringTail.before, ih, h]
        · split
          · next h => simp [stringTail, escape?, StringTail.before, ih, h]
          · simp_all [stringTail, StringTail.before]

theorem Spells.literal (s : String) : Spells (Text.literal s) [.string s] := by
  intro rest us _ hus
  have htext : (Text.literal s).toList ++ rest =
      '"' :: (s.toList.flatMap Text.literalChar ++ '"' :: rest) := by
    simp [Text.literal]
  rw [htext]
  have htail := fun p => stringTail_literal p s.toList rest
  refine Scans.lexeme rfl (fun p => ?_) (fun p => ?_) (fun p => ?_) hus
  · simp [Token.lexeme, htail]
  · simp [Token.lexeme, htail]
  · simp [Token.lexeme, htail, Token.word]

/-! ### Signs -/

/-- A sign is read where no other sign takes more of the source. -/
theorem Scans.sign {k : Kind} {rest : List Char} {us : List Word} (hk : k ∈ Kind.symbols)
    (hother : ∀ j ∈ Kind.symbols, j.name.toList <+: k.name.toList ++ rest →
      j.name.toList <+: k.name.toList)
    (hslash : k = .slash → rest.head? ≠ some '/') (hus : Scans rest us) :
    Scans (k.name.toList ++ rest) (.mark k :: us) := by
  have hfirst : ∀ k ∈ Kind.symbols, k.name.toList.head?.any fun c =>
      c ≠ '"' ∧ isLetter c = false ∧ Text.Decimal.isDigit c = false ∧ isSeparator c = false ∧
        (c = '/' → k = .slash) := by
    decide
  have hself : ∀ k ∈ Kind.symbols,
      Kind.symbols.find? (·.name.toList.isPrefixOf k.name.toList) = some k ∧
        (k = .slash → k.name.toList = ['/']) ∧ k ≠ .ident ∧ k ≠ .int ∧ k ≠ .string := by
    decide
  obtain ⟨c, hc, hsign⟩ := (Option.any_eq_true _ _).1 (hfirst k hk)
  obtain ⟨hquote, hletter, hdigit, hsep, hcomment⟩ := of_decide_eq_true hsign
  obtain ⟨hfind, hname, hmark⟩ := hself k hk
  obtain ⟨cs, hcs⟩ := List.head?_eq_some_iff.1 hc
  have hfind' : Kind.symbols.find? (·.name.toList.isPrefixOf (c :: (cs ++ rest))) = some k := by
    rw [← List.cons_append, ← hcs, ← hfind]
    refine List.find?_congr fun j hj => ?_
    rw [Bool.eq_iff_iff, List.isPrefixOf_iff_prefix, List.isPrefixOf_iff_prefix]
    exact ⟨hother j hj, fun h => h.trans (List.prefix_append _ _)⟩
  have hlength : k.name.toList.length = cs.length + 1 := by simp [hcs]
  rw [hcs]
  refine Scans.lexeme (skip_eq_nil hsep fun h => ?_) (fun p => ?_) (fun p => ?_) (fun p => ?_) hus
  · obtain rfl := hcomment h
    obtain rfl : cs = [] := by simpa [h] using hcs.symm.trans (hname rfl)
    exact hslash rfl
  all_goals simp [Token.lexeme, hquote, hletter, hdigit, hfind', hlength, word_of_kind, hmark]

/-- The signs that may stand next to anything. -/
def brackets : List Kind :=
  [.lparen, .rparen, .lbracket, .rbracket, .lbrace, .rbrace, .semicolon]

theorem Spells.bracket {k : Kind} {s : String} {ws : List Word} (hk : k ∈ brackets)
    (h : Spells s ws) : Spells (k.name ++ s) (.mark k :: ws) := by
  intro rest us hrest hus
  -- No other sign starts with the same character.
  have halone : ∀ k ∈ brackets, k ∈ Kind.symbols ∧ k ≠ .slash ∧ ∀ j ∈ Kind.symbols,
      j.name.toList.head? = k.name.toList.head? → j = k := by decide
  obtain ⟨hsymbol, hslash, halone⟩ := halone k hk
  rw [String.toList_append, List.append_assoc]
  refine Scans.sign hsymbol (fun j hj hfront => ?_) (fun h => absurd h hslash)
    (h rest us hrest hus)
  obtain rfl : j = k := by
    refine halone j hj ?_
    obtain ⟨c, cs, hcs⟩ := List.exists_cons_of_ne_nil (symbols_name_ne_nil j hj)
    obtain ⟨d, ds, hds⟩ := List.exists_cons_of_ne_nil (symbols_name_ne_nil k hsymbol)
    rw [hcs, hds] at hfront ⊢
    rw [List.cons_append, List.cons_prefix_cons] at hfront
    simp [hfront.1]
  exact List.prefix_rfl

theorem boundary_bracket {k : Kind} (hk : k ∈ brackets) (s : String) :
    Boundary (k.name ++ s).toList := by
  have hfirst : ∀ k ∈ brackets, k.name.toList.head?.any (!isWordChar ·) := by decide
  obtain ⟨c, hc, hboundary⟩ := (Option.any_eq_true _ _).1 (hfirst k hk)
  obtain ⟨cs, hcs⟩ := List.head?_eq_some_iff.1 hc
  rw [String.toList_append, hcs]
  intro d hd
  obtain rfl : c = d := by simpa using hd
  simpa using hboundary

/-- Before a blank every sign and every keyword may stand. -/
theorem Spells.before {k : Kind} {s : String} {ws : List Word}
    (hk : k ∈ Kind.symbols ∨ k ∈ Kind.keywords) (h : Spells s ws) :
    Spells (k.name ++ " " ++ s) (.mark k :: ws) := by
  rw [String.append_assoc]
  obtain hk | hk := hk
  · intro rest us hrest hus
    rw [String.toList_append, List.append_assoc]
    have hblank : (" " ++ s).toList ++ rest = ' ' :: (s.toList ++ rest) := by simp
    refine Scans.sign hk (fun j hj hfront => ?_) (fun _ => ?_) (h.blank rest us hrest hus)
    · -- A longer sign would hold the blank.
      have hnoBlank : ∀ j ∈ Kind.symbols, ' ' ∉ j.name.toList := by decide
      rw [hblank] at hfront
      by_contra hshort
      have hle : k.name.toList.length + 1 ≤ j.name.toList.length := by
        by_contra hle
        exact hshort (List.prefix_of_prefix_length_le hfront (List.prefix_append _ _) (by omega))
      have hlong : k.name.toList ++ [' '] <+: j.name.toList := by
        refine List.prefix_of_prefix_length_le ?_ hfront (by simpa using hle)
        exact ⟨s.toList ++ rest, by simp⟩
      exact hnoBlank j hj (hlong.subset (by simp))
    · rw [hblank]
      simp
  · exact (Spells.keyword hk).append h.blank (boundary_blank s)

/-- Between blanks every sign and every keyword may stand. -/
theorem Spells.join {k : Kind} {s t : String} {vs ws : List Word} (hs : Spells s vs)
    (hk : k ∈ Kind.symbols ∨ k ∈ Kind.keywords) (ht : Spells t ws) :
    Spells (s ++ (" " ++ (k.name ++ " ")) ++ t) (vs ++ .mark k :: ws) := by
  rw [String.append_assoc, String.append_assoc]
  exact hs.append (ht.before hk).blank (boundary_blank _)

/-- Words between two brackets. -/
theorem Spells.between {l r : Kind} {s : String} {ws : List Word} (hl : l ∈ brackets)
    (hr : r ∈ brackets) (h : Spells s ws) :
    Spells (l.name ++ s ++ r.name) (Word.between l r ws) := by
  have hright : Spells (r.name ++ "") [.mark r] := Spells.empty.bracket hr
  have hboundary := boundary_bracket hr ""
  rw [String.append_empty] at hright hboundary
  rw [String.append_assoc]
  exact (h.append hright hboundary).bracket hl

theorem Spells.parens {s : String} {ws : List Word} (h : Spells s ws) :
    Spells ("(" ++ s ++ ")") (Word.between .lparen .rparen ws) :=
  Spells.between (l := .lparen) (r := .rparen) (by decide) (by decide) h

theorem Spells.squares {s : String} {ws : List Word} (h : Spells s ws) :
    Spells ("[" ++ s ++ "]") (Word.between .lbracket .rbracket ws) :=
  Spells.between (l := .lbracket) (r := .rbracket) (by decide) (by decide) h

theorem Spells.braces {s : String} {ws : List Word} (h : Spells s ws) :
    Spells ("\x7b" ++ s ++ " \x7d") (Word.between .lbrace .rbrace ws) := by
  have hblank : Spells (s ++ " ") (ws ++ []) :=
    h.append (Spells.blank .empty) (boundary_blank "")
  have hrow := Spells.between (l := .lbrace) (r := .rbrace) (by decide) (by decide) hblank
  rw [← String.append_assoc, String.append_assoc, List.append_nil] at hrow
  exact hrow

/-! ## The words of a whole source -/

theorem Scans.words {cs : List Char} {ws : List Word} (h : Scans cs ws) :
    (scan cs).fault = none ∧ words cs = ws := by
  obtain ⟨hfault, hmap⟩ := h .start
  refine ⟨hfault, ?_⟩
  obtain ⟨ts, last, hts, hlast, -, hwords⟩ := scan_tokens cs
  rw [← scan, hts, List.map_append, List.map_singleton, word_of_kind hlast (by decide)] at hmap
  rw [← hwords]
  exact List.append_cancel_right hmap

theorem lexeme_named {p : Pos} {c : Char} {cs : List Char} (h : (lexeme p c cs).kind = .ident) :
    Named (lexeme p c cs).literal := by
  unfold lexeme at h ⊢
  split at h
  · dsimp only at h
    split at h <;> cases h
  · split at h
    · next hquote hc =>
      rw [if_neg hquote, if_pos hc]
      refine ⟨?_, h⟩
      simp [isWord, hc]
    · split at h
      · cases h
      · split at h
        · next k hk =>
          have : ∀ k ∈ Kind.symbols, k ≠ .ident := by decide
          exact absurd h (this k (List.mem_of_find?_eq_some hk))
        · cases h

theorem scanFrom_named (p : Pos) (cs : List Char) :
    ∀ t ∈ (scanFrom p cs).tokens, t.kind = .ident → Named t.literal := by
  fun_induction scanFrom p cs with
  | case1 p cs gap _ =>
    intro t ht hk
    obtain rfl := List.mem_singleton.1 ht
    cases hk
  | case2 p cs gap c rest _ q l more ih =>
    intro t ht hk
    obtain rfl | ht := List.mem_cons.1 ht
    · exact lexeme_named hk
    · exact ih t ht hk

/-- The names among the words of a source. -/
theorem named_of_mem_words {source : List Char} {x : String} (h : .ident x ∈ words source) :
    Named x := by
  obtain ⟨t, ht, hx⟩ := List.mem_map.1 h
  rw [← literal_of_ident hx]
  exact scanFrom_named _ _ t (List.mem_of_mem_filter ht) (kind_of_word hx)

end LetPoly.Token
