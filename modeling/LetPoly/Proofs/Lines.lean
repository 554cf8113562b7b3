import LetPoly.Proofs.RoundTrip

/-! # Sources of several lines

A newline ends every lexeme but an open string.  What is read of a source is therefore
read of it again where more lines follow, and the lines that follow are read by
themselves (`Token.scanFrom_newline`).  So the words of two lines are those of the first
and those of the second (`Token.words_newline`), and a fault of the first line stays,
unless it is a string that the line leaves open (`Token.scanFrom_newline_fault`).
-/

namespace LetPoly.Token

/-! ## Gaps -/

/-- A gap that reaches the end of a line goes on in the next line. -/
theorem skip_newline_of_nil {inComment : Bool} {cs : List Char}
    (h : (skip inComment cs).2 = []) (more : List Char) :
    skip inComment (cs ++ '\n' :: more) =
      (cs ++ '\n' :: (skip false more).1, (skip false more).2) := by
  induction cs generalizing inComment with
  | nil => cases inComment <;> rfl
  | cons c cs ih =>
    have hhead : (cs ++ '\n' :: more).head? = some '/' ↔ cs.head? = some '/' := by
      cases cs <;> simp
    rw [skip] at h
    rw [List.cons_append, skip]
    split at h
    · next hcomment =>
      rw [if_pos hcomment, ih h]
      rfl
    · next hcomment =>
      rw [if_neg hcomment]
      split at h
      · next hsep =>
        rw [if_pos hsep, ih h]
        rfl
      · next hsep =>
        rw [if_neg hsep]
        simp only [Bool.and_eq_true, decide_eq_true_eq, hhead] at h ⊢
        split at h
        · next hslash =>
          rw [if_pos hslash, ih h]
          rfl
        · cases h

/-- A gap that ends within its line. -/
theorem skip_newline_of_cons {inComment : Bool} {cs gap rest : List Char} {c : Char}
    (h : skip inComment cs = (gap, c :: rest)) (more : List Char) :
    skip inComment (cs ++ '\n' :: more) = (gap, c :: (rest ++ '\n' :: more)) := by
  induction cs generalizing inComment gap with
  | nil => cases h
  | cons d cs ih =>
    have hhead : (cs ++ '\n' :: more).head? = some '/' ↔ cs.head? = some '/' := by
      cases cs <;> simp
    have hnext {b : Bool} (hb : (skip b cs).2 = c :: rest) :=
      @ih b (skip b cs).1 (Prod.ext rfl hb)
    rw [skip] at h
    rw [List.cons_append, skip]
    split at h
    · next hcomment =>
      obtain ⟨rfl, hrest⟩ := Prod.mk.inj h
      rw [if_pos hcomment, hnext hrest]
    · next hcomment =>
      rw [if_neg hcomment]
      split at h
      · next hsep =>
        obtain ⟨rfl, hrest⟩ := Prod.mk.inj h
        rw [if_pos hsep, hnext hrest]
      · next hsep =>
        rw [if_neg hsep]
        simp only [Bool.and_eq_true, decide_eq_true_eq, hhead] at h ⊢
        split at h
        · next hslash =>
          obtain ⟨rfl, hrest⟩ := Prod.mk.inj h
          rw [if_pos hslash, hnext hrest]
        · next hslash =>
          cases h
          rw [if_neg hslash]

/-! ## Lexemes -/

/-- A character of a string that stands for itself. -/
theorem stringTail_plain {p : Pos} {c : Char} {cs : List Char} (hquote : c ≠ '"')
    (hslash : c ≠ '\\') :
    stringTail p (c :: cs) = (stringTail (p.advance c) cs).before [c] [c] none :=
  stringTail.eq_5 _ _ _ hquote (fun h => absurd h hslash) fun _ _ h => absurd h hslash

theorem ne_backslash {c : Char} {cs : List Char} (hlast : c = '\\' → cs = [] → False)
    (hescape : ∀ d ds, c = '\\' → cs = d :: ds → False) : c ≠ '\\' := by
  rintro rfl
  cases cs with
  | nil => exact hlast rfl rfl
  | cons d ds => exact hescape d ds rfl rfl

/-- A string that is closed ends there, whatever follows. -/
theorem stringTail_append_of_closed {p : Pos} {cs : List Char} (h : (stringTail p cs).closed)
    (more : List Char) : stringTail p (cs ++ more) =
      { stringTail p cs with rest := (stringTail p cs).rest ++ more } := by
  fun_induction stringTail p cs with
  | case1 | case3 => cases h
  | case2 p cs => simp [stringTail]
  | case4 p c cs tail d hd ih => simp_all [stringTail, StringTail.before, tail]
  | case5 p c cs tail hd ih => simp_all [stringTail, StringTail.before, tail]
  | case6 p c cs hquote hlast hescape ih =>
    rw [List.cons_append, stringTail_plain hquote (ne_backslash hlast hescape)]
    simp_all [StringTail.before]

/-- A fault in a string stays, whatever follows. -/
theorem stringTail_append_fault {p : Pos} {cs : List Char} {e : SyntaxError}
    (h : (stringTail p cs).fault = some e) (more : List Char) :
    (stringTail p (cs ++ more)).fault = some e := by
  fun_induction stringTail p cs with
  | case1 | case2 | case3 => cases h
  | case4 p c cs tail d hd ih => simp_all [stringTail, StringTail.before, tail]
  | case5 p c cs tail hd ih => simp_all [stringTail, StringTail.before, tail]
  | case6 p c cs hquote hlast hescape ih =>
    rw [List.cons_append, stringTail_plain hquote (ne_backslash hlast hescape)]
    simp_all [StringTail.before]

theorem takeWhile_newline {q : Char → Bool} (hq : q '\n' = false) (cs more : List Char) :
    (cs ++ '\n' :: more).takeWhile q = cs.takeWhile q := by
  induction cs with
  | nil => simp [hq]
  | cons c cs ih => by_cases hc : q c <;> simp [hc, ih]

theorem dropWhile_newline {q : Char → Bool} (hq : q '\n' = false) (cs more : List Char) :
    (cs ++ '\n' :: more).dropWhile q = cs.dropWhile q ++ '\n' :: more := by
  induction cs with
  | nil => simp [hq]
  | cons c cs ih => by_cases hc : q c <;> simp [hc, ih]

/-- No sign holds a newline. -/
theorem find?_symbols_newline (cs more : List Char) :
    Kind.symbols.find? (·.name.toList.isPrefixOf (cs ++ '\n' :: more)) =
      Kind.symbols.find? (·.name.toList.isPrefixOf cs) := by
  have hnone : ∀ k ∈ Kind.symbols, '\n' ∉ k.name.toList := by decide
  refine List.find?_congr fun k hk => ?_
  rw [Bool.eq_iff_iff, List.isPrefixOf_iff_prefix, List.isPrefixOf_iff_prefix]
  refine ⟨fun h => ?_, fun h => h.trans (List.prefix_append _ _)⟩
  by_contra hshort
  have hle : cs.length + 1 ≤ k.name.toList.length := by
    by_contra hle
    exact hshort (List.prefix_of_prefix_length_le h (List.prefix_append _ _) (by omega))
  have hlong : cs ++ ['\n'] <+: k.name.toList :=
    List.prefix_of_prefix_length_le ⟨more, by simp⟩ h (by simpa using hle)
  exact hnone k hk (hlong.subset (by simp))

/-- **A lexeme without a fault ends with its line at the latest.** -/
theorem lexeme_newline {p : Pos} {c : Char} {cs : List Char} (h : (lexeme p c cs).fault = none)
    (more : List Char) : lexeme p c (cs ++ '\n' :: more) =
      { lexeme p c cs with rest := (lexeme p c cs).rest ++ '\n' :: more } := by
  unfold lexeme at h ⊢
  split at h
  · next hquote =>
    have hclosed : (stringTail (p.advance c) cs).closed := by
      by_contra hopen
      simp [hopen] at h
    subst hquote
    simp [stringTail_append_of_closed hclosed]
  · next hquote =>
    rw [if_neg hquote, if_neg hquote]
    split at h
    · next hletter =>
      rw [if_pos hletter, if_pos hletter, takeWhile_newline (by decide),
        dropWhile_newline (by decide)]
    · next hletter =>
      rw [if_neg hletter, if_neg hletter]
      split at h
      · next hdigit =>
        rw [if_pos hdigit, if_pos hdigit, takeWhile_newline (by decide),
          dropWhile_newline (by decide)]
      · next hdigit =>
        rw [if_neg hdigit, if_neg hdigit, ← List.cons_append, find?_symbols_newline]
        split at h
        · next k hk =>
          have hfront : k.name.toList <+: c :: cs := by simpa using List.find?_some hk
          simp only [List.drop_append_of_le_length hfront.length_le]
        · cases h

/-- A fault other than an open string stays in the next line. -/
theorem lexeme_newline_fault {p : Pos} {c : Char} {cs : List Char} {e : SyntaxError}
    (h : (lexeme p c cs).fault = some e) (he : e.cause ≠ .openString) (more : List Char) :
    (lexeme p c (cs ++ '\n' :: more)).fault ≠ none := by
  unfold lexeme at h ⊢
  split at h
  · next hquote =>
    subst hquote
    cases htail : (stringTail (p.advance '"') cs).fault with
    | none =>
      have hopen : e = ⟨p, .openString⟩ := by
        by_cases hclosed : (stringTail (p.advance '"') cs).closed <;> simp_all
      exact absurd (congrArg SyntaxError.cause hopen) he
    | some e' => simp [stringTail_append_fault htail]
  · next hquote =>
    rw [if_neg hquote]
    split at h
    · cases h
    · next hletter =>
      rw [if_neg hletter]
      split at h
      · cases h
      · next hdigit =>
        rw [if_neg hdigit, ← List.cons_append, find?_symbols_newline]
        split at h
        · cases h
        · simp

/-! ## Whole sources -/

theorem scanFrom_of_nil {p : Pos} {cs gap : List Char} (h : skip false cs = (gap, [])) :
    scanFrom p cs = ⟨[⟨.eof, "", p.advanceAll gap⟩], none⟩ := by
  rw [scanFrom]
  split <;> simp_all

theorem scanFrom_of_cons {p : Pos} {cs gap rest : List Char} {c : Char}
    (h : skip false cs = (gap, c :: rest)) :
    scanFrom p cs =
      let q := p.advanceAll gap
      let l := lexeme q c rest
      let more := scanFrom (q.advanceAll l.span) l.rest
      ⟨⟨l.kind, l.literal, q⟩ :: more.tokens, l.fault <|> more.fault⟩ := by
  rw [scanFrom]
  split <;> simp_all

/-- **The lines after a line without a fault are read by themselves.** -/
theorem scanFrom_newline {p : Pos} {cs : List Char} (h : (scanFrom p cs).fault = none)
    (more : List Char) :
    ∃ q, (scanFrom p (cs ++ '\n' :: more)).fault = (scanFrom q more).fault ∧
      (scanFrom p (cs ++ '\n' :: more)).tokens =
        (scanFrom p cs).tokens.dropLast ++ (scanFrom q more).tokens := by
  fun_induction scanFrom p cs with
  | case1 p cs gap hgap =>
    have hskip := skip_newline_of_nil (congrArg Prod.snd hgap) more
    refine ⟨p.advanceAll (cs ++ ['\n']), ?_⟩
    cases hmore : skip false more with
    | mk gap' rest' =>
      rw [hmore] at hskip
      cases rest' with
      | nil =>
        rw [scanFrom_of_nil hskip, scanFrom_of_nil hmore]
        simp [Pos.advanceAll]
      | cons c rest' =>
        rw [scanFrom_of_cons hskip, scanFrom_of_cons hmore]
        simp [Pos.advanceAll]
  | case2 p cs gap c rest hgap q l tail ih =>
    obtain ⟨hl, htail⟩ : l.fault = none ∧ tail.fault = none := by
      simpa using h
    obtain ⟨q', hfault, htokens⟩ := ih htail
    refine ⟨q', ?_⟩
    rw [scanFrom_of_cons (skip_newline_of_cons hgap more)]
    have hne : tail.tokens ≠ [] := by
      obtain ⟨ts, last, hts, -⟩ := scanFrom_tokens (q.advanceAll l.span) l.rest
      simp [tail, hts]
    have hlex : lexeme q c (rest ++ '\n' :: more) = { l with rest := l.rest ++ '\n' :: more } :=
      lexeme_newline hl more
    dsimp only
    rw [hlex]
    refine ⟨by simpa [hl] using hfault, ?_⟩
    rw [List.dropLast_cons_of_ne_nil hne, List.cons_append, htokens]

/-- **A fault of a line stays where more lines follow**, unless it is an open string. -/
theorem scanFrom_newline_fault {p : Pos} {cs : List Char} {e : SyntaxError}
    (h : (scanFrom p cs).fault = some e) (he : e.cause ≠ .openString) (more : List Char) :
    (scanFrom p (cs ++ '\n' :: more)).fault ≠ none := by
  fun_induction scanFrom p cs with
  | case1 => cases h
  | case2 p cs gap c rest hgap q l tail ih =>
    rw [scanFrom_of_cons (skip_newline_of_cons hgap more)]
    cases hl : l.fault with
    | none =>
      have hlex : lexeme q c (rest ++ '\n' :: more) = { l with rest := l.rest ++ '\n' :: more } :=
        lexeme_newline hl more
      dsimp only
      rw [hlex]
      have htail : tail.fault = some e := by simpa [hl] using h
      simpa [hl] using ih htail
    | some e' =>
      have hee : e' = e := by simpa [hl] using h
      have hfault := lexeme_newline_fault (hl.trans (congrArg some hee)) he more
      obtain ⟨f, hf⟩ := Option.ne_none_iff_exists.1 hfault
      dsimp only
      rw [← hf]
      simp

/-! ## Where a source starts -/

/-- Where a string starts tells where its faults are, and nothing else. -/
theorem stringTail_pos (p q : Pos) (cs : List Char) :
    (stringTail p cs).content = (stringTail q cs).content ∧
      (stringTail p cs).closed = (stringTail q cs).closed ∧
      (stringTail p cs).span = (stringTail q cs).span ∧
      (stringTail p cs).rest = (stringTail q cs).rest ∧
      ((stringTail p cs).fault = none ↔ (stringTail q cs).fault = none) := by
  fun_induction stringTail p cs generalizing q with
  | case1 | case2 | case3 => simp [stringTail]
  | case4 p c cs tail d hd ih =>
    simp [stringTail, hd, StringTail.before, tail, ih ((q.advance '\\').advance c)]
  | case5 p c cs tail hd ih =>
    simp [stringTail, hd, StringTail.before, tail, ih ((q.advance '\\').advance c)]
  | case6 p c cs hquote hlast hescape ih =>
    rw [stringTail_plain hquote (ne_backslash hlast hescape)]
    simp [StringTail.before, ih (q.advance c)]

theorem lexeme_pos (p q : Pos) (c : Char) (cs : List Char) :
    (lexeme p c cs).kind = (lexeme q c cs).kind ∧
      (lexeme p c cs).literal = (lexeme q c cs).literal ∧
      (lexeme p c cs).span = (lexeme q c cs).span ∧
      (lexeme p c cs).rest = (lexeme q c cs).rest ∧
      ((lexeme p c cs).fault = none ↔ (lexeme q c cs).fault = none) := by
  unfold lexeme
  split
  · obtain ⟨hcontent, hclosed, hspan, hrest, hfault⟩ :=
      stringTail_pos (p.advance c) (q.advance c) cs
    simp only [hcontent, hclosed, hspan, hrest, true_and]
    by_cases h : (stringTail (q.advance c) cs).closed <;> simp [h, hfault]
  · split
    · simp
    · split
      · simp
      · split <;> simp

/-- **The words of a source do not depend on where it starts.** -/
theorem scanFrom_pos (p q : Pos) (cs : List Char) :
    (scanFrom p cs).tokens.map Token.word = (scanFrom q cs).tokens.map Token.word ∧
      ((scanFrom p cs).fault = none ↔ (scanFrom q cs).fault = none) := by
  fun_induction scanFrom p cs generalizing q with
  | case1 p cs gap hgap =>
    rw [scanFrom_of_nil hgap]
    simp [Token.word]
  | case2 p cs gap c rest hgap p' l tail ih =>
    rw [scanFrom_of_cons hgap]
    obtain ⟨hkind, hliteral, hspan, hrest, hfault⟩ := lexeme_pos p' (q.advanceAll gap) c rest
    obtain ⟨htokens, htail⟩ :=
      ih ((q.advanceAll gap).advanceAll (lexeme (q.advanceAll gap) c rest).span)
    have hmore : l.rest = (lexeme (q.advanceAll gap) c rest).rest := hrest
    dsimp only
    rw [← hmore]
    refine ⟨?_, ?_⟩
    · rw [List.map_cons, List.map_cons, htokens]
      simp [Token.word, l, hkind, hliteral]
    · simp [l, tail, hfault, htail]

/-! ## The words of several lines -/

theorem map_word_scan (cs : List Char) :
    (scan cs).tokens.map Token.word = words cs ++ [.mark .eof] := by
  obtain ⟨ts, last, hts, hlast, -, hwords⟩ := scan_tokens cs
  rw [hts, List.map_append, List.map_singleton, word_of_kind hlast (by decide), hwords]

/-- The tokens before a mark of the end are all tokens of the source: there is only one. -/
theorem words_of_eof {source : List Char} {us rest : List Token} {last : Token}
    (h : (scan source).tokens = us ++ last :: rest) (hlast : last.kind = .eof) :
    us.map Token.word = words source := by
  obtain ⟨ts, eof, hts, -, hall, hwords⟩ := scan_tokens source
  rw [← hwords]
  obtain ⟨z, rfl, hz⟩ | ⟨z, rfl, hz⟩ := List.append_eq_append_iff.1 (h.symm.trans hts)
  · cases z with
    | nil => simp
    | cons t z =>
      obtain ⟨rfl, -⟩ := List.cons.inj hz
      exact absurd hlast (hall _ (by simp))
  · cases z with
    | nil => simp
    | cons t z =>
      have := congrArg List.length hz
      simp at this

/-- **The words of two lines are those of the first and those of the second.** -/
theorem words_newline {cs : List Char} (h : (scan cs).fault = none) (more : List Char) :
    words (cs ++ '\n' :: more) = words cs ++ words more ∧
      ((scan (cs ++ '\n' :: more)).fault = none ↔ (scan more).fault = none) := by
  obtain ⟨q, hfault, htokens⟩ := scanFrom_newline h more
  obtain ⟨hmore, hnone⟩ := scanFrom_pos q .start more
  refine ⟨?_, by rw [scan, hfault, hnone, scan]⟩
  have hfirst : (scan cs).tokens.dropLast.map Token.word = words cs := by
    rw [List.map_dropLast, map_word_scan, List.dropLast_concat]
  have hall := congrArg (List.map Token.word) htokens
  rw [List.map_append, hmore, ← scan, ← scan, ← scan, hfirst, map_word_scan, map_word_scan,
    ← List.append_assoc] at hall
  exact List.append_cancel_right hall

end LetPoly.Token
