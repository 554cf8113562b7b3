import LetPoly.Proofs.Truncation
import LetPoly.Session.Basic

/-! # Inputs that go on in the next line

An input that a further line can finish is a program that has been cut.  Its reader halts
before the cut, as the readers of types and patterns do, with one exception.  The head of a
function is read by trying, and an attempt that fails leaves no trace.  Where the cut lies
in a head or right before its `=>`, the words are read as another expression, and if they
begin none, the failure is at a word that stands there and not at the end (`Expr.Opens`).
So every reader of expressions halts or the cut lies in such a head (`Expr.Survives`).

A session therefore asks for the next line whenever that line can finish the input, unless
it would finish such a head (`Session.incomplete_of_newline`).
-/

namespace LetPoly

open Reader Word

namespace Expr

/-! ## Cuts in the head of a function -/

/-- The words start a conditional, so an expression of the loosest kind. -/
def StartsIf (q : List Word) : Prop := q.head? = some (.mark .kwIf)

theorem fillable_startsIf : Fillable StartsIf := by
  intro q q' hq _
  obtain ⟨v, rfl⟩ := List.head?_eq_some_iff.1 hq
  rfl

theorem viable_startsIf : Viable StartsIf (Phrase 9) [] :=
  ⟨[.mark .kwIf, .ident "x", .mark .kwThen, .ident "x", .mark .kwElse, .ident "x"], _, rfl,
    .cond (u := [.ident "x"]) (v := [.ident "x"]) (w := [.ident "x"]) (phrase_x (by decide))
      (phrase_x (by decide)) (phrase_x (by decide))⟩

/-- The words are the first of an expression that is no function, and no `=>` is needed to
finish it. -/
def Begins (v : List Word) : Prop := ∃ r e, .mark .fatArrow ∉ r ∧ Phrase 8 (v ++ r) e

theorem begins_nil : Begins [] := ⟨[.ident "x"], .ident "x", by simp, phrase_x (by decide)⟩

/-- **The head of a function lies across the cut or right before it**: its first words
stand at the end of `p`, in a place where any expression may start, and in `q` the rest of
it follows, and then `=>`.  These first words begin no other expression: `(x : Int` and `_`
are such words, `(x` and `1 :: x` are not. -/
def Opens {α : Type} (P : List Word → α → Prop) (p q : List Word) : Prop :=
  ∃ u v w r h a, p = u ++ v ∧ ¬Begins v ∧ q = w ++ .mark .fatArrow :: r ∧ Head (v ++ w) h a ∧
    Viable StartsIf P u

section Opens

variable {α β : Type} {P : List Word → α → Prop} {Q : List Word → β → Prop} {p q : List Word}

theorem Opens.ne_nil (h : Opens P p q) : p ≠ [] := by
  obtain ⟨u, v, _, _, _, _, rfl, hv, -⟩ := h
  rintro hnil
  exact hv ((List.append_eq_nil_iff.1 hnil).2 ▸ begins_nil)

theorem Opens.arrow_mem (h : Opens P p q) : .mark .fatArrow ∈ q := by
  obtain ⟨_, _, w, r, _, _, -, -, rfl, -⟩ := h
  simp

theorem Opens.within (h : Opens P p q) (front post : List Word)
    (hQ : ∀ w, Viable StartsIf P w → Viable StartsIf Q (front ++ w)) :
    Opens Q (front ++ p) (q ++ post) := by
  obtain ⟨u, v, w, r, head, a, rfl, hv, rfl, hhead, hu⟩ := h
  exact ⟨front ++ u, v, w, r ++ post, head, a, by simp, hv, by simp, hhead, hQ u hu⟩

end Opens

/-- The reader halts, or the cut lies in the head of a function. -/
def Survives {α β : Type} (r : Reader α) (P : List Word → β → Prop) (ts : List Token)
    (last : Token) (q : List Word) : Prop :=
  Halts r ts last ∨ Opens P (ts.map Token.word) q

/-- The part that is cut, in a larger phrase. -/
theorem Survives.within {α α' β β' : Type} {r : Reader α} {r' : Reader α'}
    {P : List Word → β → Prop} {Q : List Word → β' → Prop} {ts ts' : List Token}
    {last : Token} {q q' : List Word} (h : Survives r P ts last q) (front : List Token)
    (post : List Word) (hts : ts' = front ++ ts) (hq : q' = q ++ post)
    (hhalts : Halts r ts last → Halts r' ts' last)
    (hQ : ∀ w, Viable StartsIf P w → Viable StartsIf Q (front.map Token.word ++ w)) :
    Survives r' Q ts' last q' := by
  subst hts hq
  refine h.imp hhalts fun h => ?_
  rw [List.map_append]
  exact h.within _ _ hQ

/-- The part that is cut, at the front of a larger phrase. -/
theorem Survives.front {α α' β β' : Type} {r : Reader α} {r' : Reader α'}
    {P : List Word → β → Prop} {Q : List Word → β' → Prop} {ts : List Token} {last : Token}
    {q q' : List Word} (h : Survives r P ts last q) (post : List Word) (hq : q' = q ++ post)
    (hhalts : Halts r ts last → Halts r' ts last)
    (hQ : ∀ w, Viable StartsIf P w → Viable StartsIf Q w) : Survives r' Q ts last q' :=
  h.within [] post rfl hq hhalts hQ

/-! ## The readers -/

/-- What stands after an opening parenthesis is not the closing one. -/
theorem Phrase.cut_starts {ts : List Token} {q : List Word} {e : Expr} {last : Token}
    (h : Phrase 9 (ts.map Token.word ++ q) e) (hlast : last.kind = .eof) :
    ∃ t mid, ts ++ [last] = t :: mid ∧ t.kind ≠ .rparen := by
  cases ts with
  | nil => exact ⟨last, [], rfl, by simp [hlast]⟩
  | cons t us =>
    obtain ⟨x, v, hx, hstarts⟩ := h.starts
    obtain ⟨rfl, -⟩ := List.cons.inj hx
    rw [Token.kind_word] at hstarts
    exact ⟨t, _, rfl, by rintro hk; simp [hk, Starts, startsAtom] at hstarts⟩

theorem stops_readAtom_end {bound : Nat} {expr : Reader Expr} {last : Token}
    (hlast : last.kind = .eof) : Stops (readAtom bound expr) [last] := by
  refine stops_next_bind.2 ⟨last, [], rfl, .inr ⟨hlast, ?_⟩⟩
  simp [hlast, stops_failAt, SyntaxError.Cause.incomplete]

theorem halts_readAscription (bound : Nat) {last : Token} (hlast : last.kind = .eof)
    {ts : List Token} {q : List Word} {a : Option Ty} (h : Ascription (ts.map Token.word ++ q) a)
    (hts : ts.length ≤ bound) : Halts (readAscription bound) ts last := by
  rcases eq_or_ne ts [] with rfl | hne
  · exact halts_accept_end hlast (by decide) (halts_pure _)
  generalize hw : ts.map Token.word ++ q = w at h
  cases h with
  | none => exact absurd (List.map_eq_nil_iff.1 (List.append_eq_nil_iff.1 hw).1) hne
  | some h =>
    obtain ⟨colon, us, rfl, hcolon, rfl⟩ := Token.cut_cons hw.symm hne
    have hk : colon.kind = .colon := Token.kind_of_word hcolon
    rw [readAscription, halts_accept_yes (by decide) hk, if_pos rfl, bind_pure_comp]
    exact (Ty.halts_read bound hlast h hts).map

/-- No head of a function is found before the cut where another expression stands. -/
theorem head?_eq_none_of_cut {bound n : Nat} {ts : List Token} {q : List Word} {e : Expr}
    {last : Token} (h : Phrase n (ts.map Token.word ++ q) e) (hn : n ≤ 8)
    (hlast : last.kind = .eof) : head? bound (ts ++ [last]) = none := by
  refine Option.eq_none_iff_forall_ne_some.2 fun ⟨⟨p, a⟩, mid⟩ hsome => ?_
  obtain ⟨used, arrow, heq, harrow, hhead⟩ := reads_head? hsome
  -- The arrow is one of the tokens before the end.
  obtain ⟨z, rfl⟩ : ∃ z, ts = used ++ arrow :: z := by
    obtain ⟨z, rfl, hz⟩ | ⟨z, rfl, hz⟩ := List.append_eq_append_iff.1 heq
    · cases z with
      | nil =>
        obtain ⟨rfl, -⟩ := List.cons.inj (hz.trans (List.nil_append _))
        simp [hlast] at harrow
      | cons t z =>
        have := congrArg List.length hz
        simp at this
    · cases z with
      | nil =>
        obtain ⟨rfl, -⟩ := List.cons.inj (hz.trans (List.nil_append _))
        simp [hlast] at harrow
      | cons t z =>
        obtain ⟨rfl, -⟩ := List.cons.inj hz
        exact ⟨z, rfl⟩
  have hwords : (used ++ arrow :: z).map Token.word ++ q ++ [] =
      used.map Token.word ++ .mark .fatArrow :: (z.map Token.word ++ q) := by
    simp [Token.word_of_kind harrow]
  exact h.not_head hn (by simp) hhead hwords

section Readers

variable {bound : Nat} {expr : Reader Expr}
  (hexpr : ∀ w e, Phrase 9 w e → w.length < bound → Delivers expr (Follows 9) w e)
  {last : Token} (hlast : last.kind = .eof)
  (hcut : ∀ ts q e, Phrase 9 (ts.map Token.word ++ q) e → ts.length < bound →
    Survives expr (Phrase 9) ts last q)

include hexpr hlast hcut

omit hexpr hlast in
theorem halts_expr_end (hbound : 0 < bound) : Halts expr [] last :=
  (hcut [] [.ident "x"] (.ident "x") (phrase_x (by decide)) hbound).resolve_right
    fun h => h.ne_nil rfl

omit hexpr in
theorem survives_readDefinition {u v w q : List Word} {k : Token.Kind} {binder : Binder} {p : Pat}
    {a : Option Ty} {e : Expr} {ts : List Token} (hk : k.name = binder.spelling)
    (hp : Pat.Phrase 1 u p) (ha : Ascription v a) (he : Phrase 9 w e)
    (hw : .mark k :: (u ++ v ++ .mark .assign :: w) = ts.map Token.word ++ q) (hne : ts ≠ [])
    (hts : ts.length ≤ bound) :
    Survives (readDefinition bound expr) (Phrase 10) ts last q := by
  obtain ⟨word, us, rfl, hword, hw⟩ := Token.cut_cons hw hne
  have hkind : word.kind = if binder = .var then .kwVar else .kwVal :=
    (Token.kind_of_word hword).trans (Token.Kind.eq_of_binder hk)
  have hnext : word.kind ≠ .eof := by
    rw [hkind]
    split <;> decide
  rw [List.length_cons] at hts
  obtain ⟨z, huv, -⟩ | ⟨uvs, assign, ws, rfl, huvs, hassign, rfl⟩ := Token.cut_mark hw
  · -- The cut lies before the sign `=`, which is missing.
    refine .inl ?_
    rw [readDefinition, halts_next_bind hnext]
    obtain ⟨z, rfl, -⟩ | ⟨us, vs, rfl, hvs, rfl, rfl⟩ := Token.cut_append huv
    · refine (Pat.halts_readAtom bound hlast hp (by omega)).bind fun p => ?_
      refine (halts_readAscription bound hlast .none (Nat.zero_le _)).bind fun a => ?_
      exact halts_expect_end hlast (by decide)
    · rw [List.length_append] at hts
      obtain ⟨t, mid, hmid⟩ := List.exists_cons_of_ne_nil (l := vs ++ [last]) (by simp)
      have hpat := Pat.delivers_readAtom bound hp (by simp; omega) us t mid rfl trivial
      rw [← hmid] at hpat
      refine hpat.halts_bind ((halts_readAscription bound hlast ha (by omega)).bind fun a => ?_)
      exact halts_expect_end hlast (by decide)
  · obtain ⟨us, vs, rfl, rfl, rfl⟩ := List.map_eq_append_iff.1 huvs
    simp only [List.length_append, List.length_cons] at hts
    refine (hcut ws q e he (by omega)).within (word :: (us ++ vs ++ [assign])) []
      (by simp) (by simp) (fun h => ?_) fun w hw => ?_
    · rw [readDefinition, halts_next_bind hnext, List.append_assoc]
      obtain ⟨t, mid, hmid⟩ :=
        List.exists_cons_of_ne_nil (l := vs ++ assign :: (ws ++ [last])) (by simp)
      have hpat := Pat.delivers_readAtom bound hp (by simp; omega) us t mid rfl trivial
      have hasc := delivers_readAscription bound ha (by simp; omega) vs assign (ws ++ [last]) rfl
        hassign
      rw [← hmid] at hpat
      refine Gives.halts_bind (by simpa using hpat) (Gives.halts_bind (by simpa using hasc) ?_)
      rw [halts_expect_bind (by decide) hassign, bind_pure_comp]
      exact h.map
    · simpa [hword, Token.word_of_kind hassign] using viable_value hk hp ha hw

omit hexpr in
theorem survives_readStatement {ts : List Token} {q : List Word} {e : Expr}
    (h : Phrase 10 (ts.map Token.word ++ q) e) (hts : ts.length < bound) :
    Survives (readStatement bound expr) (Phrase 10) ts last q := by
  rcases eq_or_ne ts [] with rfl | hne
  · refine .inl ((halts_peek_bind rfl).2 ?_)
    rw [hlast]
    exact halts_expr_end hcut hts
  generalize hw : ts.map Token.word ++ q = w at h
  cases h with
  | binary _ hlevel _ _ =>
    have := Op.level_le ‹_›
    omega
  | define hk hp ha he =>
    refine (survives_readDefinition hlast hcut hk hp ha he hw.symm hne (by omega)).front []
      (by simp) (fun h => ?_) fun w hw => hw
    obtain ⟨word, us, rfl, hword, -⟩ := Token.cut_cons hw.symm hne
    rw [readStatement, halts_peek_bind rfl, Token.kind_of_word hword, Word.kind,
      Token.Kind.eq_of_binder hk]
    rename_i binder _ _ _
    cases binder <;> exact h
  | loosen h =>
    subst hw
    refine (hcut ts q e h hts).front [] (by simp) (fun hhalts => ?_)
      fun w hw => viable_mono hw (by decide)
    obtain ⟨t, us, rfl⟩ := List.exists_cons_of_ne_nil hne
    obtain ⟨x, v, hx, hstarts⟩ := h.starts
    obtain ⟨rfl, -⟩ := List.cons.inj hx
    rw [Token.kind_word] at hstarts
    rw [readStatement, halts_peek_bind rfl]
    split
    · simp_all [Starts, startsAtom]
    · simp_all [Starts, startsAtom]
    · exact hhalts

/-- A block, whose opening brace has been taken. -/
theorem survives_readBlock {w z : List Word} {stmts : List (Spelled Expr)} {t : Token}
    {ts : List Token} (hs : ∀ s ∈ stmts, Phrase 10 s.words s.tree)
    (hsep : Separated (stmts.map (·.words)) w) (hw : w = ts.map Token.word ++ z)
    (ht : t.kind = .lbrace) (hts : ts.length < bound) :
    Stops (readBlock bound expr) (ts ++ [last]) ∨
      Opens (Phrase 1) ((t :: ts).map Token.word) (z ++ [.mark .rbrace]) := by
  have hrow : Stops (items (readStatement bound expr) .statementEnd bound) (ts ++ [last]) ∨
      Opens (Phrase 1) ((t :: ts).map Token.word) (z ++ [.mark .rbrace]) := by
    refine stops_items_cut hsep hw hlast (·.tree) (fun s hmem => ?_)
      (fun s hmem us semi rest hus hlen hsemi => ?_) ?_ hts
      fun before s us vs z' post hus hbefore hcutAt hz hmem hs' => ?_
    · obtain ⟨x, v, hx, hstarts⟩ := (hs s hmem).starts
      refine ⟨x, v, hx, fun hk => ?_⟩
      simp [hk, Starts, startsAtom] at hstarts
    · have hlength := congrArg List.length hus
      rw [List.length_map] at hlength
      exact delivers_readStatement hexpr (hs s hmem) (by omega) us semi rest hus
        (.of_closing (by simp [hsemi]) 9)
    · have hx : Phrase 10 ([].map Token.word ++ [.ident "x"]) (.ident "x") := phrase_x (by decide)
      exact (survives_readStatement hlast hcut hx (Nat.zero_lt_of_lt hts)).resolve_right fun h =>
        h.ne_nil rfl
    · subst hus hz
      have hphrase := hs s hs'
      rw [hcutAt] at hphrase
      rw [List.length_append] at hts
      refine (survives_readStatement hlast hcut hphrase (by omega)).imp_right fun h => ?_
      have hopens := h.within (Q := Phrase 1) (.mark .lbrace :: terminated (before.map (·.words)))
        (post ++ [.mark .rbrace])
        fun w hw => viable_block fillable_startsIf (fun s hd => hs s (hmem s hd)) hw
      simpa [hbefore, Token.word_of_kind ht] using hopens
  exact hrow.imp_left fun h => stops_bind.2 (.inl h)

theorem survives_readAtom {ts : List Token} {q : List Word} {e : Expr}
    (h : Phrase 1 (ts.map Token.word ++ q) e) (hts : ts.length ≤ bound) :
    Survives (readAtom bound expr) (Phrase 1) ts last q := by
  rcases eq_or_ne q [] with rfl | hq
  · rw [List.append_nil] at h
    exact .inl ((delivers_readAtom hexpr h (by simpa using hts)).halts trivial)
  rcases eq_or_ne ts [] with rfl | hne
  · exact .inl (.inl (stops_readAtom_end hlast))
  generalize hw : ts.map Token.word ++ q = w at h
  cases h with
  | number _ | string | boolean _ | ident => exact absurd (Token.cut_single hw.symm hq) hne
  | nil =>
    obtain ⟨left, us, z, rfl, hl, hnil, -⟩ := Token.cut_between hw.symm hne hq
    obtain rfl := List.map_eq_nil_iff.1 (List.append_eq_nil_iff.1 hnil.symm).1
    refine .inl ?_
    rw [readAtom, halts_next_bind (by simp [hl])]
    simp only [hl]
    exact halts_expect_end hlast (by decide)
  | unit =>
    obtain ⟨left, us, z, rfl, hl, hnil, -⟩ := Token.cut_between hw.symm hne hq
    obtain rfl := List.map_eq_nil_iff.1 (List.append_eq_nil_iff.1 hnil.symm).1
    refine .inl ?_
    rw [readAtom, halts_next_bind (by simp [hl])]
    simp only [hl]
    exact halts_accept_end hlast (by decide)
      ((halts_expr_end hcut hts).bind fun _ => halts_expect_end hlast (by decide))
  | paren h =>
    obtain ⟨left, us, z, rfl, hl, rfl, rfl⟩ := Token.cut_between hw.symm hne hq
    rw [List.length_cons] at hts
    refine (hcut us z e h (by omega)).within [left] [.mark .rparen] rfl rfl
      (fun hhalts => ?_) fun w hw => ?_
    · rw [readAtom, halts_next_bind (by simp [hl])]
      simp only [hl]
      obtain ⟨t, mid, hfirst, ht⟩ := h.cut_starts hlast
      rw [halts_accept_no (by decide) hfirst ht, if_neg (by decide)]
      exact hhalts.bind fun a => halts_expect_end hlast (by decide)
    · simpa [Token.word_of_kind hl] using viable_paren fillable_startsIf hw
  | block hs hsep _ =>
    obtain ⟨left, us, z, rfl, hl, hz, rfl⟩ := Token.cut_between hw.symm hne hq
    rw [List.length_cons] at hts
    refine (survives_readBlock hexpr hlast hcut hs hsep hz hl (by omega)).imp_left fun h => ?_
    rw [readAtom, halts_next_bind (by simp [hl])]
    simp only [hl]
    exact .inl h
  | binary _ hlevel _ _ =>
    have := Op.level_le ‹_›
    omega
  | loosen h => exact absurd h.pos (by decide)

theorem survives_readApp {ts : List Token} {q : List Word} {e : Expr}
    (h : Phrase 2 (ts.map Token.word ++ q) e) (hts : ts.length ≤ bound) (hbound : 0 < bound) :
    Survives (readApp bound expr) (Phrase 2) ts last q := by
  have hend : ∀ b, Gives (readArg? bound expr b) [last] none [last] := fun b =>
    gives_optional.2 ⟨last, [], rfl, .inr ⟨by simp [hlast, startsAtom], rfl, rfl⟩⟩
  -- The cut lies in the last argument that is read or in the function.
  generalize hn : 2 = n at h
  generalize hw : ts.map Token.word ++ q = w at h
  induction h generalizing ts q with
  | @app v w f a hf ha ih _ =>
    obtain ⟨z, rfl, rfl⟩ | ⟨us, vs, rfl, hvs, rfl, rfl⟩ := Token.cut_append hw.symm
    · exact (ih hts rfl rfl).front w rfl id fun _ => id
    · rw [List.length_append] at hts
      have := List.length_pos_iff.2 hvs
      refine (survives_readAtom hexpr hlast hcut ha (by omega)).within us [] rfl (by simp)
        (fun hhalts => ?_) fun w hw => viable_argument hf hw
      obtain ⟨t, vs, rfl⟩ := List.exists_cons_of_ne_nil hvs
      obtain ⟨x, _, hx, hstarts⟩ := ha.starts
      obtain ⟨rfl, -⟩ := List.cons.inj hx
      refine (reaches_readApp hexpr hf (by simp; omega)).halts hend ?_ ⟨t, vs, rfl, trivial⟩
        (by omega)
      rw [readArg?, halts_peek_bind rfl, if_pos (by simpa [Starts] using hstarts), bind_pure_comp]
      exact hhalts.map
  | @loosen n w e h _ =>
    obtain rfl : n = 1 := by omega
    subst hw
    exact (survives_readAtom hexpr hlast hcut h hts).front [] (by simp)
      (fun h => h.chain hend hbound) fun w hw => viable_mono hw (by decide)
  | binary _ hlevel _ _ _ _ =>
    have := Op.level_le ‹_›
    omega
  | _ => omega

theorem survives_readOperators (tiers : Nat) (htiers : tiers ≤ 5) {ts : List Token}
    {q : List Word} {e : Expr} (h : Phrase (tiers + 2) (ts.map Token.word ++ q) e)
    (hts : ts.length ≤ bound) (hbound : 0 < bound) :
    Survives (readOperators bound expr tiers) (Phrase (tiers + 2)) ts last q := by
  induction tiers generalizing ts q e with
  | zero => exact survives_readApp hexpr hlast hcut h hts hbound
  | succ m ihm =>
    have hend : ∀ b, Gives (readOperation? (m + 3) (readOperators bound expr m) b) [last] none
        [last] := fun b =>
      gives_readOperation?.2 ⟨last, [], rfl, .inr ⟨by simp [hlast, opOf?], rfl, rfl⟩⟩
    -- The cut lies in the last operand that is read or in the operation to its left.
    generalize hn : m + 1 + 2 = n at h
    generalize hw : ts.map Token.word ++ q = w at h
    induction h generalizing ts q with
    | @binary n v w k op l r hop hlevel hl hr ihl _ =>
      obtain rfl : n = m + 2 := by omega
      obtain ⟨z, rfl, rfl⟩ | ⟨us, t, vs, rfl, rfl, ht, rfl⟩ := Token.cut_mark hw.symm
      · exact (ihl hts hn rfl).front (.mark k :: w) rfl id fun _ => id
      · simp only [List.length_append, List.length_cons] at hts
        have hopOf := opOf?_eq_some.2 hop
        rw [← ht] at hopOf
        refine (ihm (by omega) hr (by omega)).within (us ++ [t]) [] (by simp) (by simp)
          (fun hhalts => ?_) fun w hw => ?_
        · have hreach := reaches_readOperators (by omega)
            (delivers_readOperators hexpr m (by omega)) hl (by simp; omega)
          refine hreach.halts hend ?_ ⟨t, vs, rfl, .of_opOf? hopOf hlevel⟩ (by omega)
          rw [readOperation?, halts_peek_bind rfl]
          simp only [hopOf, hlevel, if_true]
          rw [halts_next_bind (by rintro hk; simp [hk, opOf?] at hopOf), bind_pure_comp]
          exact hhalts.map
        · have hword := word_of_opOf? hopOf
          rw [ht] at hword
          simpa [hword] using viable_operand hop hlevel hl hw
    | @loosen n w e h _ =>
      obtain rfl : n = m + 2 := by omega
      subst hw
      exact (ihm (by omega) h hts).front [] (by simp) (fun h => h.chain hend hbound)
        fun w hw => viable_mono hw (by omega)
    | _ => omega

theorem survives_readCons {ts : List Token} {q : List Word} {e : Expr}
    (h : Phrase 8 (ts.map Token.word ++ q) e) (hts : ts.length ≤ bound) (hbound : 0 < bound) :
    Survives (readCons bound expr) (Phrase 8) ts last q := by
  have hend (e : Expr) : Halts (do
      if ← accept .cons then let tail ← expr; return .cons e tail else return e) [] last :=
    halts_accept_end hlast (by decide) (halts_pure e)
  generalize hw : ts.map Token.word ++ q = w at h
  cases h with
  | binary _ hlevel _ _ =>
    have := Op.level_le ‹_›
    omega
  | @cons v w h t hh ht =>
    obtain ⟨z, rfl, rfl⟩ | ⟨us, cons, vs, rfl, rfl, hcons, rfl⟩ := Token.cut_mark hw.symm
    · exact (survives_readOperators hexpr hlast hcut 5 (by decide) hh hts hbound).front
        (.mark .cons :: w) rfl (fun h => h.bind hend) fun w hw => viable_mono hw (by decide)
    · simp only [List.length_append, List.length_cons] at hts
      refine (hcut vs q t ht (by omega)).within (us ++ [cons]) [] (by simp) (by simp)
        (fun hhalts => ?_) fun w hw => ?_
      · have hhead := delivers_readOperators hexpr 5 (by decide) hh (by simp; omega) us cons
          (vs ++ [last]) rfl (by simp [hcons, Follows, startsAtom, opOf?])
        refine hhead.halts_bind ?_
        rw [halts_accept_yes (by decide) hcons, if_pos rfl, bind_pure_comp]
        exact hhalts.map
      · simpa [Token.word_of_kind hcons] using viable_tail hh hw
  | loosen h =>
    subst hw
    exact (survives_readOperators hexpr hlast hcut 5 (by decide) h hts hbound).front [] (by simp)
      (fun h => h.bind hend) fun w hw => viable_mono hw (by decide)

theorem survives_readConditional {u v w q : List Word} {c y n : Expr} {ts : List Token}
    (hc : Phrase 9 u c) (hy : Phrase 9 v y) (hn : Phrase 9 w n)
    (hw : .mark .kwIf :: (u ++ .mark .kwThen :: (v ++ .mark .kwElse :: w)) =
      ts.map Token.word ++ q) (hne : ts ≠ []) (hts : ts.length ≤ bound) :
    Survives (readConditional expr) (Phrase 9) ts last q := by
  obtain ⟨word, ts, rfl, hword, hw⟩ := Token.cut_cons hw hne
  have hk : word.kind = .kwIf := Token.kind_of_word hword
  rw [List.length_cons] at hts
  obtain ⟨z, rfl, rfl⟩ | ⟨us, th, ts, rfl, rfl, hth, hw⟩ := Token.cut_mark hw
  · refine (hcut ts z c hc (by omega)).within [word] _ rfl rfl (fun hhalts => ?_)
      fun w hw => ?_
    · rw [readConditional, halts_next_bind (by simp [hk])]
      exact hhalts.bind fun c => halts_expect_end hlast (by decide)
    · simpa [hword] using viable_test fillable_startsIf hw
  simp only [List.length_append, List.length_cons] at hts
  have hread : ∀ vs, Halts (do
        let yes ← expr
        let _ ← expect .kwElse .conditional
        let no ← expr
        return Expr.cond c yes no) vs last →
      Halts (readConditional expr) (word :: (us ++ th :: vs)) last := by
    intro vs hhalts
    have htest := hexpr _ c hc (by simp; omega) us th (vs ++ [last]) rfl
      (.of_closing (by simp [hth]) 9)
    rw [readConditional, halts_next_bind (by simp [hk])]
    refine Gives.halts_bind (by simpa using htest) ?_
    rwa [halts_expect_bind (by decide) hth]
  have hthen := Token.word_of_kind hth (by decide)
  obtain ⟨z, rfl, rfl⟩ | ⟨vs, el, ts, rfl, rfl, hel, rfl⟩ := Token.cut_mark hw
  · refine (hcut ts z y hy (by omega)).within (word :: (us ++ [th])) _ (by simp) rfl
      (fun hhalts => ?_) fun w hw => ?_
    · exact hread ts (hhalts.bind fun y => halts_expect_end hlast (by decide))
    · simpa [hword, hthen] using viable_then fillable_startsIf hc hw
  · simp only [List.length_append, List.length_cons] at hts
    refine (hcut ts q n hn (by omega)).within (word :: (us ++ th :: (vs ++ [el]))) []
      (by simp) (by simp) (fun hhalts => ?_) fun w hw => ?_
    · have hyes := hexpr _ y hy (by simp; omega) vs el (ts ++ [last]) rfl
        (.of_closing (by simp [hel]) 9)
      refine hread _ (Gives.halts_bind (by simpa using hyes) ?_)
      rw [halts_expect_bind (by decide) hel, bind_pure_comp]
      exact hhalts.map
    · simpa [hword, hthen, Token.word_of_kind hel] using viable_else hc hy hw

omit hexpr in
theorem survives_readArm {arm : Spelled Pat × Spelled Expr} {ts : List Token} {q : List Word}
    (hp : Pat.Phrase 2 arm.1.words arm.1.tree) (hb : Phrase 9 arm.2.words arm.2.tree)
    (hw : caseWords arm = ts.map Token.word ++ q) (hts : ts.length ≤ bound) :
    Survives (readArm bound expr) Case ts last q := by
  rcases eq_or_ne ts [] with rfl | hne
  · exact .inl (halts_expect_end hlast (by decide))
  obtain ⟨ca, ts, rfl, hca, hw⟩ := Token.cut_cons hw hne
  have hk : ca.kind = .kwCase := Token.kind_of_word hca
  rw [List.length_cons] at hts
  obtain ⟨z, hz, -⟩ | ⟨us, arrow, vs, rfl, hus, harrow, hz⟩ := Token.cut_mark hw
  · refine .inl ?_
    rw [hz] at hp
    rw [readArm, halts_expect_bind (by decide) hk]
    exact (Pat.halts_read bound hlast hp (by omega)).bind fun p =>
      halts_expect_end hlast (by decide)
  · simp only [List.length_append, List.length_cons] at hts
    rw [hz] at hb
    rw [← hus] at hp
    refine (hcut vs q _ hb (by omega)).within (ca :: (us ++ [arrow])) [] (by simp)
      (by simp) (fun hhalts => ?_) fun w hw => ?_
    · have hpat := Pat.delivers_read bound hp (by simp; omega) us arrow (vs ++ [last]) rfl
        (by simp [harrow])
      rw [readArm, halts_expect_bind (by decide) hk]
      refine Gives.halts_bind (by simpa using hpat) ?_
      rw [halts_expect_bind (by decide) harrow, bind_pure_comp]
      exact hhalts.map
    · simpa [hca, Token.word_of_kind harrow] using viable_arm hp hw

theorem survives_readMatch {v w q : List Word} {e : Expr}
    {arms : List (Spelled Pat × Spelled Expr)} {ts : List Token} (he : Phrase 9 v e)
    (hp : ∀ arm ∈ arms, Pat.Phrase 2 arm.1.words arm.1.tree)
    (hb : ∀ arm ∈ arms, Phrase 9 arm.2.words arm.2.tree)
    (hsep : Separated (arms.map caseWords) w)
    (hw : .mark .kwMatch :: (v ++ .mark .kwWith :: between .lbrace .rbrace w) =
      ts.map Token.word ++ q) (hne : ts ≠ []) (hq : q ≠ []) (hts : ts.length ≤ bound) :
    Survives (readMatch bound expr) (Phrase 9) ts last q := by
  obtain ⟨word, ts, rfl, hword, hw⟩ := Token.cut_cons hw hne
  have hk : word.kind = .kwMatch := Token.kind_of_word hword
  rw [List.length_cons] at hts
  obtain ⟨z, rfl, rfl⟩ | ⟨us, wi, ts, rfl, rfl, hwi, hw⟩ := Token.cut_mark hw
  · refine (hcut ts z e he (by omega)).within [word] _ rfl rfl (fun hhalts => ?_)
      fun w hw => ?_
    · rw [readMatch, halts_next_bind (by simp [hk])]
      exact hhalts.bind fun c => halts_expect_end hlast (by decide)
    · simpa [hword] using viable_matched fillable_startsIf hw
  simp only [List.length_append, List.length_cons] at hts
  have hvalue (rest : List Token) : Gives expr (us ++ wi :: (rest ++ [last])) e
      (wi :: (rest ++ [last])) :=
    hexpr _ e he (by simp; omega) us wi (rest ++ [last]) rfl (.of_closing (by simp [hwi]) 9)
  rcases eq_or_ne ts [] with rfl | hopen
  · rw [Survives, readMatch, halts_next_bind (by simp [hk])]
    refine .inl (Gives.halts_bind (by simpa using hvalue []) ?_)
    rw [halts_expect_bind (by decide) hwi]
    exact halts_expect_end hlast (by decide)
  obtain ⟨lb, rest, z, rfl, hlb, hz, rfl⟩ := Token.cut_between hw hopen hq
  rw [List.length_cons] at hts
  have hrow : Stops (items (readArm bound expr) .matchCaseEnd bound) (rest ++ [last]) ∨
      Opens (Phrase 9) ((word :: (us ++ wi :: lb :: rest)).map Token.word)
        (z ++ [.mark .rbrace]) := by
    refine stops_items_cut hsep hz hlast (fun arm => (arm.1.tree, arm.2.tree))
      (fun arm _ => ⟨_, _, rfl, by decide⟩)
      (fun arm hmem us' semi rest' hus' hlen hsemi => ?_) (halts_expect_end hlast (by decide))
      (by omega) fun before arm us' vs z' post hus' hbefore hcutAt hz' hmem harm => ?_
    · have hlength := congrArg List.length hus'
      rw [List.length_map] at hlength
      exact delivers_readArm hexpr (hp arm hmem) (hb arm hmem) (by omega) us' semi rest' hus'
        (.of_closing (by simp [hsemi]) 9)
    · subst hus' hz'
      rw [List.length_append] at hts
      refine (survives_readArm hlast hcut (hp arm harm) (hb arm harm) hcutAt
        (by omega)).imp_right fun h => ?_
      have hopens := h.within (Q := Phrase 9) (.mark .kwMatch :: (us.map Token.word ++
        .mark .kwWith :: .mark .lbrace :: terminated (before.map caseWords)))
        (post ++ [.mark .rbrace]) fun w hw => by
          simpa using viable_select fillable_startsIf he (fun d hd => hp d (hmem d hd))
            (fun d hd => hb d (hmem d hd)) hw
      simpa [hbefore, hword, Token.word_of_kind hwi, Token.word_of_kind hlb] using hopens
  refine hrow.imp_left fun h => ?_
  rw [readMatch, halts_next_bind (by simp [hk])]
  refine Gives.halts_bind (by simpa using hvalue (lb :: rest)) ?_
  rw [halts_expect_bind (by decide) hwi, halts_expect_bind (by decide) hlb]
  exact .inl (stops_bind.2 (.inl h))

theorem survives_readFunction_tighter {ts : List Token} {q : List Word} {e : Expr}
    (h : Phrase 8 (ts.map Token.word ++ q) e) (hts : ts.length ≤ bound) (hbound : 0 < bound) :
    Survives (readFunction bound expr) (Phrase 9) ts last q := by
  refine (survives_readCons hexpr hlast hcut h hts hbound).front [] (by simp) (fun hhalts => ?_)
    fun w hw => viable_mono hw (by decide)
  refine (halts_congr ?_).2 hhalts
  simp only [readFunction, head?_eq_none_of_cut h (by decide) hlast]
  rfl

theorem survives_readFunction_lambda {v w q : List Word} {p : Pat} {a : Option Ty} {e : Expr}
    {ts : List Token} (hp : Head v p a) (he : Phrase 9 w e)
    (hw : v ++ .mark .fatArrow :: w = ts.map Token.word ++ q) (hts : ts.length ≤ bound)
    (hbound : 0 < bound) : Survives (readFunction bound expr) (Phrase 9) ts last q := by
  obtain ⟨z, rfl, rfl⟩ | ⟨us, arrow, vs, rfl, rfl, harrow, rfl⟩ := Token.cut_mark hw
  · by_cases hbegins : Begins (ts.map Token.word)
    · -- The first words of the head are read as those of the other expression.
      obtain ⟨r, e', hr, h⟩ := hbegins
      exact .inl ((survives_readFunction_tighter hexpr hlast hcut h hts hbound).resolve_right
        fun hopens => hr hopens.arrow_mem)
    · exact .inr ⟨[], _, z, w, p, a, rfl, hbegins, rfl, hp, viable_startsIf⟩
  · simp only [List.length_append, List.length_cons] at hts
    refine (hcut vs q e he (by omega)).within (us ++ [arrow]) [] (by simp) (by simp)
      (fun hhalts => ?_) fun w hw => ?_
    · have hhead : head? bound (us ++ arrow :: (vs ++ [last])) = some ((p, a), vs ++ [last]) :=
        head?_eq_some hp (by simp; omega) rfl harrow
      refine (halts_congr ?_).2 (hhalts.map (g := Expr.lambda p a))
      simp only [readFunction, List.append_assoc, List.cons_append, hhead]
      rfl
    · simpa [Token.word_of_kind harrow] using viable_body hp hw

omit hexpr hcut in
theorem stops_readOperators_end (tiers : Nat) : Stops (readOperators bound expr tiers) [last] := by
  induction tiers with
  | zero => exact stops_bind.2 (.inl (stops_readAtom_end hlast))
  | succ m ih => exact stops_bind.2 (.inl ih)

omit hexpr hcut in
theorem stops_readWith_end : Stops (readWith bound expr) [last] := by
  refine stops_peek_bind.2 ⟨last, [], rfl, ?_⟩
  have hx : Phrase 1 ([].map Token.word ++ [.ident "x"]) (.ident "x") := phrase_x (by decide)
  have hnone : head? bound [last] = none := head?_eq_none_of_cut hx (by decide) hlast
  rw [hlast]
  have hcons : Stops (readCons bound expr) [last] :=
    stops_bind.2 (.inl (stops_readOperators_end hlast 5))
  simpa only [Stops, readFunction, hnone, StateT.run] using hcons

theorem survives_readWith {ts : List Token} {q : List Word} {e : Expr}
    (h : Phrase 9 (ts.map Token.word ++ q) e) (hts : ts.length ≤ bound) :
    Survives (readWith bound expr) (Phrase 9) ts last q := by
  rcases eq_or_ne q [] with rfl | hq
  · rw [List.append_nil] at h
    refine .inl ((delivers_readWith hexpr h (by simpa using hts)).halts ?_)
    rw [hlast]
    exact .of_closing (by decide) 9
  cases ts with
  | nil => exact .inl (.inl (stops_readWith_end hlast))
  | cons t us =>
    have hbound : 0 < bound := Nat.zero_lt_of_lt hts
    have hfunction (hstarts : startsAtom t.kind = true ∨ t.kind = .underscore)
        (hread : Survives (readFunction bound expr) (Phrase 9) (t :: us) last q) :
        Survives (readWith bound expr) (Phrase 9) (t :: us) last q := by
      refine hread.imp_left fun hhalts => ?_
      rw [readWith, halts_peek_bind rfl]
      split
      · simp_all [startsAtom]
      · simp_all [startsAtom]
      · exact hhalts
    generalize hw : (t :: us).map Token.word ++ q = w at h
    cases h with
    | binary _ hlevel _ _ =>
      have := Op.level_le ‹_›
      omega
    | lambda hp he =>
      obtain ⟨x, v, rfl, hx⟩ := hp.starts
      obtain ⟨hword, -⟩ := List.cons.inj hw
      exact hfunction (by rwa [← Token.kind_word, hword])
        (survives_readFunction_lambda hexpr hlast hcut hp he hw.symm hts hbound)
    | cond hc hy hn =>
      refine (survives_readConditional hexpr hlast hcut hc hy hn hw.symm (by simp) hts).imp_left
        fun hhalts => ?_
      have hk : t.kind = .kwIf := Token.kind_of_word (List.cons.inj hw).1
      rwa [readWith, halts_peek_bind rfl, hk]
    | select he hp hb hsep =>
      refine (survives_readMatch hexpr hlast hcut he hp hb hsep hw.symm (by simp) hq hts).imp_left
        fun hhalts => ?_
      have hk : t.kind = .kwMatch := Token.kind_of_word (List.cons.inj hw).1
      rwa [readWith, halts_peek_bind rfl, hk]
    | loosen h =>
      subst hw
      obtain ⟨x, v, hx, hstarts⟩ := h.starts
      obtain ⟨rfl, -⟩ := List.cons.inj hx
      exact hfunction (.inl (by simpa [Starts] using hstarts))
        (survives_readFunction_tighter hexpr hlast hcut h hts hbound)

end Readers

theorem survives_read (bound : Nat) {ts : List Token} {q : List Word} {e : Expr} {last : Token}
    (hlast : last.kind = .eof) (h : Phrase 9 (ts.map Token.word ++ q) e)
    (hts : ts.length < bound) : Survives (read bound) (Phrase 9) ts last q := by
  induction bound generalizing ts q e with
  | zero => omega
  | succ n ih =>
    exact survives_readWith (fun w e h hw => delivers_read n h hw) hlast
      (fun ts q e h hts => ih h hts) h (by omega)

theorem survives_readProgram (bound : Nat) {ts : List Token} {q : List Word} {e : Expr}
    {last : Token} (hlast : last.kind = .eof) (h : Program (ts.map Token.word ++ q) e)
    (hts : ts.length < bound) : Survives (readProgram bound) Program ts last q := by
  have hcut : ∀ ts q e, Phrase 9 (ts.map Token.word ++ q) e → ts.length < bound →
      Survives (read bound) (Phrase 9) ts last q := fun _ _ _ => survives_read bound hlast
  have hend (e : Expr) : Halts (do let _ ← accept .semicolon; return e) [] last :=
    halts_accept_end hlast (by decide) (halts_pure e)
  have hplace (w : List Word) (hw : Viable StartsIf (Phrase 10) w) : Viable StartsIf Program w :=
    hw.imp fun q e he => ⟨e, .statement he⟩
  generalize hw : ts.map Token.word ++ q = w at h
  cases h with
  | statement h =>
    subst hw
    exact (survives_readStatement hlast hcut h hts).front [] (by simp) (fun h => h.bind hend) hplace
  | ended h =>
    obtain ⟨z, rfl, rfl⟩ | ⟨us, semi, vs, rfl, rfl, hsemi, hnil⟩ := Token.cut_mark hw.symm
    · exact (survives_readStatement hlast hcut h hts).front _ rfl (fun h => h.bind hend) hplace
    · obtain rfl := List.map_eq_nil_iff.1 (List.append_eq_nil_iff.1 hnil.symm).1
      rw [List.length_append, List.length_singleton] at hts
      have hstmt := delivers_readStatement (fun w e => delivers_read bound (w := w) (e := e)) h
        (by simp; omega) us semi [last] rfl (.of_closing (by simp [hsemi]) 9)
      refine .inl (Gives.halts_bind (by simpa using hstmt) ?_)
      rw [halts_accept_yes (by decide) hsemi]
      exact halts_pure e

/-- **A program that is cut ends too early**, unless the head of a function is cut. -/
theorem parseProgram_newline {source more : List Char} {err : SyntaxError} {e : Expr}
    (hfail : parseProgram source = .error err)
    (hmore : parseProgram (source ++ '\n' :: more) = .ok e)
    (hhead : ¬Opens Program (Token.words source) (Token.words more)) :
    err.incomplete = true := by
  obtain ⟨hfault, hprogram⟩ := parseProgram_eq_ok.1 hmore
  cases hline : (Token.scan source).fault with
  | some fault =>
    -- Only an open string is mended in the next line.
    have herr : parseProgram source = .error fault := by
      simp only [parseProgram, readAll, hline]
      rfl
    obtain rfl : fault = err := Except.error.inj (herr.symm.trans hfail)
    have hopen : fault.cause = .openString := by
      by_contra hcause
      exact Token.scanFrom_newline_fault hline hcause more hfault
    simp [SyntaxError.incomplete, hopen, SyntaxError.Cause.incomplete]
  | none =>
    obtain ⟨ts, last, hts, hlast, -, hwords⟩ := Token.scan_tokens source
    rw [(Token.words_newline hline more).1, ← hwords] at hprogram
    rw [← hwords] at hhead
    have hcut := survives_readProgram ((Token.scan source).tokens.length + 1) hlast hprogram
      (by simp [hts])
    obtain hstops | ⟨a, hgives⟩ := hcut.resolve_right hhead
    · rw [← hts] at hstops
      obtain ⟨err', herr, hearly⟩ := (readAll_stops hline).2 hstops
      obtain rfl : err' = err := Except.error.inj (herr.symm.trans hfail)
      exact hearly
    · obtain ⟨used, hused, hphrase⟩ := reads_readProgram _ hgives
      obtain rfl := List.append_cancel_right hused
      rw [hwords] at hphrase
      have hok := parseProgram_eq_ok.2 ⟨hline, hphrase⟩
      exact absurd (hok.symm.trans hfail) (by simp)

end Expr

namespace Token

/-- Where a blank or a colon is met, no token starts but a sign with a colon. -/
theorem lexeme_of_blank (p : Pos) {c : Char} (cs : List Char)
    (hc : (Text.isBlank c || c == ':') = true) :
    (lexeme p c cs).fault ≠ none ∨ (lexeme p c cs).kind = .colon ∨
      (lexeme p c cs).kind = .cons := by
  have hsigns : ∀ k ∈ Kind.symbols, k = .colon ∨ k = .cons ∨
      k.name.toList.head?.any (fun c => Text.isBlank c || c == ':') = false := by decide
  have hquote : c ≠ '"' := by
    rintro rfl
    exact absurd hc (by decide)
  have hword : isLetter c = false ∧ Text.Decimal.isDigit c = false := by
    have heq (d : Char) : c = d ↔ c.toNat = d.toNat := Char.toNat_inj.symm
    have hle (d : Char) : (d ≤ c ↔ d.toNat ≤ c.toNat) ∧ (c ≤ d ↔ c.toNat ≤ d.toNat) :=
      ⟨Iff.rfl, Iff.rfl⟩
    simp only [Text.isBlank, Bool.or_eq_true, Bool.and_eq_true, decide_eq_true_eq, beq_iff_eq,
      heq] at hc
    simp only [isLetter, Text.Decimal.isDigit, Bool.or_eq_false_iff, Bool.and_eq_false_iff,
      decide_eq_false_iff_not, hle, heq]
    simp only [Char.reduceToNat] at hc ⊢
    omega
  obtain ⟨hletter, hdigit⟩ := hword
  rw [lexeme, if_neg hquote, hletter, if_neg (by decide), hdigit, if_neg (by decide)]
  split
  · next k hk =>
    have hfront : k.name.toList <+: c :: cs := by simpa using List.find?_some hk
    obtain h | h | h := hsigns k (List.mem_of_find?_eq_some hk)
    · exact .inr (.inl h)
    · exact .inr (.inr h)
    · have hne := symbols_name_ne_nil k (List.mem_of_find?_eq_some hk)
      obtain ⟨d, ds, hname⟩ := List.exists_cons_of_ne_nil hne
      rw [hname] at hfront h
      obtain ⟨rfl, -⟩ := List.cons_prefix_cons.1 hfront
      rw [List.head?_cons, Option.any_some, hc] at h
      exact absurd h (by decide)
  · exact .inl (by simp)

/-- Before a colon stands nothing but blanks. -/
theorem skip_of_blank {blanks : List Char} (h : ∀ c ∈ blanks, Text.isBlank c) (rest : List Char) :
    ∃ gap c more, skip false (blanks ++ ':' :: rest) = (gap, c :: more) ∧
      (Text.isBlank c || c == ':') = true := by
  induction blanks with
  | nil => exact ⟨[], ':', rest, rfl, by decide⟩
  | cons b bs ih =>
    obtain ⟨gap, c, more, hskip, hc⟩ := ih fun c hc => h c (by simp [hc])
    rw [List.cons_append, skip, if_neg (by decide)]
    split
    · exact ⟨b :: gap, c, more, by rw [hskip], hc⟩
    · rw [if_neg]
      · exact ⟨[], b, _, rfl, by simp [h b (by simp)]⟩
      · rintro hslash
        have hb := h b (by simp)
        simp only [Bool.and_eq_true, decide_eq_true_eq] at hslash
        rw [hslash.1] at hb
        exact absurd hb (by decide)

end Token

theorem Expr.Program.starts {w : List Word} {e : Expr} (h : Program w e) :
    ∃ x v, w = x :: v ∧ Starts 10 x.kind := by
  cases h with
  | statement h => exact h.starts
  | ended h =>
    obtain ⟨x, v, rfl, hx⟩ := h.starts
    exact ⟨x, _, rfl, hx⟩

/-- No program starts with a colon. -/
theorem Expr.parseProgram_of_blank {blanks rest : List Char} (h : ∀ c ∈ blanks, Text.isBlank c)
    (e : Expr) : parseProgram (blanks ++ ':' :: rest) ≠ .ok e := by
  intro hok
  obtain ⟨hfault, hprogram⟩ := parseProgram_eq_ok.1 hok
  obtain ⟨x, v, hx, hstarts⟩ := hprogram.starts
  obtain ⟨gap, c, more, hskip, hc⟩ := Token.skip_of_blank h rest
  have hscan := Token.map_word_scan (blanks ++ ':' :: rest)
  rw [Token.scan, Token.scanFrom_of_cons hskip] at hfault hscan
  obtain hlex | hkind := Token.lexeme_of_blank (Pos.start.advanceAll gap) more hc
  · obtain ⟨fault, hlex⟩ := Option.ne_none_iff_exists.1 hlex
    simp [← hlex] at hfault
  · rw [hx] at hscan
    obtain ⟨hword, -⟩ := List.cons.inj hscan
    rw [← hword, Token.kind_word] at hstarts
    rcases hkind with hkind | hkind <;> simp [hkind, Expr.Starts, Expr.startsAtom] at hstarts

/-- A text that starts with a colon but for blanks. -/
theorem Session.isCommand_trim {s : String} (h : isCommand (Text.trim s)) :
    ∃ blanks rest, s.toList = blanks ++ ':' :: rest ∧ ∀ c ∈ blanks, Text.isBlank c := by
  refine ⟨s.toList.takeWhile Text.isBlank, (s.toList.dropWhile Text.isBlank).tail, ?_,
    fun c hc => List.mem_takeWhile_imp hc⟩
  have hhead : (s.toList.dropWhile Text.isBlank).head? = some ':' := by
    obtain ⟨z, hz⟩ := List.reverse_prefix.2
      (List.dropWhile_suffix Text.isBlank (l := (s.toList.dropWhile Text.isBlank).reverse))
    rw [List.reverse_reverse] at hz
    rw [← hz, List.head?_append]
    simp only [isCommand, Text.trim, String.toList_ofList, beq_iff_eq] at h
    rw [h]
    rfl
  obtain ⟨rest, hrest⟩ := List.head?_eq_some_iff.1 hhead
  rw [hrest, List.tail_cons, ← hrest, List.takeWhile_append_dropWhile]

namespace Session

/-- **Reading does not give up early**: a source that a line can finish is incomplete, unless
the head of a function lies across the end of the source. -/
theorem incomplete_of_newline (s t : String) (err : SyntaxError) (e : Expr)
    (hblank : Text.trim s ≠ "")
    (hfail : Expr.parseProgram s.toList = .error err)
    (hmore : Expr.parseProgram (s ++ "\n" ++ t).toList = .ok e)
    (hhead : ¬Expr.Opens Expr.Program (Token.words s.toList) (Token.words t.toList)) :
    incomplete s = true := by
  have hlines : (s ++ "\n" ++ t).toList = s.toList ++ '\n' :: t.toList := by simp
  rw [hlines] at hmore
  have hearly := Expr.parseProgram_newline hfail hmore hhead
  have hstatement : isCommand (Text.trim s) = false := by
    rw [Bool.eq_false_iff]
    intro htrim
    obtain ⟨blanks, rest, hs, hall⟩ := isCommand_trim htrim
    rw [hs, List.append_assoc] at hmore
    exact Expr.parseProgram_of_blank hall e hmore
  simp [incomplete, hblank, hstatement, hfail, hearly]

theorem incomplete_of_newline_block :
    Text.trim "f ((x : Int) => \x7b val y =" ≠ "" ∧
      Expr.parseProgram "f ((x : Int) => \x7b val y =".toList =
        .error ⟨⟨1, 26⟩, .unexpected .expression ⟨.eof, "", ⟨1, 26⟩⟩⟩ ∧
      Expr.parseProgram ("f ((x : Int) => \x7b val y =" ++ "\n" ++ "x; y \x7d)").toList =
        .ok (.app (.ident "f") (.lambda (.ident "x") (some .int)
          (.block [.define .val (.ident "y") none (.ident "x"), .ident "y"]))) ∧
      incomplete "f ((x : Int) => \x7b val y =" = true := by
  have hblank : Text.trim "f ((x : Int) => \x7b val y =" ≠ "" := by decide
  have hfail : Expr.parseProgram "f ((x : Int) => \x7b val y =".toList =
      .error ⟨⟨1, 26⟩, .unexpected .expression ⟨.eof, "", ⟨1, 26⟩⟩⟩ := by cbv
  have hmore : Expr.parseProgram ("f ((x : Int) => \x7b val y =" ++ "\n" ++ "x; y \x7d)").toList =
      .ok (.app (.ident "f") (.lambda (.ident "x") (some .int)
        (.block [.define .val (.ident "y") none (.ident "x"), .ident "y"]))) := by cbv
  have hwords : Token.words "x; y \x7d)".toList =
      [.ident "x", .mark .semicolon, .ident "y", .mark .rbrace, .mark .rparen] := by cbv
  refine ⟨hblank, hfail, hmore, incomplete_of_newline _ _ _ _ hblank hfail hmore fun h => ?_⟩
  have harrow := h.arrow_mem
  rw [hwords] at harrow
  simp at harrow

/-- The head of a function leaves no trace where it is tried in vain: the error is one of
the other expression that is tried then, at the colon. -/
theorem incomplete_typed_head :
    Text.trim "(x : Int" ≠ "" ∧
      Expr.parseProgram "(x : Int".toList =
        .error ⟨⟨1, 4⟩, .expected .rparen .parenthesized ⟨.colon, ":", ⟨1, 4⟩⟩⟩ ∧
      Expr.parseProgram ("(x : Int" ++ "\n" ++ ") => x").toList =
        .ok (.lambda (.ident "x") (some .int) (.ident "x")) ∧
      incomplete "(x : Int" = false := by
  have hfail : Expr.parseProgram "(x : Int".toList =
      .error ⟨⟨1, 4⟩, .expected .rparen .parenthesized ⟨.colon, ":", ⟨1, 4⟩⟩⟩ := by cbv
  refine ⟨by decide, hfail, by cbv, ?_⟩
  rw [incomplete, hfail]
  exact ite_self _

end Session

end LetPoly
