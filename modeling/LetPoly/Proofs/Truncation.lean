import LetPoly.Proofs.Finishing

/-! # Sources that are cut short

A phrase is cut into the words that stand there and those that are missing.  On the words
that stand there, before the end of the input, a reader **halts**: it stops for the early
end or takes them all (`Reader.Halts`).  This is shown along the derivation of the whole
phrase.  What lies before the cut as a whole is read as it always is; the part that is cut
is shorter, and the reader halts on it; and what would follow the cut part, at the end of
the input, stops or takes nothing.

Here this is shown for types, patterns and the rows of items in braces.
-/

namespace LetPoly

open Reader Word

/-! ## Where a cut lies -/

namespace Token

variable {ts : List Token} {q u w : List Word}

/-- A row that a word starts, cut behind the word. -/
theorem cut_cons {x : Word} (h : x :: w = ts.map Token.word ++ q) (hts : ts ≠ []) :
    ∃ t us, ts = t :: us ∧ t.word = x ∧ w = us.map Token.word ++ q := by
  cases ts with
  | nil => exact absurd rfl hts
  | cons t us =>
    obtain ⟨rfl, rfl⟩ := List.cons.inj h
    exact ⟨t, us, rfl, rfl, rfl⟩

/-- Two rows are cut in the first or, behind some of it, in the second. -/
theorem cut_append (h : u ++ w = ts.map Token.word ++ q) :
    (∃ z, u = ts.map Token.word ++ z ∧ q = z ++ w) ∨
      ∃ us vs, ts = us ++ vs ∧ vs ≠ [] ∧ us.map Token.word = u ∧ w = vs.map Token.word ++ q := by
  obtain ⟨z, hz, hw⟩ | ⟨z, hz, hq⟩ := List.append_eq_append_iff.1 h
  · obtain ⟨us, vs, rfl, hus, rfl⟩ := List.map_eq_append_iff.1 hz
    rcases eq_or_ne vs [] with rfl | hvs
    · exact .inl ⟨[], by simpa using hus.symm, by simpa using hw.symm⟩
    · exact .inr ⟨us, vs, rfl, hvs, hus, hw⟩
  · exact .inl ⟨z, hz, hq⟩

/-- Two rows with a sign between them. -/
theorem cut_mark {k : Token.Kind} (h : u ++ .mark k :: w = ts.map Token.word ++ q) :
    (∃ z, u = ts.map Token.word ++ z ∧ q = z ++ .mark k :: w) ∨
      ∃ us t vs, ts = us ++ t :: vs ∧ us.map Token.word = u ∧ t.kind = k ∧
        w = vs.map Token.word ++ q := by
  obtain h | ⟨us, vs, rfl, hvs, hus, hw⟩ := cut_append h
  · exact .inl h
  · obtain ⟨t, vs, rfl, ht, hw⟩ := cut_cons hw hvs
    exact .inr ⟨us, t, vs, rfl, hus, kind_of_word ht, hw⟩

/-- Words between two signs, of which the second is missing. -/
theorem cut_between {l r : Token.Kind} (h : between l r w = ts.map Token.word ++ q)
    (hts : ts ≠ []) (hq : q ≠ []) :
    ∃ t us z, ts = t :: us ∧ t.kind = l ∧ w = us.map Token.word ++ z ∧ q = z ++ [.mark r] := by
  obtain ⟨t, us, rfl, ht, hw⟩ := cut_cons h hts
  obtain ⟨z, rfl, hz⟩ | ⟨_, _, vs, -, -, -, hnil⟩ := cut_mark hw
  · exact ⟨t, us, z, rfl, kind_of_word ht, rfl, hz⟩
  · exact absurd (List.append_eq_nil_iff.1 hnil.symm).2 hq

/-- A word by itself is not cut. -/
theorem cut_single {x : Word} (h : [x] = ts.map Token.word ++ q) (hq : q ≠ []) : ts = [] := by
  have hlen := congrArg List.length h
  have := List.length_pos_iff.2 hq
  simp only [List.length_append, List.length_map, List.length_singleton] at hlen
  exact List.length_eq_zero_iff.1 (by omega)

end Token

/-! ## Readers at the end of the input -/

namespace Reader

variable {α β : Type} {r : Reader α} {f : α → Reader β} {ts : List Token} {last : Token}

/-- **Before the end of the input the reader stops, or it has taken all tokens.** -/
def Halts (r : Reader α) (ts : List Token) (last : Token) : Prop :=
  Stops r (ts ++ [last]) ∨ ∃ a, Gives r (ts ++ [last]) a [last]

theorem halts_congr {r' : Reader α} {ts' : List Token}
    (h : r (ts ++ [last]) = r' (ts' ++ [last])) : Halts r ts last ↔ Halts r' ts' last := by
  simp only [Halts, Stops, Gives, h]

theorem halts_pure (a : α) : Halts (pure a : Reader α) [] last :=
  .inr ⟨a, gives_pure.2 ⟨rfl, rfl⟩⟩

/-- What follows a part that halts has nothing left to read. -/
theorem Halts.bind (h : Halts r ts last) (hf : ∀ a, Halts (f a) [] last) :
    Halts (r >>= f) ts last := by
  obtain h | ⟨a, h⟩ := h
  · exact .inl (stops_bind.2 (.inl h))
  · have heq : (r >>= f) (ts ++ [last]) = f a ([] ++ [last]) := h.bind_eq
    exact (halts_congr heq).2 (hf a)

theorem Halts.map {g : α → β} (h : Halts r ts last) : Halts (g <$> r) ts last := by
  rw [map_eq_pure_bind]
  exact h.bind fun a => halts_pure _

/-- A part that is read as a whole. -/
theorem Gives.halts_bind {us : List Token} {a : α}
    (h : Gives r (us ++ (ts ++ [last])) a (ts ++ [last])) (hf : Halts (f a) ts last) :
    Halts (r >>= f) (us ++ ts) last :=
  (halts_congr (by rw [List.append_assoc, h.bind_eq])).2 hf

theorem Delivers.halts {F : Token.Kind → Prop} {a : α} (h : Delivers r F (ts.map Token.word) a)
    (hlast : F last.kind) : Halts r ts last :=
  .inr ⟨a, h ts last [] rfl hlast⟩

/-- A part that takes nothing. -/
theorem Gives.halts_bind_iff {a : α} (h : Gives r (ts ++ [last]) a (ts ++ [last])) :
    Halts (r >>= f) ts last ↔ Halts (f a) ts last :=
  halts_congr h.bind_eq

theorem halts_next_bind {f : Token → Reader β} {t : Token} (ht : t.kind ≠ .eof) :
    Halts (next >>= f) (t :: ts) last ↔ Halts (f t) ts last := by
  refine halts_congr ?_
  have hnext : Gives next (t :: (ts ++ [last])) t (ts ++ [last]) := (gives_next ht).2 ⟨rfl, rfl⟩
  exact hnext.bind_eq

theorem halts_peek_bind {f : Token → Reader β} {t : Token} {mid : List Token}
    (h : ts ++ [last] = t :: mid) : Halts (peek >>= f) ts last ↔ Halts (f t) ts last :=
  Gives.halts_bind_iff (gives_peek.2 ⟨rfl, mid, h⟩)

theorem halts_expect_end {k : Token.Kind} {place : SyntaxError.Place} {f : Token → Reader β}
    (hlast : last.kind = .eof) (hk : k ≠ .eof) : Halts (expect k place >>= f) [] last :=
  .inl ((stops_expect_bind hk).2 ⟨last, [], rfl, .inl hlast⟩)

theorem halts_expect_bind {k : Token.Kind} {place : SyntaxError.Place} {f : Token → Reader β}
    {t : Token} (hk : k ≠ .eof) (ht : t.kind = k) :
    Halts (expect k place >>= f) (t :: ts) last ↔ Halts (f t) ts last := by
  refine halts_congr ?_
  have hexpect : Gives (expect k place) (t :: (ts ++ [last])) t (ts ++ [last]) :=
    (gives_expect hk).2 ⟨ht, rfl⟩
  exact hexpect.bind_eq

theorem halts_accept_yes {k : Token.Kind} {f : Bool → Reader β} {t : Token} (hk : k ≠ .eof)
    (ht : t.kind = k) : Halts (accept k >>= f) (t :: ts) last ↔ Halts (f true) ts last := by
  refine halts_congr ?_
  have haccept : Gives (accept k >>= pure) (t :: (ts ++ [last])) true (ts ++ [last]) :=
    (gives_accept hk).2 (.inl ⟨t, _, rfl, ht, gives_pure.2 ⟨rfl, rfl⟩⟩)
  rw [bind_pure] at haccept
  exact haccept.bind_eq

theorem halts_accept_no {k : Token.Kind} {f : Bool → Reader β} {t : Token} {mid : List Token}
    (hk : k ≠ .eof) (h : ts ++ [last] = t :: mid) (ht : t.kind ≠ k) :
    Halts (accept k >>= f) ts last ↔ Halts (f false) ts last := by
  have haccept : Gives (accept k >>= pure) (ts ++ [last]) false (ts ++ [last]) :=
    (gives_accept hk).2 (.inr ⟨t, mid, h, ht, gives_pure.2 ⟨rfl, rfl⟩⟩)
  rw [bind_pure] at haccept
  exact haccept.halts_bind_iff

theorem halts_accept_end {k : Token.Kind} {f : Bool → Reader β} (hlast : last.kind = .eof)
    (hk : k ≠ .eof) (h : Halts (f false) [] last) : Halts (accept k >>= f) [] last :=
  (halts_accept_no hk rfl (by rw [hlast]; exact hk.symm)).2 h

/-! ### Loops -/

section Loops

variable {step : α → Reader (Option α)} {bound : Nat} {a : α}
  (hend : ∀ b, Gives (step b) [last] none [last])

include hend

theorem halts_extend_end {n : Nat} (hn : 0 < n) (a : α) : Halts (extend step n a) [] last := by
  obtain ⟨n, rfl⟩ : ∃ m, n = m + 1 := Nat.exists_eq_add_of_le' hn
  exact .inr ⟨a, gives_extend_succ.2 (.inr ⟨hend a, rfl⟩)⟩

/-- The cut lies in the first part of a chain. -/
theorem Halts.chain (h : Halts r ts last) (hbound : 0 < bound) :
    Halts (do let a ← r; extend step bound a) ts last :=
  h.bind fun a => halts_extend_end hend hbound a

/-- The cut lies in a later part of a chain. -/
theorem Reaches.halts {F : Token.Kind → Prop} {us : List Token}
    (h : Reaches r step bound F (us.map Token.word) a) (hstep : Halts (step a) ts last)
    (hF : ∃ t vs, ts = t :: vs ∧ F t.kind) (hlen : us.length < bound) :
    Halts (do let a ← r; extend step bound a) (us ++ ts) last := by
  obtain ⟨t, vs, rfl, ht⟩ := hF
  obtain ⟨n, hn, heq⟩ := h us t (vs ++ [last]) rfl ht (by simpa using Nat.le_of_lt hlen)
  rw [List.length_map] at hn
  obtain ⟨n, rfl⟩ : ∃ m, n = m + 1 := Nat.exists_eq_add_of_le' (by omega)
  have hloop : (do let a ← r; extend step bound a) (us ++ t :: vs ++ [last]) =
      extend step (n + 1) a (t :: vs ++ [last]) := by simpa using heq
  rw [halts_congr hloop, extend]
  refine hstep.bind fun o => ?_
  cases o with
  | none => exact halts_pure a
  | some b => exact halts_extend_end hend (by omega) b

end Loops

end Reader

/-! ## Types -/

namespace Ty

/-- Nothing goes on a type at the end of the input. -/
theorem follows_eof (n : Nat) : Follows n .eof := by
  simp [Follows, startsAtom]

theorem stops_readAtom_end {type : Reader Ty} {last : Token} (hlast : last.kind = .eof) :
    Stops (readAtom type) [last] := by
  refine stops_next_bind.2 ⟨last, [], rfl, .inr ⟨hlast, ?_⟩⟩
  simp [hlast, stops_failAt, SyntaxError.Cause.incomplete]

section Readers

variable {bound : Nat} {type : Reader Ty}
  (htype : ∀ w t, Phrase 4 w t → w.length < bound → Delivers type (Follows 4) w t)
  {last : Token} (hlast : last.kind = .eof)
  (hcut : ∀ ts q t, Phrase 4 (ts.map Token.word ++ q) t → ts.length < bound → Halts type ts last)

include htype hlast hcut

theorem halts_readAtom {ts : List Token} {q : List Word} {t : Ty}
    (h : Phrase 1 (ts.map Token.word ++ q) t) (hts : ts.length ≤ bound) :
    Halts (readAtom type) ts last := by
  rcases eq_or_ne q [] with rfl | hq
  · rw [List.append_nil] at h
    exact (delivers_readAtom htype h (by simpa using hts)).halts trivial
  rcases eq_or_ne ts [] with rfl | hne
  · exact .inl (stops_readAtom_end hlast)
  generalize hw : ts.map Token.word ++ q = w at h
  cases h with
  | base _ | var _ => exact absurd (Token.cut_single hw.symm hq) hne
  | paren h | list h =>
    obtain ⟨left, us, z, rfl, hl, rfl, -⟩ := Token.cut_between hw.symm hne hq
    rw [List.length_cons] at hts
    rw [readAtom, halts_next_bind (by simp [hl])]
    simp only [hl]
    exact (hcut us z _ h (by omega)).bind fun a => halts_expect_end hlast (by decide)
  | loosen h => exact absurd h.pos (by decide)

theorem halts_readApp {ts : List Token} {q : List Word} {t : Ty}
    (h : Phrase 2 (ts.map Token.word ++ q) t) (hts : ts.length ≤ bound) (hbound : 0 < bound) :
    Halts (readApp bound type) ts last := by
  have hend : ∀ b, Gives (readArg? type b) [last] none [last] := fun b =>
    gives_optional.2 ⟨last, [], rfl, .inr ⟨by simp [hlast, startsAtom], rfl, rfl⟩⟩
  generalize hn : 2 = n at h
  generalize hw : ts.map Token.word ++ q = w at h
  induction h generalizing ts q with
  | @app v w f a hf ha ih _ =>
    obtain ⟨z, rfl, -⟩ | ⟨us, vs, rfl, hvs, rfl, rfl⟩ := Token.cut_append hw.symm
    · exact ih hts hn rfl
    · rw [List.length_append] at hts
      have := List.length_pos_iff.2 hvs
      have harg := halts_readAtom htype hlast hcut ha (by omega)
      obtain ⟨t, vs, rfl⟩ := List.exists_cons_of_ne_nil hvs
      obtain ⟨x, _, hx, hstarts⟩ := ha.starts
      obtain ⟨rfl, -⟩ := List.cons.inj hx
      refine (reaches_readApp htype hf (by simp; omega)).halts hend ?_ ⟨t, vs, rfl, trivial⟩
        (by omega)
      rw [readArg?, halts_peek_bind rfl, if_pos (by simpa using hstarts (by decide)),
        bind_pure_comp]
      exact harg.map
  | @loosen n w t h _ =>
    obtain rfl : n = 1 := by omega
    subst hw
    exact (halts_readAtom htype hlast hcut h hts).chain hend hbound
  | _ => omega

theorem halts_readArrow {ts : List Token} {q : List Word} {t : Ty}
    (h : Phrase 3 (ts.map Token.word ++ q) t) (hts : ts.length ≤ bound) (hbound : 0 < bound) :
    Halts (readArrow bound type) ts last := by
  have hend (a : Ty) : Halts (do
      if ← accept .arrow then let ret ← type; return .arrow a ret else return a) [] last :=
    halts_accept_end hlast (by decide) (halts_pure a)
  generalize hw : ts.map Token.word ++ q = w at h
  cases h with
  | arrow ha hr =>
    obtain ⟨z, rfl, -⟩ | ⟨us, arrow, vs, rfl, rfl, harrow, rfl⟩ := Token.cut_mark hw.symm
    · exact (halts_readApp htype hlast hcut ha hts hbound).bind hend
    · simp only [List.length_append, List.length_cons] at hts
      have harg := delivers_readApp htype ha (by simp; omega) us arrow (vs ++ [last]) rfl
        (by simp [harrow, Follows, startsAtom])
      refine harg.halts_bind ?_
      rw [halts_accept_yes (by decide) harrow, if_pos rfl, bind_pure_comp]
      exact (hcut vs q _ hr (by omega)).map
  | loosen h =>
    subst hw
    exact (halts_readApp htype hlast hcut h hts hbound).bind hend

omit htype hcut in
/-- Where no quantifier stands. -/
theorem halts_readWith_of_readArrow {ts : List Token}
    (h : ∀ t us, ts = t :: us → t.kind ≠ .kwTfn ∧
      (t.kind = .ident → ∀ u ∈ us.head?, u.kind ≠ .dot))
    (harrow : Halts (readArrow bound type) ts last) : Halts (readWith bound type) ts last := by
  obtain ⟨t, u, mid, hts, htfn, hsecond, hdot⟩ : ∃ t u mid, ts ++ [last] = t :: mid ∧
      t.kind ≠ .kwTfn ∧ Gives peekSecond (ts ++ [last]) u (ts ++ [last]) ∧
        (t.kind = .ident → u.kind ≠ .dot) := by
    rcases ts with _ | ⟨t, _ | ⟨u, us⟩⟩
    · exact ⟨last, last, [], rfl, by simp [hlast], gives_peekSecond.2 ⟨rfl, .inr rfl⟩,
        by simp [hlast]⟩
    · exact ⟨t, last, [last], rfl, (h t [] rfl).1, gives_peekSecond.2 ⟨rfl, .inl ⟨t, [], rfl⟩⟩,
        by simp [hlast]⟩
    · exact ⟨t, u, _, rfl, (h t _ rfl).1, gives_peekSecond.2 ⟨rfl, .inl ⟨t, _, rfl⟩⟩,
        fun ht => (h t _ rfl).2 ht u rfl⟩
  rw [readWith, halts_peek_bind hts, if_neg htfn, hsecond.halts_bind_iff,
    if_neg (by simpa using hdot)]
  exact harrow

theorem halts_readWith {ts : List Token} {q : List Word} {t : Ty}
    (h : Phrase 4 (ts.map Token.word ++ q) t) (hts : ts.length ≤ bound) (hbound : 0 < bound) :
    Halts (readWith bound type) ts last := by
  rcases eq_or_ne ts [] with rfl | hne
  · refine halts_readWith_of_readArrow hlast nofun ?_
    have hx : Phrase 3 [.ident "x"] (.var "x") := Phrase.mono (.var (by decide)) (by decide : 1 ≤ 3)
    exact halts_readArrow htype hlast hcut hx hts hbound
  generalize hw : ts.map Token.word ++ q = w at h
  cases h with
  | @dot w x t h =>
    obtain ⟨name, us, rfl, hname, hw⟩ := Token.cut_cons hw.symm hne
    rcases eq_or_ne us [] with rfl | hus
    · -- A name alone is a type.
      have hx : Phrase 4 [.ident x] (ofName x) := by
        rw [ofName]
        split
        · exact Phrase.mono (.base ‹_›) (by decide : 1 ≤ 4)
        · exact Phrase.mono (.var ‹_›) (by decide : 1 ≤ 4)
      have hread : Delivers (readWith bound type) (Follows 4) ([name].map Token.word) (ofName x) := by
        rw [List.map_singleton, hname]
        exact delivers_readWith htype hx hts
      exact hread.halts (hlast ▸ follows_eof 4)
    · obtain ⟨dot, us, rfl, hdot, rfl⟩ := Token.cut_cons hw hus
      have hxk : name.kind = .ident := Token.kind_of_word hname
      have hdk : dot.kind = .dot := Token.kind_of_word hdot
      simp only [List.length_cons] at hts
      have hsecond : Gives peekSecond (name :: dot :: us ++ [last]) dot _ :=
        gives_peekSecond.2 ⟨rfl, .inl ⟨name, us ++ [last], rfl⟩⟩
      rw [readWith, halts_peek_bind rfl, if_neg (by simp [hxk]),
        hsecond.halts_bind_iff, if_pos (by simp [hxk, hdk]),
        halts_next_bind (by simp [hxk]), halts_next_bind (by simp [hdk]), bind_pure_comp]
      exact (hcut us q _ h (by omega)).map
  | @tfn w x t h =>
    obtain ⟨tfn, us, rfl, htfn, hw⟩ := Token.cut_cons hw.symm hne
    have htk : tfn.kind = .kwTfn := Token.kind_of_word htfn
    rw [readWith, halts_peek_bind rfl, if_pos htk, halts_next_bind (by simp [htk])]
    rcases eq_or_ne us [] with rfl | hus
    · exact halts_expect_end hlast (by decide)
    obtain ⟨name, us, rfl, hname, hw⟩ := Token.cut_cons hw hus
    have hxk : name.kind = .ident := Token.kind_of_word hname
    rw [halts_expect_bind (by decide) hxk]
    rcases eq_or_ne us [] with rfl | hus
    · exact halts_expect_end hlast (by decide)
    obtain ⟨arrow, us, rfl, harrow, rfl⟩ := Token.cut_cons hw hus
    have hak : arrow.kind = .arrow := Token.kind_of_word harrow
    simp only [List.length_cons] at hts
    rw [halts_expect_bind (by decide) hak, bind_pure_comp]
    exact (hcut us q _ h (by omega)).map
  | loosen h =>
    subst hw
    refine halts_readWith_of_readArrow hlast ?_ (halts_readArrow htype hlast hcut h hts hbound)
    rintro t us rfl
    obtain ⟨x, v, hx, hstarts⟩ := h.starts
    obtain ⟨rfl, -⟩ := List.cons.inj hx
    have hatom := hstarts (by decide)
    rw [Token.kind_word] at hatom
    refine ⟨by rintro hk; simp [hk, startsAtom] at hatom, fun ht u hu hdot => ?_⟩
    obtain ⟨us, rfl⟩ := List.head?_eq_some_iff.1 hu
    have hnot := h.second (by decide) (x := t.literal) (v := u.word :: (us.map Token.word ++ q))
      (by simp [Token.word_ident ht])
    exact hnot (by rw [List.head?_cons, Token.word_of_kind hdot (by decide)])

end Readers

/-- **A type that is cut short is read to the cut.** -/
theorem halts_read (bound : Nat) {last : Token} (hlast : last.kind = .eof) {ts : List Token}
    {q : List Word} {t : Ty} (h : Phrase 4 (ts.map Token.word ++ q) t) (hts : ts.length < bound) :
    Halts (read bound) ts last := by
  induction bound generalizing ts q t with
  | zero => omega
  | succ n ih =>
    rcases Nat.eq_zero_or_pos n with rfl | hn
    · obtain rfl : ts = [] := List.length_eq_zero_iff.1 (by omega)
      have hatom : Stops (readAtom (read 0)) [last] := stops_readAtom_end hlast
      exact halts_readWith_of_readArrow hlast nofun
        (.inl (stops_bind.2 (.inl (stops_bind.2 (.inl hatom)))))
    · exact halts_readWith (fun _ _ => delivers_read n) hlast (fun _ _ _ => ih) h (by omega) hn

end Ty

/-! ## Patterns -/

namespace Pat

theorem stops_readAtomWith_end {pat : Reader Pat} {last : Token} (hlast : last.kind = .eof) :
    Stops (readAtomWith pat) [last] := by
  refine stops_next_bind.2 ⟨last, [], rfl, .inr ⟨hlast, ?_⟩⟩
  simp [hlast, stops_failAt, SyntaxError.Cause.incomplete]

/-- What stands after an opening parenthesis is not the closing one. -/
theorem Phrase.cut_starts {n : Nat} {ts : List Token} {q : List Word} {p : Pat} {last : Token}
    (h : Phrase n (ts.map Token.word ++ q) p) (hlast : last.kind = .eof) :
    ∃ t mid, ts ++ [last] = t :: mid ∧ t.kind ≠ .rparen := by
  cases ts with
  | nil => exact ⟨last, [], rfl, by simp [hlast]⟩
  | cons t us =>
    obtain ⟨x, v, hx, hstarts⟩ := h.starts
    obtain ⟨rfl, -⟩ := List.cons.inj hx
    rw [Token.kind_word] at hstarts
    exact ⟨t, _, rfl, by rintro hk; simp [hk, Expr.startsAtom] at hstarts⟩

section Readers

variable {bound : Nat} {pat : Reader Pat}
  (hpat : ∀ w p, Phrase 2 w p → w.length < bound → Delivers pat (· ≠ .cons) w p)
  {last : Token} (hlast : last.kind = .eof)
  (hcut : ∀ ts q p, Phrase 2 (ts.map Token.word ++ q) p → ts.length < bound → Halts pat ts last)

include hpat hlast hcut

theorem halts_readAtomWith {ts : List Token} {q : List Word} {p : Pat}
    (h : Phrase 1 (ts.map Token.word ++ q) p) (hts : ts.length ≤ bound) :
    Halts (readAtomWith pat) ts last := by
  rcases eq_or_ne q [] with rfl | hq
  · rw [List.append_nil] at h
    exact (delivers_readAtomWith hpat h (by simpa using hts)).halts trivial
  rcases eq_or_ne ts [] with rfl | hne
  · exact .inl (stops_readAtomWith_end hlast)
  generalize hw : ts.map Token.word ++ q = w at h
  cases h with
  | number _ | string | boolean _ | wildcard | ident =>
    exact absurd (Token.cut_single hw.symm hq) hne
  | nil =>
    obtain ⟨left, us, z, rfl, hl, hnil, -⟩ := Token.cut_between hw.symm hne hq
    obtain rfl := List.map_eq_nil_iff.1 (List.append_eq_nil_iff.1 hnil.symm).1
    rw [readAtomWith, halts_next_bind (by simp [hl])]
    simp only [hl]
    exact halts_expect_end hlast (by decide)
  | unit =>
    obtain ⟨left, us, z, rfl, hl, hnil, -⟩ := Token.cut_between hw.symm hne hq
    obtain rfl := List.map_eq_nil_iff.1 (List.append_eq_nil_iff.1 hnil.symm).1
    rw [readAtomWith, halts_next_bind (by simp [hl])]
    simp only [hl]
    have hinner : Halts pat [] last :=
      hcut [] [.ident "x"] (.ident "x") Phrase.ident.loosen hts
    exact halts_accept_end hlast (by decide)
      (hinner.bind fun _ => halts_expect_end hlast (by decide))
  | paren h =>
    obtain ⟨left, us, z, rfl, hl, rfl, -⟩ := Token.cut_between hw.symm hne hq
    rw [List.length_cons] at hts
    rw [readAtomWith, halts_next_bind (by simp [hl])]
    simp only [hl]
    obtain ⟨t, mid, hfirst, ht⟩ := h.cut_starts hlast
    rw [halts_accept_no (by decide) hfirst ht, if_neg (by decide)]
    exact (hcut us z _ h (by omega)).bind fun a => halts_expect_end hlast (by decide)
  | loosen h => exact absurd h.pos (by decide)

theorem halts_readWith {ts : List Token} {q : List Word} {p : Pat}
    (h : Phrase 2 (ts.map Token.word ++ q) p) (hts : ts.length ≤ bound) :
    Halts (readWith pat) ts last := by
  have hend (p : Pat) : Halts (do
      if ← accept .cons then let tail ← pat; return .cons p tail else return p) [] last :=
    halts_accept_end hlast (by decide) (halts_pure p)
  generalize hw : ts.map Token.word ++ q = w at h
  cases h with
  | cons hp hq =>
    obtain ⟨z, rfl, -⟩ | ⟨us, cons, vs, rfl, rfl, hcons, rfl⟩ := Token.cut_mark hw.symm
    · exact (halts_readAtomWith hpat hlast hcut hp hts).bind hend
    · simp only [List.length_append, List.length_cons] at hts
      have hhead := delivers_readAtomWith hpat hp (by simp; omega) us cons (vs ++ [last]) rfl
        trivial
      refine hhead.halts_bind ?_
      rw [halts_accept_yes (by decide) hcons, if_pos rfl, bind_pure_comp]
      exact (hcut vs q _ hq (by omega)).map
  | loosen h =>
    subst hw
    exact (halts_readAtomWith hpat hlast hcut h hts).bind hend

end Readers

/-- **A pattern that is cut short is read to the cut.** -/
theorem halts_read (bound : Nat) {last : Token} (hlast : last.kind = .eof) {ts : List Token}
    {q : List Word} {p : Pat} (h : Phrase 2 (ts.map Token.word ++ q) p) (hts : ts.length < bound) :
    Halts (read bound) ts last := by
  induction bound generalizing ts q p with
  | zero => omega
  | succ n ih =>
    exact halts_readWith (fun _ _ => delivers_read n) hlast (fun _ _ _ => ih) h (by omega)

theorem halts_readAtom (bound : Nat) {last : Token} (hlast : last.kind = .eof) {ts : List Token}
    {q : List Word} {p : Pat} (h : Phrase 1 (ts.map Token.word ++ q) p) (hts : ts.length ≤ bound) :
    Halts (readAtom bound) ts last :=
  halts_readAtomWith (fun _ _ => delivers_read bound) hlast
    (fun _ _ _ => halts_read bound hlast) h hts

end Pat

/-! ## Rows of items -/

namespace Reader

section Items

variable {α σ : Type} {item : Reader α} {place : SyntaxError.Place} {last : Token}

/-- An item that halts stops the row: the brace that closes it is missing. -/
theorem Halts.stops_items {us : List Token} {w z : List Word} {n : Nat} (h : Halts item us last)
    (hlast : last.kind = .eof) (hz : w = us.map Token.word ++ z)
    (hfirst : ∃ x v, w = x :: v ∧ x.kind ≠ .rbrace) (hn : 0 < n) :
    Stops (items item place n) (us ++ [last]) := by
  obtain ⟨n, rfl⟩ : ∃ m, n = m + 1 := Nat.exists_eq_add_of_le' hn
  refine stops_items_succ.2 ⟨?_, h.imp id fun ⟨a, ha⟩ => ⟨a, last, [], ha, .inr hlast⟩⟩
  cases us with
  | nil => exact ⟨last, [], rfl, by simp [hlast]⟩
  | cons t us =>
    obtain ⟨x, v, hx, hxk⟩ := hfirst
    obtain ⟨rfl, -⟩ := List.cons.inj (hz.symm.trans hx)
    exact ⟨t, us ++ [last], rfl, by simpa using hxk⟩

/-- A whole item and its semicolon are read, and then the row stops. -/
theorem Gives.stops_items {us rest : List Token} {semi : Token} {w : List Word} {a : α} {n : Nat}
    (h : Gives item (us ++ semi :: rest) a (semi :: rest)) (hus : us.map Token.word = w)
    (hfirst : ∃ x v, w = x :: v ∧ x.kind ≠ .rbrace) (hsemi : semi.kind = .semicolon)
    (hrest : Stops (items item place n) rest) :
    Stops (items item place (n + 1)) (us ++ semi :: rest) := by
  refine stops_items_succ.2 ⟨?_, .inr ⟨a, semi, rest, h, .inl ⟨hsemi, hrest⟩⟩⟩
  obtain ⟨t, us, rfl, ht⟩ := Token.exists_first (· ≠ .rbrace) hus hfirst
  exact ⟨t, _, rfl, ht⟩

/-- **A row of items that is cut stops**, unless the item that is cut does not halt. -/
theorem stops_items_cut {words : σ → List Word} {ss : List σ} {ts : List Token}
    {q w : List Word} {n : Nat} {C : Prop} (hw : Separated (ss.map words) w)
    (hcut : w = ts.map Token.word ++ q) (hlast : last.kind = .eof) (tree : σ → α)
    (hfirst : ∀ s ∈ ss, ∃ x v, words s = x :: v ∧ x.kind ≠ .rbrace)
    (hwhole : ∀ s ∈ ss, ∀ us t rest, us.map Token.word = words s → us.length < ts.length →
      t.kind = .semicolon → Gives item (us ++ t :: rest) (tree s) (t :: rest))
    (hend : Halts item [] last) (hn : ts.length < n)
    (hitem : ∀ (before : List σ) (s : σ) (us vs : List Token) (z post : List Word),
      ts = us ++ vs → us.map Token.word = terminated (before.map words) →
      words s = vs.map Token.word ++ z → q = z ++ post → (∀ d ∈ before, d ∈ ss) → s ∈ ss →
      Halts item vs last ∨ C) :
    Stops (items item place n) (ts ++ [last]) ∨ C := by
  generalize hws : ss.map words = ws at hw
  induction hw generalizing ss ts n with
  | last w =>
    obtain ⟨s, rfl, rfl⟩ := List.map_eq_singleton_iff.1 hws
    have hs := hitem [] s [] ts q [] rfl rfl hcut (by simp) (by simp) (by simp)
    exact hs.imp_left fun h => h.stops_items hlast hcut (hfirst s (by simp)) (by omega)
  | closed w =>
    obtain ⟨s, rfl, rfl⟩ := List.map_eq_singleton_iff.1 hws
    obtain ⟨z, hz, hq⟩ | ⟨us, semi, vs, rfl, hus, hsemi, hnil⟩ := Token.cut_mark hcut
    · have hs := hitem [] s [] ts z _ rfl rfl hz hq (by simp) (by simp)
      exact hs.imp_left fun h => h.stops_items hlast hz (hfirst s (by simp)) (by omega)
    · obtain rfl := List.map_eq_nil_iff.1 (List.append_eq_nil_iff.1 hnil.symm).1
      rw [List.length_append, List.length_cons] at hn
      obtain ⟨n, rfl⟩ : ∃ m, n = m + 1 := Nat.exists_eq_add_of_le' (by omega)
      have hread := hwhole s (by simp) us semi [last] hus (by simp) hsemi
      have hnone : Stops (items item place n) [last] :=
        hend.stops_items hlast (z := words s) rfl (hfirst s (by simp)) (by omega)
      rw [List.append_assoc]
      exact .inl (hread.stops_items hus (hfirst s (by simp)) hsemi hnone)
  | @cons v ws w h ih =>
    obtain ⟨s, ss', rfl, rfl, hss⟩ := List.map_eq_cons_iff.1 hws
    obtain ⟨z, hz, hq⟩ | ⟨us, semi, vs, rfl, hus, hsemi, hrest⟩ := Token.cut_mark hcut
    · have hs := hitem [] s [] ts z _ rfl rfl hz hq (by simp) (by simp)
      exact hs.imp_left fun h => h.stops_items hlast hz (hfirst s (by simp)) (by omega)
    · rw [List.length_append, List.length_cons] at hn
      obtain ⟨n, rfl⟩ : ∃ m, n = m + 1 := Nat.exists_eq_add_of_le' (by omega)
      have hread := hwhole s (by simp) us semi (vs ++ [last]) hus (by simp) hsemi
      refine (ih hrest (fun s hs => hfirst s (by simp [hs])) (fun s hs us' t rest hus' hlen =>
        hwhole s (by simp [hs]) us' t rest hus' (by simp; omega)) (n := n) (by omega) ?_
        hss).imp_left fun h => ?_
      · rintro before s' us' vs' z post rfl hus' hz hq hbefore hs'
        refine hitem (s :: before) s' (us ++ semi :: us') vs' z post (by simp) ?_ hz hq
          (by simpa using fun d hd => .inr (hbefore d hd)) (by simp [hs'])
        simp [hus, hus', terminated, Token.word_of_kind hsemi]
      · rw [List.append_assoc]
        exact hread.stops_items hus (hfirst s (by simp)) hsemi h

end Items

end Reader

end LetPoly
