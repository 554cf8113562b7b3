import LetPoly.Proofs.Reading

/-! # Readers that make progress

The rows of tokens that a source gives end with their only end token (`Reader.Closed`).  A
reader **settles** such a row if it leaves a closed row of its last tokens, or fails because of
a token of the row: it neither runs past the end nor reaches its bound.

That a bound is not what decides is a statement about two readers which differ in their bounds
only, namely that they settle the row alike (`Reader.Settles`).  As for what a reader gives,
this is read off its parts.  The two loops end because each turn takes a token, so any bound
that is no less than the number of tokens does.
-/

namespace LetPoly

/-- The error is about the reader itself and not about a token: the reader ran past the end, or
reached its bound. -/
def SyntaxError.Internal (e : SyntaxError) : Prop := e.cause = .pastEnd ∨ e.cause = .tooDeep

instance (e : SyntaxError) : Decidable e.Internal :=
  inferInstanceAs (Decidable (e.cause = .pastEnd ∨ e.cause = .tooDeep))

namespace Reader

variable {α β : Type}

/-! ## Closed rows -/

/-- **The row ends with its only end token.** -/
def Closed (ts : List Token) : Prop :=
  ∃ us t, ts = us ++ [t] ∧ t.kind = .eof ∧ ∀ u ∈ us, u.kind ≠ .eof

theorem closed_cons {t : Token} {ts : List Token} :
    Closed (t :: ts) ↔ t.kind = .eof ∧ ts = [] ∨ t.kind ≠ .eof ∧ Closed ts := by
  constructor
  · rintro ⟨us, last, h, hlast, hus⟩
    cases us with
    | nil =>
      obtain ⟨rfl, rfl⟩ := List.cons_eq_cons.1 h
      exact .inl ⟨hlast, rfl⟩
    | cons u us =>
      obtain ⟨rfl, rfl⟩ := List.cons_eq_cons.1 h
      exact .inr ⟨hus t (by simp), us, last, rfl, hlast, fun v hv => hus v (by simp [hv])⟩
  · rintro (⟨ht, rfl⟩ | ⟨ht, us, last, rfl, hlast, hus⟩)
    · exact ⟨[], t, rfl, ht, by simp⟩
    · exact ⟨t :: us, last, rfl, hlast, List.forall_mem_cons.2 ⟨ht, hus⟩⟩

theorem Closed.ne_nil {ts : List Token} (h : Closed ts) : ts ≠ [] := by
  rintro rfl
  obtain ⟨us, t, h, -⟩ := h
  simp at h

theorem Closed.exists_cons {ts : List Token} (h : Closed ts) : ∃ t us, ts = t :: us :=
  List.exists_cons_of_ne_nil h.ne_nil

theorem Closed.length_pos {ts : List Token} (h : Closed ts) : 0 < ts.length :=
  List.length_pos_iff.2 h.ne_nil

/-- After a token other than the end, the row goes on to its end. -/
theorem Closed.tail {t : Token} {ts : List Token} (h : Closed (t :: ts)) (ht : t.kind ≠ .eof) :
    Closed ts := by
  rcases closed_cons.1 h with ⟨heof, -⟩ | ⟨-, hts⟩
  · exact absurd heof ht
  · exact hts

theorem Closed.drop {ts : List Token} (h : Closed ts) {pos : Nat} (hpos : pos < ts.length) :
    Closed (ts.drop pos) := by
  obtain ⟨us, t, rfl, ht, hus⟩ := h
  rw [List.length_append, List.length_singleton] at hpos
  rw [List.drop_append_of_le_length (by omega)]
  exact ⟨us.drop pos, t, rfl, ht, fun u hu => hus u (List.mem_of_mem_drop hu)⟩

/-! ## Two readers of a row -/

/-- **The two readers settle the row alike.**  What they leave is the end of the row, and they do
not fail because of themselves; `Q` holds of what they give and what they leave. -/
structure Settles (r r' : Reader α) (ts : List Token) (Q : α → List Token → Prop) : Prop where
  same : r ts = r' ts
  leaves : ∀ a rest, Gives r ts a rest → Closed rest ∧ rest <:+ ts ∧ Q a rest
  fails : ∀ e, r ts = .error e → ¬e.Internal

section
variable {r r' : Reader α} {s s' : Reader β} {ts us : List Token} {Q : α → List Token → Prop}
  {R : β → List Token → Prop}

theorem Settles.imp {Q' : α → List Token → Prop} (h : Settles r r' ts Q)
    (himp : ∀ a rest, rest <:+ ts → Q a rest → Q' a rest) : Settles r r' ts Q' where
  same := h.same
  leaves a rest ha := by
    obtain ⟨hclosed, hsuffix, hQ⟩ := h.leaves a rest ha
    exact ⟨hclosed, hsuffix, himp a rest hsuffix hQ⟩
  fails := h.fails

theorem settles_pure (hts : Closed ts) {a : α} (h : Q a ts) :
    Settles (pure a) (pure a) ts Q where
  same := rfl
  leaves b rest hb := by
    obtain ⟨rfl, rfl⟩ := gives_pure.1 hb
    exact ⟨hts, List.suffix_refl _, h⟩
  fails e he := by cases he

theorem settles_failAt {t : Token} {c : SyntaxError.Cause}
    (h : ¬SyntaxError.Internal ⟨t.pos, c⟩) : Settles (failAt t c) (failAt t c) ts Q where
  same := rfl
  leaves a rest ha := absurd ha not_gives_failAt
  fails e he := by
    cases he
    exact h

/-- A reader that goes on as another one from a later place. -/
theorem Settles.step (h : Settles s s' us R) {u u' : Reader β} (hu : u ts = s us)
    (hu' : u' ts = s' us) (hsuffix : us <:+ ts) : Settles u u' ts R where
  same := hu.trans (h.same.trans hu'.symm)
  leaves b rest hb := by
    obtain ⟨hclosed, hrest, hR⟩ := h.leaves b rest (hu.symm.trans hb)
    exact ⟨hclosed, hrest.trans hsuffix, hR⟩
  fails e he := h.fails e (hu.symm.trans he)

theorem Settles.bind {f f' : α → Reader β} (h : Settles r r' ts Q)
    (hf : ∀ a rest, Closed rest → rest <:+ ts → Q a rest → Settles (f a) (f' a) rest R) :
    Settles (r >>= f) (r' >>= f') ts R := by
  have hrun (r : Reader α) (f : α → Reader β) : (r >>= f) ts = r ts >>= fun x => f x.1 x.2 := rfl
  cases hr : r ts with
  | error e =>
    have hleft : (r >>= f) ts = .error e := by rw [hrun, hr]; rfl
    have hright : (r' >>= f') ts = .error e := by rw [hrun, ← h.same, hr]; rfl
    refine ⟨hleft.trans hright.symm, fun b rest hb => ?_, fun e' he' => ?_⟩
    · rw [Gives, hleft] at hb
      cases hb
    · obtain rfl := Except.error.inj (hleft.symm.trans he')
      exact h.fails e hr
  | ok x =>
    obtain ⟨a, rest⟩ := x
    obtain ⟨hclosed, hsuffix, hQ⟩ := h.leaves a rest hr
    refine (hf a rest hclosed hsuffix hQ).step ?_ ?_ hsuffix
    · rw [hrun, hr]; rfl
    · rw [hrun, ← h.same, hr]; rfl

theorem Settles.map {f : α → β} (h : Settles r r' ts Q)
    (hR : ∀ a rest, Q a rest → R (f a) rest) : Settles (f <$> r) (f <$> r') ts R := by
  rw [map_eq_pure_bind, map_eq_pure_bind]
  exact h.bind fun a rest hrest _ hQ => settles_pure hrest (hR a rest hQ)

/-! ## Single tokens -/

theorem settles_peek {f f' : Token → Reader β} (hts : Closed ts)
    (h : ∀ t us, ts = t :: us → Settles (f t) (f' t) ts R) :
    Settles (peek >>= f) (peek >>= f') ts R := by
  obtain ⟨t, us, rfl⟩ := hts.exists_cons
  exact (h t us rfl).step rfl rfl (List.suffix_refl _)

theorem settles_peekSecond {f f' : Token → Reader β} (hts : Closed ts)
    (h : ∀ t us, ts = t :: us → Settles (f ((us.head?).getD t)) (f' ((us.head?).getD t)) ts R) :
    Settles (peekSecond >>= f) (peekSecond >>= f') ts R := by
  obtain ⟨t, us, rfl⟩ := hts.exists_cons
  cases us <;> exact (h t _ rfl).step rfl rfl (List.suffix_refl _)

/-- The next token is taken, unless it is the end. -/
theorem settles_next {f f' : Token → Reader β} (hts : Closed ts)
    (h : ∀ t us, ts = t :: us → t.kind ≠ .eof → us.length < ts.length → Closed us →
      Settles (f t) (f' t) us R)
    (hend : ∀ t, ts = [t] → t.kind = .eof → Settles (f t) (f' t) ts R) :
    Settles (next >>= f) (next >>= f') ts R := by
  obtain ⟨t, us, rfl⟩ := hts.exists_cons
  rcases closed_cons.1 hts with ⟨ht, rfl⟩ | ⟨ht, hus⟩
  · have hnext (f : Token → Reader β) : (next >>= f) [t] = f t [t] := by
      have : next [t] = .ok (t, [t]) := by simp [next, ht]
      exact Gives.bind_eq this
    exact (hend t rfl ht).step (hnext f) (hnext f') (List.suffix_refl _)
  · have hnext (f : Token → Reader β) : (next >>= f) (t :: us) = f t us :=
      Gives.bind_eq ((gives_next ht).2 ⟨rfl, rfl⟩)
    exact (h t us rfl ht (by simp) hus).step (hnext f) (hnext f') (List.suffix_cons t us)

/-- The token that is next, where it does not matter whether it is the end. -/
theorem next_settles (hts : Closed ts) : Settles next next ts (Gives next ts) := by
  rw [← bind_pure next]
  exact settles_next hts
    (fun t us hus ht _ hclosed => settles_pure hclosed (hus ▸ (gives_next ht).2 ⟨rfl, rfl⟩))
    fun t hend ht => settles_pure hts (by simp [Gives, next, hend, ht])

theorem settles_accept? {k : Token.Kind} (hk : k ≠ .eof) {f f' : Option Token → Reader β}
    (hts : Closed ts)
    (hsome : ∀ t us, ts = t :: us → t.kind = k → us.length < ts.length → Closed us →
      Settles (f (some t)) (f' (some t)) us R)
    (hnone : Settles (f none) (f' none) ts R) :
    Settles (accept? k >>= f) (accept? k >>= f') ts R := by
  obtain ⟨t, us, rfl⟩ := hts.exists_cons
  by_cases ht : t.kind = k
  · have haccept (f : Option Token → Reader β) : (accept? k >>= f) (t :: us) = f (some t) us :=
      Gives.bind_eq ((gives_accept? hk).2 (.inl ⟨t, rfl, ht, rfl⟩))
    exact (hsome t us rfl ht (by simp) (hts.tail (ht ▸ hk))).step (haccept f) (haccept f')
      (List.suffix_cons t us)
  · have haccept (f : Option Token → Reader β) :
        (accept? k >>= f) (t :: us) = f none (t :: us) :=
      Gives.bind_eq ((gives_accept? hk).2 (.inr ⟨rfl, rfl, t, us, rfl, ht⟩))
    exact hnone.step (haccept f) (haccept f') (List.suffix_refl _)

theorem settles_accept {k : Token.Kind} (hk : k ≠ .eof) {f f' : Bool → Reader β}
    (hts : Closed ts)
    (htrue : ∀ t us, ts = t :: us → t.kind = k → us.length < ts.length → Closed us →
      Settles (f true) (f' true) us R)
    (hfalse : Settles (f false) (f' false) ts R) :
    Settles (accept k >>= f) (accept k >>= f') ts R := by
  have haccept (f : Bool → Reader β) : (accept k >>= f) = accept? k >>= fun o => f o.isSome := by
    rw [accept, bind_assoc]
    rfl
  rw [haccept, haccept]
  exact settles_accept? hk hts htrue hfalse

theorem settles_expect {k : Token.Kind} (hk : k ≠ .eof) {place : SyntaxError.Place}
    {f f' : Token → Reader β} (hts : Closed ts)
    (h : ∀ t us, ts = t :: us → t.kind = k → us.length < ts.length → Closed us →
      Settles (f t) (f' t) us R) :
    Settles (expect k place >>= f) (expect k place >>= f') ts R := by
  obtain ⟨t, us, rfl⟩ := hts.exists_cons
  by_cases ht : t.kind = k
  · have hexpect (f : Token → Reader β) : (expect k place >>= f) (t :: us) = f t us :=
      Gives.bind_eq ((gives_expect hk).2 ⟨ht, rfl⟩)
    exact (h t us rfl ht (by simp) (hts.tail (ht ▸ hk))).step (hexpect f) (hexpect f')
      (List.suffix_cons t us)
  · have hexpect (f : Token → Reader β) :
        (expect k place >>= f) (t :: us) = failAt t (.expected k place t) (t :: us) := by
      have hfail : expect k place (t :: us) = failAt t (.expected k place t) (t :: us) := by
        have hif : expect k place (t :: us) =
            (if t.kind = k then next else failAt t (.expected k place t)) (t :: us) := rfl
        rw [hif, if_neg ht]
      have hrun : (expect k place >>= f) (t :: us) =
          expect k place (t :: us) >>= fun x => f x.1 x.2 := rfl
      rw [hrun, hfail]
      rfl
    have hfails : Settles (failAt t (.expected k place t)) (failAt t (.expected k place t))
        (t :: us) R := settles_failAt (by simp [SyntaxError.Internal])
    exact hfails.step (hexpect f) (hexpect f') (List.suffix_refl _)

theorem settles_expectEnd (hts : Closed ts) :
    Settles expectEnd expectEnd ts fun _ _ => True :=
  settles_peek hts fun t us _ => by
    by_cases ht : t.kind = .eof
    · rw [if_pos ht]
      exact settles_pure hts trivial
    · rw [if_neg ht]
      exact settles_failAt (by simp [SyntaxError.Internal])

theorem settles_numeral (t : Token) (hts : Closed ts) :
    Settles (numeral t) (numeral t) ts fun _ rest => rest = ts := by
  unfold numeral
  split
  · exact settles_pure hts rfl
  · exact settles_failAt (by simp [SyntaxError.Internal])

/-! ## Loops -/

/-- A loop settles the row if each turn that goes on takes a token. -/
theorem settles_extend {step step' : α → Reader (Option α)} {n n' : Nat} {a : α}
    (hts : Closed ts) (hn : ts.length ≤ n) (hn' : ts.length ≤ n')
    (hstep : ∀ a us, Closed us → us <:+ ts → Settles (step a) (step' a) us
      fun o rest => o.isSome → rest.length < us.length) :
    Settles (extend step n a) (extend step' n' a) ts fun _ _ => True := by
  induction n generalizing n' ts a with
  | zero =>
    have := hts.length_pos
    omega
  | succ n ih =>
    obtain ⟨m, rfl⟩ : ∃ m, n' = m + 1 :=
      Nat.exists_eq_succ_of_ne_zero (by have := hts.length_pos; omega)
    refine (hstep a ts hts (List.suffix_refl _)).bind fun o rest hrest hsuffix hshort => ?_
    cases o with
    | none => exact settles_pure hrest trivial
    | some b =>
      have hlt := hshort rfl
      exact ih hrest (by omega) (by omega) fun a us hus hle => hstep a us hus (hle.trans hsuffix)

/-- **Items up to a brace** settle the row if each item takes a token.  The brace is the token
before what is left. -/
theorem settles_items {item item' : Reader α} (place : SyntaxError.Place) {n n' : Nat}
    (hts : Closed ts) (hn : ts.length ≤ n) (hn' : ts.length ≤ n')
    (hitem : ∀ us, Closed us → us <:+ ts → Settles item item' us
      fun _ rest => rest.length < us.length) :
    Settles (items item place n) (items item' place n') ts
      fun x rest => ∃ front, ts = front ++ x.2 :: rest := by
  induction n generalizing n' ts with
  | zero =>
    have := hts.length_pos
    omega
  | succ n ih =>
    obtain ⟨m, rfl⟩ : ∃ m, n' = m + 1 :=
      Nat.exists_eq_succ_of_ne_zero (by have := hts.length_pos; omega)
    refine settles_accept? (by decide) hts
      (fun t us hus _ _ hclosed => settles_pure hclosed ⟨[], hus⟩) ?_
    refine (hitem ts hts (List.suffix_refl _)).bind fun a mid hmid hsuffix hshort => ?_
    obtain ⟨front, hfront⟩ := hsuffix
    refine settles_accept (by decide) hmid (fun t us hus _ hlt hclosed => ?_) ?_
    · have hsuffix : us <:+ ts := ⟨front ++ [t], by simp [← hfront, hus]⟩
      have hmore := ih hclosed (by omega) (Nat.le_of_lt_succ (by omega : us.length < m + 1))
        fun vs hvs hle => hitem vs hvs (hle.trans hsuffix)
      refine hmore.bind fun x rest hrest _ hx => settles_pure hrest ?_
      obtain ⟨more, hx⟩ := hx
      exact ⟨front ++ t :: more, by simp [← hfront, hus, hx]⟩
    · refine settles_expect (by decide) hmid fun t us hus _ _ hclosed => settles_pure hclosed ?_
      exact ⟨front, by rw [← hfront, hus]⟩

end

/-- **Two readers settle alike all closed rows up to a length, and take a token.** -/
def Proceeds (n : Nat) (r r' : Reader α) : Prop :=
  ∀ ts, Closed ts → ts.length ≤ n → Settles r r' ts fun _ rest => rest.length < ts.length

theorem Proceeds.within {r r' : Reader α} {n m : Nat} {ts : List Token} (h : Proceeds n r r')
    (hts : Closed ts) (hn : ts.length ≤ n) (hm : ts.length ≤ m) :
    Settles r r' ts fun _ rest => rest.length < m :=
  (h ts hts hn).imp fun _ _ _ hlt => Nat.lt_of_lt_of_le hlt hm

/-- **A reader of nested phrases proceeds** if it does so with readers of shorter rows for what
is inside. -/
theorem proceeds_of_succ {read : Nat → Reader α}
    (hsucc : ∀ n b b', n ≤ b → n ≤ b' → Proceeds n (read b) (read b') →
      Proceeds (n + 1) (read (b + 1)) (read (b' + 1)))
    {n b b' : Nat} (hb : n ≤ b) (hb' : n ≤ b') : Proceeds n (read b) (read b') := by
  induction n generalizing b b' with
  | zero =>
    intro ts hts hle
    have := hts.length_pos
    omega
  | succ n ih =>
    obtain ⟨b, rfl⟩ := Nat.exists_eq_add_of_lt hb
    obtain ⟨b', rfl⟩ := Nat.exists_eq_add_of_lt hb'
    exact hsucc n _ _ (by omega) (by omega) (ih (by omega) (by omega))

end Reader

end LetPoly
