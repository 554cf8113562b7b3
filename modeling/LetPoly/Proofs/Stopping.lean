import LetPoly.Proofs.Lines

/-! # Readers that meet the end of the input

A reader **stops** on a row of tokens if it fails only because the row ends
(`Reader.Stops`).  As for what a reader gives, this is read off its parts: there is one
equivalence for each way of building readers.  A reader of a row stops where one of its
parts does, and a single part stops where it takes a token and the end of the input is
before it.
-/

namespace LetPoly

open Word

namespace Reader

variable {α β : Type}

/-- The reader fails on the row, and only because the row ends. -/
def Stops (r : Reader α) (ts : List Token) : Prop := ∃ e, r ts = .error e ∧ e.incomplete = true

theorem Stops.not_gives {r : Reader α} {ts rest : List Token} {a : α} (h : Stops r ts) :
    ¬Gives r ts a rest := by
  obtain ⟨e, he, -⟩ := h
  simp [Gives, he]

theorem stops_bind {r : Reader α} {f : α → Reader β} {ts : List Token} :
    Stops (r >>= f) ts ↔ Stops r ts ∨ ∃ a mid, Gives r ts a mid ∧ Stops (f a) mid := by
  have hrun : (r >>= f) ts = r ts >>= fun x => f x.1 x.2 := rfl
  unfold Stops Gives
  rw [hrun]
  rcases r ts with e | ⟨a, mid⟩ <;> simp [bind, Except.bind]

@[simp] theorem not_stops_pure {a : α} {ts : List Token} : ¬Stops (pure a : Reader α) ts := by
  rintro ⟨e, h, -⟩
  have hrun : (pure a : Reader α) ts = .ok (a, ts) := rfl
  rw [hrun] at h
  cases h

theorem stops_map {r : Reader α} {f : α → β} {ts : List Token} :
    Stops (f <$> r) ts ↔ Stops r ts := by
  rw [map_eq_pure_bind, stops_bind]
  simp only [not_stops_pure, and_false, exists_false, or_false]

theorem stops_failAt {t : Token} {c : SyntaxError.Cause} {ts : List Token} :
    Stops (failAt t c : Reader α) ts ↔ c.incomplete = true := by
  refine ⟨?_, fun h => ⟨⟨t.pos, c⟩, rfl, h⟩⟩
  rintro ⟨_, ⟨⟩, h⟩
  exact h

@[simp] theorem not_stops_tooDeep {ts : List Token} : ¬Stops (tooDeep : Reader α) ts := by
  rintro ⟨_, ⟨⟩, h⟩
  cases h

/-! ## Single tokens -/

@[simp] theorem not_stops_peek {ts : List Token} : ¬Stops peek ts := by
  rcases ts with _ | ⟨t, ts⟩ <;> rintro ⟨_, ⟨⟩, ⟨⟩⟩

@[simp] theorem not_stops_peekSecond {ts : List Token} : ¬Stops peekSecond ts := by
  rcases ts with _ | ⟨t, _ | ⟨u, ts⟩⟩ <;> rintro ⟨_, ⟨⟩, ⟨⟩⟩

@[simp] theorem not_stops_next {ts : List Token} : ¬Stops next ts := by
  rcases ts with _ | ⟨t, ts⟩ <;> rintro ⟨_, ⟨⟩, ⟨⟩⟩

/-- A reader that looks at the next token first. -/
theorem stops_peek_bind {f : Token → Reader β} {ts : List Token} :
    Stops (peek >>= f) ts ↔ ∃ t mid, ts = t :: mid ∧ Stops (f t) ts := by
  rw [stops_bind]
  simp only [not_stops_peek, gives_peek, false_or]
  constructor
  · rintro ⟨t, _, ⟨rfl, mid, rfl⟩, h⟩
    exact ⟨t, mid, rfl, h⟩
  · rintro ⟨t, mid, rfl, h⟩
    exact ⟨t, _, ⟨rfl, mid, rfl⟩, h⟩

/-- A reader that goes on as the next token tells; the end of the input is not taken. -/
theorem stops_next_bind {f : Token → Reader β} {ts : List Token} :
    Stops (next >>= f) ts ↔ ∃ t mid, ts = t :: mid ∧
      (t.kind ≠ .eof ∧ Stops (f t) mid ∨ t.kind = .eof ∧ Stops (f t) ts) := by
  rw [stops_bind]
  simp only [not_stops_next, false_or]
  cases ts with
  | nil => simp [Gives, next]
  | cons t mid => by_cases ht : t.kind = .eof <;> simp [Gives, next, ht]

theorem stops_next_then {f : Token → Reader β} {t : Token} {ts : List Token}
    (ht : t.kind ≠ .eof) : Stops (next >>= f) (t :: ts) ↔ Stops (f t) ts := by
  rw [stops_next_bind]
  simp [ht]

@[simp] theorem not_stops_accept? {k : Token.Kind} {ts : List Token} :
    ¬Stops (accept? k) ts := by
  rw [accept?, stops_peek_bind]
  rintro ⟨t, mid, rfl, h⟩
  split at h
  · rw [bind_pure_comp, stops_map] at h
    exact not_stops_next h
  · exact not_stops_pure h

/-- A reader that goes on as a token of the kind is there or not. -/
theorem stops_accept {k : Token.Kind} (hk : k ≠ .eof) {f : Bool → Reader β} {ts : List Token} :
    Stops (accept k >>= f) ts ↔
      (∃ t mid, ts = t :: mid ∧ t.kind = k ∧ Stops (f true) mid) ∨
        ∃ t mid, ts = t :: mid ∧ t.kind ≠ k ∧ Stops (f false) ts := by
  have hnever : ¬Stops (accept k) ts := by
    rw [accept, bind_pure_comp, stops_map]
    exact not_stops_accept?
  rw [stops_bind]
  simp only [hnever, false_or]
  have hgives : ∀ b mid, Gives (accept k) ts b mid ↔
      (∃ t, b = true ∧ t.kind = k ∧ ts = t :: mid) ∨
        b = false ∧ mid = ts ∧ ∃ t us, ts = t :: us ∧ t.kind ≠ k := by
    intro b mid
    rw [accept, gives_bind]
    simp only [gives_accept? hk, gives_pure]
    constructor
    · rintro ⟨_, _, ⟨t, rfl, ht, rfl⟩ | ⟨rfl, rfl, h⟩, rfl, rfl⟩
      · exact .inl ⟨t, rfl, ht, rfl⟩
      · exact .inr ⟨rfl, rfl, h⟩
    · rintro (⟨t, rfl, ht, rfl⟩ | ⟨rfl, rfl, h⟩)
      · exact ⟨some t, mid, .inl ⟨t, rfl, ht, rfl⟩, rfl, rfl⟩
      · exact ⟨none, _, .inr ⟨rfl, rfl, h⟩, rfl, rfl⟩
  simp only [hgives]
  constructor
  · rintro ⟨_, mid, ⟨t, rfl, ht, rfl⟩ | ⟨rfl, rfl, t, us, rfl, ht⟩, h⟩
    · exact .inl ⟨t, mid, rfl, ht, h⟩
    · exact .inr ⟨t, us, rfl, ht, h⟩
  · rintro (⟨t, mid, rfl, ht, h⟩ | ⟨t, us, rfl, ht, h⟩)
    · exact ⟨true, mid, .inl ⟨t, rfl, ht, rfl⟩, h⟩
    · exact ⟨false, _, .inr ⟨rfl, rfl, t, us, rfl, ht⟩, h⟩

/-- A token that must be there is missed only at the end of the input. -/
theorem stops_expect {k : Token.Kind} (hk : k ≠ .eof) {place : SyntaxError.Place}
    {ts : List Token} :
    Stops (expect k place) ts ↔ ∃ t mid, ts = t :: mid ∧ t.kind = .eof := by
  rw [expect, stops_peek_bind]
  refine exists_congr fun t => exists_congr fun mid => and_congr_right fun _ => ?_
  split
  · next ht =>
    simp only [not_stops_next, false_iff]
    exact fun h => hk (ht.symm.trans h)
  · simp [stops_failAt, SyntaxError.Cause.incomplete]

theorem stops_expect_bind {k : Token.Kind} (hk : k ≠ .eof) {place : SyntaxError.Place}
    {f : Token → Reader β} {ts : List Token} :
    Stops (expect k place >>= f) ts ↔
      ∃ t mid, ts = t :: mid ∧ (t.kind = .eof ∨ t.kind = k ∧ Stops (f t) mid) := by
  simp only [stops_bind, stops_expect hk, gives_expect hk]
  constructor
  · rintro (⟨t, mid, rfl, ht⟩ | ⟨t, mid, ⟨ht, rfl⟩, h⟩)
    · exact ⟨t, mid, rfl, .inl ht⟩
    · exact ⟨t, mid, rfl, .inr ⟨ht, h⟩⟩
  · rintro ⟨t, mid, rfl, ht | ⟨ht, h⟩⟩
    · exact .inl ⟨t, mid, rfl, ht⟩
    · exact .inr ⟨t, mid, ⟨ht, rfl⟩, h⟩

@[simp] theorem not_stops_expectEnd {ts : List Token} : ¬Stops expectEnd ts := by
  rw [expectEnd, stops_peek_bind]
  rintro ⟨t, mid, -, h⟩
  split at h
  · exact not_stops_pure h
  · simp_all [stops_failAt, SyntaxError.Cause.incomplete]

@[simp] theorem not_stops_numeral {t : Token} {ts : List Token} : ¬Stops (numeral t) ts := by
  rw [numeral]
  cases Text.Decimal.unsigned? t.literal with
  | some n => exact not_stops_pure
  | none => simp [stops_failAt, SyntaxError.Cause.incomplete]

/-- A reader that ends with a token of the kind. -/
theorem stops_closed {k : Token.Kind} (hk : k ≠ .eof) {place : SyntaxError.Place} {r : Reader α}
    {f : α → β} {ts : List Token} :
    Stops (do let a ← r; let _ ← expect k place; return f a) ts ↔
      Stops r ts ∨ ∃ a t mid, Gives r ts a (t :: mid) ∧ t.kind = .eof := by
  simp only [stops_bind, stops_expect hk, not_stops_pure, and_false, exists_false, or_false]
  refine or_congr_right ⟨?_, ?_⟩
  · rintro ⟨a, _, h, t, mid, rfl, ht⟩
    exact ⟨a, t, mid, h, ht⟩
  · rintro ⟨a, t, mid, h, ht⟩
    exact ⟨a, _, h, t, mid, rfl, ht⟩

/-- A reader of a part that may be absent, which the next token tells. -/
theorem stops_optional {p : Token.Kind → Bool} {r : Reader α} {f : α → β} {ts : List Token} :
    Stops (do if p (← peek).kind then let a ← r; return some (f a) else return none) ts ↔
      ∃ t mid, ts = t :: mid ∧ p t.kind ∧ Stops r ts := by
  rw [stops_peek_bind]
  refine exists_congr fun t => exists_congr fun mid => and_congr_right fun _ => ?_
  split
  · next hp =>
    rw [bind_pure_comp, stops_map]
    simp [hp]
  · next hp => simp [hp]

/-! ## Loops -/

theorem stops_extend_succ {step : α → Reader (Option α)} {n : Nat} {a : α} {ts : List Token} :
    Stops (extend step (n + 1) a) ts ↔ Stops (step a) ts ∨
      ∃ b mid, Gives (step a) ts (some b) mid ∧ Stops (extend step n b) mid := by
  rw [extend, stops_bind]
  refine or_congr_right ⟨?_, ?_⟩
  · rintro ⟨_ | b, mid, hb, h⟩
    · exact absurd h not_stops_pure
    · exact ⟨b, mid, hb, h⟩
  · rintro ⟨b, mid, hb, h⟩
    exact ⟨some b, mid, hb, h⟩

/-- A loop stops in one of its steps, with what the steps before it keep. -/
theorem Stops.extend_induction {step : α → Reader (Option α)} {n : Nat} {a : α}
    {ts : List Token} (motive : List Token → α → Prop)
    (hstep : ∀ {a ts b mid}, motive ts a → Gives (step a) ts (some b) mid → motive mid b)
    (h : Stops (extend step n a) ts) (ha : motive ts a) :
    ∃ b mid, motive mid b ∧ Stops (step b) mid := by
  induction n generalizing a ts with
  | zero => exact absurd h not_stops_tooDeep
  | succ n ih =>
    obtain h | ⟨b, mid, hb, h⟩ := stops_extend_succ.1 h
    · exact ⟨a, ts, ha, h⟩
    · exact ih h (hstep ha hb)

theorem stops_items_succ {item : Reader α} {place : SyntaxError.Place} {n : Nat}
    {ts : List Token} :
    Stops (items item place (n + 1)) ts ↔ (∃ t us, ts = t :: us ∧ t.kind ≠ .rbrace) ∧
      (Stops item ts ∨ ∃ a t mid, Gives item ts a (t :: mid) ∧
        (t.kind = .semicolon ∧ Stops (items item place n) mid ∨ t.kind = .eof)) := by
  rw [items, stops_bind]
  simp only [not_stops_accept?, gives_accept? (by decide : Token.Kind.rbrace ≠ .eof), false_or]
  constructor
  · rintro ⟨_, _, ⟨t, rfl, ht, rfl⟩ | ⟨rfl, rfl, hfirst⟩, h⟩
    · exact absurd h not_stops_pure
    · refine ⟨hfirst, (stops_bind.1 h).imp_right ?_⟩
      rintro ⟨a, mid, ha, h⟩
      obtain ⟨t, mid, rfl, ht, h⟩ | ⟨t, mid, rfl, ht, h⟩ := (stops_accept (by decide)).1 h
      · rw [if_pos rfl, stops_bind] at h
        exact ⟨a, t, mid, ha, .inl ⟨ht, h.resolve_right (by simp)⟩⟩
      · rw [if_neg (by decide), stops_bind, stops_expect (by decide)] at h
        obtain ⟨u, us, hu, hend⟩ := h.resolve_right (by simp)
        obtain ⟨rfl, rfl⟩ := List.cons.inj hu
        exact ⟨a, _, _, ha, .inr hend⟩
  · rintro ⟨hfirst, h⟩
    refine ⟨none, ts, .inr ⟨rfl, rfl, hfirst⟩, stops_bind.2 (h.imp_right ?_)⟩
    rintro ⟨a, t, mid, ha, h⟩
    refine ⟨a, _, ha, (stops_accept (by decide)).2 ?_⟩
    obtain ⟨ht, h⟩ | ht := h
    · exact .inl ⟨t, mid, rfl, ht, stops_bind.2 (.inl h)⟩
    · refine .inr ⟨t, mid, rfl, by simp [ht], stops_bind.2 (.inl ?_)⟩
      exact (stops_expect (by decide)).2 ⟨t, mid, rfl, ht⟩

/-! ## Whole sources -/

/-- **A source without lexical faults ends too early where its reader stops.** -/
theorem readAll_stops {r : Nat → Reader α} {source : List Char}
    (hfault : (Token.scan source).fault = none) :
    (∃ e, readAll r source = .error e ∧ e.incomplete = true) ↔
      Stops (r ((Token.scan source).tokens.length + 1)) (Token.scan source).tokens := by
  have hrun (x : Reader α) (ts : List Token) (e : SyntaxError) :
      x.run' ts = .error e ↔ x ts = .error e := by
    unfold StateT.run'
    rcases x ts with e' | ⟨a, rest⟩ <;> simp
  have hread : readAll r source = (do
      let a ← r ((Token.scan source).tokens.length + 1)
      expectEnd
      return a : Reader α).run' (Token.scan source).tokens := by
    rw [readAll]
    simp only [hfault]
  have hend : Stops (do let a ← r ((Token.scan source).tokens.length + 1); expectEnd; return a)
      (Token.scan source).tokens ↔
        Stops (r ((Token.scan source).tokens.length + 1)) (Token.scan source).tokens := by
    simp only [stops_bind, not_stops_expectEnd, not_stops_pure, and_false, exists_false, or_false]
  rw [← hend, hread]
  simp only [hrun]
  exact Iff.rfl

end Reader

end LetPoly
