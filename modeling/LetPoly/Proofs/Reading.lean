import LetPoly.Proofs.Phrases

/-! # What readers give

A reader **gives** a value from a row of tokens and leaves a rest (`Reader.Gives`).
This is read off the parts of a reader: there is one equivalence for each way of
building readers, and two for the loops.

* `Reader.extend` gives what the loop gives from the next value (`gives_extend_succ`).
* `Reader.items` reads exactly the rows that semicolons separate
  (`Gives.items_sound`, `items_complete`).

With them there is one equivalence for each reader of the language that says what it
gives in terms of the readers that it uses.
-/

namespace LetPoly

open Word

/-! ## Numerals -/

theorem Text.Decimal.unsigned?_eq_some {s : String} {n : Int64} :
    unsigned? s = some n ↔ Numeral s n := by
  have hmin : Int64.minValue.toInt < 0 := by decide
  simp only [unsigned?, Option.bind_eq_bind, Option.bind_eq_some_iff, Numeral]
  constructor
  · rintro ⟨m, hm, hn⟩
    unfold fit? at hn
    split at hn
    · next h =>
      obtain rfl := Option.some.inj hn
      have hle := h.2
      rw [Int64.toInt_maxValue] at hle
      have hval : (Int64.ofInt m).toInt = m :=
        Int64.toInt_ofInt_of_le (by omega) (Int.lt_of_le_sub_one hle)
      simp [hval, hm]
    · cases hn
  · rintro ⟨hpos, hdigits⟩
    refine ⟨_, hdigits, ?_⟩
    have hle := n.toInt_le
    have hval : ((n.toInt.toNat : Nat) : Int) = n.toInt := Int.toNat_of_nonneg hpos
    unfold fit?
    rw [hval, if_pos ⟨by omega, hle⟩]
    simp

theorem Token.word_ident {t : Token} (h : t.kind = .ident) : t.word = .ident t.literal := by
  simp [Token.word, h]

theorem Token.word_int {t : Token} (h : t.kind = .int) : t.word = .int t.literal := by
  simp [Token.word, h]

theorem Token.word_string {t : Token} (h : t.kind = .string) : t.word = .string t.literal := by
  simp [Token.word, h]

/-- Tokens start with a token of a certain kind if their words do. -/
theorem Token.exists_first (P : Token.Kind → Prop) {ts : List Token} {w : List Word}
    (h : ts.map Token.word = w) (hw : ∃ x v, w = x :: v ∧ P x.kind) :
    ∃ t us, ts = t :: us ∧ P t.kind := by
  obtain ⟨x, v, rfl, hx⟩ := hw
  obtain ⟨t, us, rfl, rfl, -⟩ := List.map_eq_cons_iff.1 h
  exact ⟨t, us, rfl, by simpa using hx⟩

/-- Tokens whose words have a sign among them. -/
theorem Token.of_map_mark {ts : List Token} {v w : List Word} {k : Token.Kind}
    (h : ts.map Token.word = v ++ .mark k :: w) :
    ∃ us t vs, ts = us ++ t :: vs ∧ us.map Token.word = v ∧ t.kind = k ∧
      vs.map Token.word = w := by
  obtain ⟨us, vs, rfl, hus, hvs⟩ := List.map_eq_append_iff.1 h
  obtain ⟨t, vs, rfl, ht, hvs⟩ := List.map_eq_cons_iff.1 hvs
  exact ⟨us, t, vs, rfl, hus, Token.kind_of_word ht, hvs⟩

/-- A token by itself. -/
theorem Token.of_map_single {ts : List Token} {x : Word} (h : ts.map Token.word = [x]) :
    ∃ t, ts = [t] ∧ t.word = x ∧ t.kind = x.kind := by
  obtain ⟨t, rfl, ht⟩ := List.map_eq_singleton_iff.1 h
  exact ⟨t, rfl, ht, Token.kind_of_word ht⟩

/-- Tokens whose words stand between two signs. -/
theorem Token.of_map_between {ts : List Token} {w : List Word} {l r : Token.Kind}
    (h : ts.map Token.word = between l r w) :
    ∃ left us right, ts = left :: (us ++ [right]) ∧ left.kind = l ∧ us.map Token.word = w ∧
      right.kind = r := by
  obtain ⟨left, rest, rfl, hl, hrest⟩ := List.map_eq_cons_iff.1 h
  obtain ⟨us, right, vs, rfl, hus, hr, hvs⟩ := Token.of_map_mark hrest
  obtain rfl := List.map_eq_nil_iff.1 hvs
  exact ⟨left, us, right, rfl, Token.kind_of_word hl, hus, hr⟩

@[simp] theorem Word.length_between (l r : Token.Kind) (w : List Word) :
    (between l r w).length = w.length + 2 := by
  simp [between]

namespace Reader

variable {α β : Type}

/-- The reader takes the value from the front of the row and leaves the rest. -/
def Gives (r : Reader α) (ts : List Token) (a : α) (rest : List Token) : Prop :=
  r ts = .ok (a, rest)

theorem gives_bind {r : Reader α} {f : α → Reader β} {ts rest : List Token} {b : β} :
    Gives (r >>= f) ts b rest ↔ ∃ a mid, Gives r ts a mid ∧ Gives (f a) mid b rest := by
  show (r ts >>= fun x => f x.1 x.2) = _ ↔ _
  rcases hr : r ts with err | ⟨a, mid⟩
  · simp [Gives, hr, bind, Except.bind]
  · constructor
    · exact fun h => ⟨a, mid, hr, h⟩
    · rintro ⟨a', mid', hr', h⟩
      obtain ⟨rfl, rfl⟩ : a = a' ∧ mid = mid' := by simpa [Gives, hr] using hr'
      exact h

theorem gives_pure {a b : α} {ts rest : List Token} :
    Gives (pure a) ts b rest ↔ a = b ∧ ts = rest := by
  simp [Gives, pure, StateT.pure, Except.pure]

theorem gives_map {r : Reader α} {f : α → β} {ts rest : List Token} {b : β} :
    Gives (f <$> r) ts b rest ↔ ∃ a, Gives r ts a rest ∧ f a = b := by
  rw [map_eq_pure_bind, gives_bind]
  simp only [gives_pure]
  constructor
  · rintro ⟨a, _, ha, rfl, rfl⟩
    exact ⟨a, ha, rfl⟩
  · rintro ⟨a, ha, rfl⟩
    exact ⟨a, rest, ha, rfl, rfl⟩

@[simp] theorem not_gives_failAt {t : Token} {c : SyntaxError.Cause} {ts rest : List Token}
    {a : α} : ¬Gives (failAt t c) ts a rest := nofun

@[simp] theorem not_gives_tooDeep {ts rest : List Token} {a : α} :
    ¬Gives tooDeep ts a rest := nofun

/-! ## Single tokens -/

theorem gives_peek {ts rest : List Token} {t : Token} :
    Gives peek ts t rest ↔ rest = ts ∧ ∃ mid, ts = t :: mid := by
  cases ts <;> simp [Gives, peek, eq_comm, and_comm]

theorem gives_peekSecond {ts rest : List Token} {u : Token} :
    Gives peekSecond ts u rest ↔ rest = ts ∧ ((∃ t mid, ts = t :: u :: mid) ∨ ts = [u]) := by
  rcases ts with _ | ⟨t, _ | ⟨u', mid⟩⟩ <;> simp [Gives, peekSecond, eq_comm, and_comm]

/-- A token other than the end is taken. -/
theorem gives_next {t u : Token} {ts rest : List Token} (ht : t.kind ≠ .eof) :
    Gives next (t :: ts) u rest ↔ u = t ∧ rest = ts := by
  simp [Gives, next, ht, eq_comm]

/-- A reader that goes on as the next token tells; the end of the input is not taken. -/
theorem gives_next_bind {f : Token → Reader β} {ts rest : List Token} {b : β} :
    Gives (next >>= f) ts b rest ↔ ∃ t mid, ts = t :: mid ∧
      (t.kind ≠ .eof ∧ Gives (f t) mid b rest ∨ t.kind = .eof ∧ Gives (f t) ts b rest) := by
  rw [gives_bind]
  cases ts with
  | nil => simp [Gives, next]
  | cons t mid => by_cases ht : t.kind = .eof <;> simp [Gives, next, ht]

theorem gives_next_then {f : Token → Reader β} {t : Token} {ts rest : List Token} {b : β}
    (ht : t.kind ≠ .eof) : Gives (next >>= f) (t :: ts) b rest ↔ Gives (f t) ts b rest := by
  rw [gives_bind]
  simp [gives_next ht]

theorem gives_accept? {k : Token.Kind} (hk : k ≠ .eof) {ts rest : List Token}
    {o : Option Token} :
    Gives (accept? k) ts o rest ↔
      (∃ t, o = some t ∧ t.kind = k ∧ ts = t :: rest) ∨
        o = none ∧ rest = ts ∧ ∃ t mid, ts = t :: mid ∧ t.kind ≠ k := by
  rw [accept?, gives_bind]
  constructor
  · rintro ⟨t, mid, ht, h⟩
    obtain ⟨rfl, us, rfl⟩ := gives_peek.1 ht
    split at h
    · next hkind =>
      obtain ⟨t', mid, ht', h⟩ := gives_bind.1 h
      obtain ⟨rfl, rfl⟩ := gives_pure.1 h
      obtain ⟨rfl, rfl⟩ := (gives_next (hkind ▸ hk)).1 ht'
      exact .inl ⟨t', rfl, hkind, rfl⟩
    · next hkind =>
      obtain ⟨rfl, rfl⟩ := gives_pure.1 h
      exact .inr ⟨rfl, rfl, t, us, rfl, hkind⟩
  · rintro (⟨t, rfl, hkind, rfl⟩ | ⟨rfl, rfl, t, mid, rfl, hkind⟩)
    · refine ⟨t, _, gives_peek.2 ⟨rfl, _, rfl⟩, ?_⟩
      rw [if_pos hkind, gives_bind]
      exact ⟨t, rest, (gives_next (hkind ▸ hk)).2 ⟨rfl, rfl⟩, gives_pure.2 ⟨rfl, rfl⟩⟩
    · refine ⟨t, _, gives_peek.2 ⟨rfl, _, rfl⟩, ?_⟩
      rw [if_neg hkind]
      exact gives_pure.2 ⟨rfl, rfl⟩

/-- A reader that goes on as a token of the kind is there or not. -/
theorem gives_accept {k : Token.Kind} (hk : k ≠ .eof) {f : Bool → Reader β}
    {ts rest : List Token} {b : β} :
    Gives (accept k >>= f) ts b rest ↔
      (∃ t mid, ts = t :: mid ∧ t.kind = k ∧ Gives (f true) mid b rest) ∨
        ∃ t mid, ts = t :: mid ∧ t.kind ≠ k ∧ Gives (f false) ts b rest := by
  simp only [accept, gives_bind, gives_accept? hk, gives_pure]
  constructor
  · rintro ⟨_, _, ⟨_, _, ⟨t, rfl, ht, rfl⟩ | ⟨rfl, rfl, t, mid, rfl, ht⟩, rfl, rfl⟩, h⟩
    · exact .inl ⟨t, _, rfl, ht, h⟩
    · exact .inr ⟨t, mid, rfl, ht, h⟩
  · rintro (⟨t, mid, rfl, ht, h⟩ | ⟨t, mid, rfl, ht, h⟩)
    · exact ⟨true, mid, ⟨some t, mid, .inl ⟨t, rfl, ht, rfl⟩, rfl, rfl⟩, h⟩
    · exact ⟨false, _, ⟨none, _, .inr ⟨rfl, rfl, t, mid, rfl, ht⟩, rfl, rfl⟩, h⟩

theorem gives_expect {k : Token.Kind} (hk : k ≠ .eof) {place : SyntaxError.Place}
    {ts rest : List Token} {t : Token} :
    Gives (expect k place) ts t rest ↔ t.kind = k ∧ ts = t :: rest := by
  rw [expect, gives_bind]
  constructor
  · rintro ⟨u, mid, hu, h⟩
    obtain ⟨rfl, us, rfl⟩ := gives_peek.1 hu
    split at h
    · next hkind =>
      obtain ⟨rfl, rfl⟩ := (gives_next (hkind ▸ hk)).1 h
      exact ⟨hkind, rfl⟩
    · exact absurd h not_gives_failAt
  · rintro ⟨hkind, rfl⟩
    refine ⟨t, _, gives_peek.2 ⟨rfl, _, rfl⟩, ?_⟩
    rw [if_pos hkind]
    exact (gives_next (hkind ▸ hk)).2 ⟨rfl, rfl⟩

/-- A reader that ends with a token of the kind. -/
theorem gives_closed {k : Token.Kind} (hk : k ≠ .eof) {place : SyntaxError.Place} {r : Reader α}
    {f : α → β} {ts rest : List Token} {b : β} :
    Gives (do let a ← r; let _ ← expect k place; return f a) ts b rest ↔
      ∃ a t, Gives r ts a (t :: rest) ∧ t.kind = k ∧ f a = b := by
  simp only [gives_bind, gives_expect hk, gives_pure]
  constructor
  · rintro ⟨a, _, ha, t, _, ⟨ht, rfl⟩, rfl, rfl⟩
    exact ⟨a, t, ha, ht, rfl⟩
  · rintro ⟨a, t, ha, ht, rfl⟩
    exact ⟨a, _, ha, t, rest, ⟨ht, rfl⟩, rfl, rfl⟩

theorem gives_expectEnd {ts rest : List Token} :
    Gives expectEnd ts () rest ↔ rest = ts ∧ ∃ t mid, ts = t :: mid ∧ t.kind = .eof := by
  rw [expectEnd, gives_bind]
  constructor
  · rintro ⟨u, mid, hu, h⟩
    obtain ⟨rfl, us, rfl⟩ := gives_peek.1 hu
    split at h
    · next hkind => exact ⟨(gives_pure.1 h).2.symm, u, us, rfl, hkind⟩
    · exact absurd h not_gives_failAt
  · rintro ⟨rfl, t, mid, rfl, hkind⟩
    refine ⟨t, _, gives_peek.2 ⟨rfl, _, rfl⟩, ?_⟩
    rw [if_pos hkind]
    exact gives_pure.2 ⟨rfl, rfl⟩

theorem gives_numeral {t : Token} {ts rest : List Token} {n : Int64} :
    Gives (numeral t) ts n rest ↔ Numeral t.literal n ∧ ts = rest := by
  rw [← Text.Decimal.unsigned?_eq_some, numeral]
  cases Text.Decimal.unsigned? t.literal <;> simp [gives_pure]

/-- A reader of a part that may be absent, which the next token tells. -/
theorem gives_optional {p : Token.Kind → Bool} {r : Reader α} {f : α → β} {ts rest : List Token}
    {o : Option β} :
    Gives (do if p (← peek).kind then let a ← r; return some (f a) else return none) ts o rest ↔
      ∃ t mid, ts = t :: mid ∧ ((p t.kind ∧ ∃ a, Gives r ts a rest ∧ o = some (f a)) ∨
        p t.kind = false ∧ o = none ∧ rest = ts) := by
  simp only [gives_bind, gives_peek]
  constructor
  · rintro ⟨t, _, ⟨rfl, mid, rfl⟩, h⟩
    refine ⟨t, mid, rfl, ?_⟩
    split at h
    · next hp =>
      obtain ⟨a, _, ha, h⟩ := gives_bind.1 h
      obtain ⟨rfl, rfl⟩ := gives_pure.1 h
      exact .inl ⟨hp, a, ha, rfl⟩
    · next hp =>
      obtain ⟨rfl, rfl⟩ := gives_pure.1 h
      exact .inr ⟨by simpa using hp, rfl, rfl⟩
  · rintro ⟨t, mid, rfl, ⟨hp, a, ha, rfl⟩ | ⟨hp, rfl, rfl⟩⟩ <;>
      refine ⟨t, _, ⟨rfl, mid, rfl⟩, ?_⟩
    · rw [if_pos hp]
      exact gives_bind.2 ⟨a, rest, ha, gives_pure.2 ⟨rfl, rfl⟩⟩
    · rw [if_neg (by simp [hp])]
      exact gives_pure.2 ⟨rfl, rfl⟩

/-! ## Loops -/

theorem gives_extend_succ {step : α → Reader (Option α)} {n : Nat} {a b : α}
    {ts rest : List Token} :
    Gives (extend step (n + 1) a) ts b rest ↔
      (∃ a' mid, Gives (step a) ts (some a') mid ∧ Gives (extend step n a') mid b rest) ∨
        Gives (step a) ts none rest ∧ b = a := by
  rw [extend, gives_bind]
  constructor
  · rintro ⟨_ | a', mid, ha, h⟩
    · obtain ⟨rfl, rfl⟩ := gives_pure.1 h
      exact .inr ⟨ha, rfl⟩
    · exact .inl ⟨a', mid, ha, h⟩
  · rintro (⟨a', mid, ha, h⟩ | ⟨ha, rfl⟩)
    · exact ⟨some a', mid, ha, h⟩
    · exact ⟨none, rest, ha, gives_pure.2 ⟨rfl, rfl⟩⟩

/-- A loop keeps what each of its steps keeps. -/
theorem Gives.extend_induction {step : α → Reader (Option α)} {n : Nat} {a b : α}
    {ts rest : List Token} (motive : List Token → α → Prop)
    (hstep : ∀ {a ts a' mid}, motive ts a → Gives (step a) ts (some a') mid → motive mid a')
    (hstop : ∀ {a ts mid}, Gives (step a) ts none mid → mid = ts)
    (h : Gives (extend step n a) ts b rest) (ha : motive ts a) : motive rest b := by
  induction n generalizing a ts with
  | zero => exact absurd h not_gives_tooDeep
  | succ n ih =>
    obtain ⟨a', mid, ha', h⟩ | ⟨hnone, rfl⟩ := gives_extend_succ.1 h
    · exact ih h (hstep ha ha')
    · exact hstop hnone ▸ ha

theorem gives_items_succ {item : Reader α} {place : SyntaxError.Place} {n : Nat} {as : List α}
    {brace : Token} {ts rest : List Token} :
    Gives (items item place (n + 1)) ts (as, brace) rest ↔
      (as = [] ∧ brace.kind = .rbrace ∧ ts = brace :: rest) ∨
        (∃ t us, ts = t :: us ∧ t.kind ≠ .rbrace) ∧ ∃ a mid, Gives item ts a mid ∧
          ((∃ t mid' as', mid = t :: mid' ∧ t.kind = .semicolon ∧ as = a :: as' ∧
              Gives (items item place n) mid' (as', brace) rest) ∨
            as = [a] ∧ brace.kind = .rbrace ∧ mid = brace :: rest) := by
  rw [items, gives_bind]
  constructor
  · rintro ⟨_ | brace', mid, ho, h⟩
    · obtain ⟨_, ⟨⟩, _⟩ | ⟨-, rfl, t, us, rfl, ht⟩ := (gives_accept? (by decide)).1 ho
      refine .inr ⟨⟨t, us, rfl, ht⟩, ?_⟩
      obtain ⟨a, mid, ha, h⟩ := gives_bind.1 h
      refine ⟨a, mid, ha, ?_⟩
      obtain ⟨s, mid', rfl, hs, h⟩ | ⟨s, mid', rfl, hs, h⟩ := (gives_accept (by decide)).1 h
      · obtain ⟨⟨as', brace'⟩, mid'', hmore, h⟩ := gives_bind.1 h
        obtain ⟨⟨⟩, rfl⟩ := gives_pure.1 h
        exact .inl ⟨s, mid', as', rfl, hs, rfl, hmore⟩
      · obtain ⟨brace', mid'', hb, h⟩ := gives_bind.1 h
        obtain ⟨⟨⟩, rfl⟩ := gives_pure.1 h
        exact .inr ⟨rfl, (gives_expect (by decide)).1 hb⟩
    · obtain ⟨⟨⟩, rfl⟩ := gives_pure.1 h
      obtain ⟨_, ⟨⟩, hb, rfl⟩ | ⟨⟨⟩, _⟩ := (gives_accept? (by decide)).1 ho
      exact .inl ⟨rfl, hb, rfl⟩
  · rintro (⟨rfl, hb, rfl⟩ | ⟨⟨t, us, rfl, ht⟩, a, mid, ha, h⟩)
    · exact ⟨some brace, rest, (gives_accept? (by decide)).2 (.inl ⟨brace, rfl, hb, rfl⟩),
        gives_pure.2 ⟨rfl, rfl⟩⟩
    · refine ⟨none, _, (gives_accept? (by decide)).2 (.inr ⟨rfl, rfl, t, us, rfl, ht⟩), ?_⟩
      refine gives_bind.2 ⟨a, mid, ha, (gives_accept (by decide)).2 ?_⟩
      obtain ⟨s, mid', as', rfl, hs, rfl, hmore⟩ | ⟨rfl, hb, rfl⟩ := h
      · exact .inl ⟨s, mid', rfl, hs, gives_bind.2 ⟨_, _, hmore, gives_pure.2 ⟨rfl, rfl⟩⟩⟩
      · refine .inr ⟨brace, rest, rfl, by simp [hb], gives_bind.2 ⟨brace, rest, ?_⟩⟩
        exact ⟨(gives_expect (by decide)).2 ⟨hb, rfl⟩, gives_pure.2 ⟨rfl, rfl⟩⟩

/-! ## From words to what they give -/

/-- The reader takes exactly these words and gives the value, where a token of such a kind
follows. -/
def Delivers (r : Reader α) (F : Token.Kind → Prop) (w : List Word) (a : α) : Prop :=
  ∀ ts t rest, ts.map Token.word = w → F t.kind → Gives r (ts ++ t :: rest) a (t :: rest)

/-- After these words, the reader and then the loop go on as the loop does from the value,
with a bound that the words have lowered by their length at most. -/
def Reaches (r : Reader α) (step : α → Reader (Option α)) (bound : Nat) (F : Token.Kind → Prop)
    (w : List Word) (a : α) : Prop :=
  ∀ ts t rest, ts.map Token.word = w → F t.kind → w.length ≤ bound →
    ∃ n, bound + 1 ≤ n + w.length ∧
      (do let a ← r; extend step bound a) (ts ++ t :: rest) = extend step n a (t :: rest)

section Chains

variable {r : Reader α} {step : α → Reader (Option α)} {bound : Nat} {F : Token.Kind → Prop}
  {v w : List Word} {a b : α}

theorem Gives.bind_eq {f : α → Reader β} {ts mid : List Token} (h : Gives r ts a mid) :
    (r >>= f) ts = f a mid := by
  have hrun : (r >>= f) ts = r ts >>= fun x => f x.1 x.2 := rfl
  rw [hrun, show r ts = .ok (a, mid) from h]
  rfl

theorem Delivers.reaches (h : Delivers r F w a) (hw : w ≠ []) : Reaches r step bound F w a := by
  intro ts t rest hts ht _
  have := List.length_pos_iff.2 hw
  exact ⟨bound, by omega, (h ts t rest hts ht).bind_eq⟩

/-- One turn of the loop. -/
theorem Reaches.turn (h : Reaches r step bound F v a) (hstep : Delivers (step a) F w (some b))
    (hw : ∃ x u, w = x :: u ∧ F x.kind) : Reaches r step bound F (v ++ w) b := by
  intro ts t rest hts ht hbound
  obtain ⟨vs, ws, rfl, hvs, hws⟩ := List.map_eq_append_iff.1 hts
  obtain ⟨u, us, rfl, hu⟩ := Token.exists_first F hws hw
  simp only [← hws, List.length_append, List.length_map, List.length_cons] at hbound ⊢
  obtain ⟨n, hn, heq⟩ := h vs u (us ++ t :: rest) hvs hu (by omega)
  obtain ⟨n, rfl⟩ : ∃ m, n = m + 1 := Nat.exists_eq_add_of_le' (by omega)
  refine ⟨n, by omega, ?_⟩
  rw [List.append_assoc, List.cons_append, heq, extend]
  exact (hstep (u :: us) t rest hws ht).bind_eq

/-- The loop ends where it has no next turn. -/
theorem Reaches.delivers (h : Reaches r step bound F w a) (hw : w.length ≤ bound)
    {G : Token.Kind → Prop} (hG : ∀ k, G k → F k)
    (hstop : ∀ t rest, G t.kind → Gives (step a) (t :: rest) none (t :: rest)) :
    Delivers (do let a ← r; extend step bound a) G w a := by
  intro ts t rest hts ht
  obtain ⟨n, hn, heq⟩ := h ts t rest hts (hG _ ht) hw
  obtain ⟨n, rfl⟩ : ∃ m, n = m + 1 := Nat.exists_eq_add_of_le' (by omega)
  rw [Gives, heq]
  exact gives_extend_succ.2 (.inr ⟨hstop t rest ht, rfl⟩)

end Chains

section Items

variable {σ : Type} {item : Reader α} {place : SyntaxError.Place} {n : Nat} {brace : Token}
  {ts rest : List Token}

/-- The items that are read stand there, separated by semicolons. -/
theorem Gives.items_sound (words : σ → List Word) (tree : σ → α) (P : σ → Prop) {as : List α}
    (hitem : ∀ {ts a rest}, Gives item ts a rest →
      ∃ used s, ts = used ++ rest ∧ used.map Token.word = words s ∧ tree s = a ∧ P s)
    (h : Gives (items item place n) ts (as, brace) rest) :
    brace.kind = .rbrace ∧ ∃ used, ∃ ss : List σ, ts = used ++ brace :: rest ∧ ss.map tree = as ∧
      (∀ s ∈ ss, P s) ∧ (ss ≠ [] → Separated (ss.map words) (used.map Token.word)) ∧
        (ss = [] → used = []) := by
  induction n generalizing ts as with
  | zero => exact absurd h not_gives_tooDeep
  | succ n ih =>
    obtain ⟨rfl, hb, rfl⟩ | ⟨-, a, mid, ha, h⟩ := gives_items_succ.1 h
    · exact ⟨hb, [], [], by simp⟩
    · obtain ⟨used, s, rfl, hused, rfl, hs⟩ := hitem ha
      obtain ⟨t, mid', as', rfl, ht, rfl, hmore⟩ | ⟨rfl, hb, rfl⟩ := h
      · obtain ⟨hb, used', ss, rfl, rfl, hss, hsep, hnil⟩ := ih hmore
        refine ⟨hb, used ++ t :: used', s :: ss, by simp, rfl, by simpa [hs] using hss,
          fun _ => ?_, nofun⟩
        have hsemi : t.word = .mark .semicolon := Token.word_of_kind ht (by decide)
        cases ss with
        | nil =>
          obtain rfl := hnil rfl
          simpa [hused, hsemi] using Separated.closed (words s)
        | cons s' ss => simpa [hused, hsemi] using Separated.cons (words s) (hsep (by simp))
      · refine ⟨hb, used, [s], rfl, rfl, by simpa, fun _ => ?_, nofun⟩
        simpa [hused] using Separated.last (words s)

/-- Items that stand there, separated by semicolons, are read. -/
theorem items_complete {words : σ → List Word} {tree : σ → α} {ss : List σ} {w : List Word}
    (hw : Separated (ss.map words) w)
    (hne : ∀ s ∈ ss, ∃ x v, words s = x :: v ∧ x.kind ≠ .rbrace)
    (hitem : ∀ s ∈ ss, ∀ us t rest, us.map Token.word = words s →
      t.kind = .semicolon ∨ t.kind = .rbrace → Gives item (us ++ t :: rest) (tree s) (t :: rest))
    (hts : ts.map Token.word = w) (hn : w.length ≤ n) (hb : brace.kind = .rbrace) :
    Gives (items item place n) (ts ++ brace :: rest) (ss.map tree, brace) rest := by
  generalize hws : ss.map words = ws at hw
  induction hw generalizing ss ts n with
  | last w =>
    obtain ⟨s, rfl, rfl⟩ := List.map_eq_singleton_iff.1 hws
    obtain ⟨t, us, rfl, ht⟩ := Token.exists_first (· ≠ .rbrace) hts (hne s (by simp))
    simp only [← hts, List.length_map, List.length_cons] at hn
    obtain ⟨n, rfl⟩ : ∃ m, n = m + 1 := Nat.exists_eq_add_of_le' (by omega)
    have hread := hitem s (by simp) _ brace rest hts (.inr hb)
    exact gives_items_succ.2 (.inr ⟨⟨t, _, rfl, ht⟩, _, _, hread, .inr ⟨rfl, hb, rfl⟩⟩)
  | closed w =>
    obtain ⟨s, rfl, rfl⟩ := List.map_eq_singleton_iff.1 hws
    obtain ⟨us, vs, rfl, hus, hvs⟩ := List.map_eq_append_iff.1 hts
    obtain ⟨semi, rfl, hsemi⟩ := List.map_eq_singleton_iff.1 hvs
    obtain ⟨t, us, rfl, ht⟩ := Token.exists_first (· ≠ .rbrace) hus (hne s (by simp))
    simp only [← hus, List.length_append, List.length_map, List.length_cons] at hn
    obtain ⟨n, rfl⟩ : ∃ m, n = m + 2 := Nat.exists_eq_add_of_le' (by omega)
    have hkind : semi.kind = .semicolon := Token.kind_of_word hsemi
    have hread := hitem s (by simp) _ semi (brace :: rest) hus (.inl hkind)
    have hend : Gives (items item place (n + 1)) (brace :: rest) ([], brace) rest :=
      gives_items_succ.2 (.inl ⟨rfl, hb, rfl⟩)
    rw [List.append_assoc]
    exact gives_items_succ.2
      (.inr ⟨⟨t, _, rfl, ht⟩, _, _, hread, .inl ⟨semi, _, [], rfl, hkind, rfl, hend⟩⟩)
  | cons v h ih =>
    obtain ⟨s, ss, rfl, rfl, hss⟩ := List.map_eq_cons_iff.1 hws
    obtain ⟨us, vs, rfl, hus, hvs⟩ := List.map_eq_append_iff.1 hts
    obtain ⟨semi, vs, rfl, hsemi, hvs⟩ := List.map_eq_cons_iff.1 hvs
    obtain ⟨t, us, rfl, ht⟩ := Token.exists_first (· ≠ .rbrace) hus (hne s (by simp))
    simp only [← hus, List.length_append, List.length_map, List.length_cons] at hn
    obtain ⟨n, rfl⟩ : ∃ m, n = m + 1 := Nat.exists_eq_add_of_le' (by omega)
    have hkind : semi.kind = .semicolon := Token.kind_of_word hsemi
    have hread := hitem s (by simp) _ semi (vs ++ brace :: rest) hus (.inl hkind)
    have hmore := ih (fun s hs => hne s (by simp [hs])) (fun s hs => hitem s (by simp [hs])) hvs
      (n := n) (by omega) hss
    rw [List.append_assoc]
    exact gives_items_succ.2
      (.inr ⟨⟨t, _, rfl, ht⟩, _, _, hread, .inl ⟨semi, _, _, rfl, hkind, rfl, hmore⟩⟩)

end Items

end Reader

end LetPoly
