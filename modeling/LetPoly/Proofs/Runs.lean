import LetPoly.Infer.Context
import LetPoly.Proofs.Unification

/-! # Runs of inference

A computation of `Infer` takes a state to a result and another state.  Who is to
blame for a failure plays no part in what follows, so a run is described by its
**outcome**, and a run that succeeds by `Gives`.  Both are read off the parts of a
computation (`outcome_bind`, `gives_bind`), so that proofs about inference never
look into the monad.

The supply of fresh variables only ever moves forward (`Steady`).  As long as its
numbers stay within its `capacity`, a supply that has counted from `b` on hands out the
numerals of `b`, `b + 1`, and so on, and these are pairwise distinct
(`natural_injective`).
-/

namespace LetPoly

/-! ## Numerals -/

theorem natural_injective {m n : Nat} (h : Text.Decimal.natural m = Text.Decimal.natural n) :
    m = n := by
  have hd : Nat.toDigits 10 m = Nat.toDigits 10 n := String.ofList_injective h
  rw [← Nat.ofDigitChars_ten_toDigits (n := m), hd, Nat.ofDigitChars_ten_toDigits]

/-- The variable is one of those numbered from `m` on, below `n`. -/
def Minted (m n : Nat) (x : String) : Prop := ∃ k, m ≤ k ∧ k < n ∧ x = Text.Decimal.natural k

theorem Minted.widen {m n m' n' : Nat} {x : String} (h : Minted m n x) (hm : m' ≤ m)
    (hn : n ≤ n') : Minted m' n' x := by
  obtain ⟨k, hmk, hkn, rfl⟩ := h
  exact ⟨k, Nat.le_trans hm hmk, Nat.lt_of_lt_of_le hkn hn, rfl⟩

/-- The variable is numbered below `m`, or has no number at all. -/
def Older (m : Nat) (x : String) : Prop := ∀ k, m ≤ k → x ≠ Text.Decimal.natural k

theorem Minted.older {l m : Nat} {x : String} (h : Minted l m x) : Older m x := by
  obtain ⟨k, -, hk, rfl⟩ := h
  intro k' hk' heq
  have := natural_injective heq
  omega

theorem Older.widen {m m' : Nat} {x : String} (h : Older m x) (hm : m ≤ m') : Older m' x :=
  fun k hk => h k (Nat.le_trans hm hk)

theorem Older.not_minted {m n : Nat} {x : String} (h : Older m x) : ¬Minted m n x := by
  rintro ⟨k, hk, -, heq⟩
  exact h k hk heq

/-- The second assignment differs from the first only on variables numbered from `m`
on. -/
def Assignment.Extends (m : Nat) (θ θ' : Assignment) : Prop := ∀ x, Older m x → θ' x = θ x

theorem Assignment.Extends.refl (m : Nat) (θ : Assignment) : θ.Extends m θ := fun _ _ => rfl

theorem Assignment.Extends.trans {m n : Nat} {θ θ' θ'' : Assignment} (h : θ.Extends m θ')
    (h' : θ'.Extends n θ'') (hmn : m ≤ n) : θ.Extends m θ'' :=
  fun x hx => (h' x (hx.widen hmn)).trans (h x hx)

namespace Supply

/-- The supply after `k` variables more. -/
def advance (s : Supply) (k : Nat) : Supply :=
  { next := s.next + Int64.ofNat k, count := s.count + k }

theorem advance_zero (s : Supply) : s.advance 0 = s := by
  have h : Int64.ofNat 0 = 0 := rfl
  simp [advance, h]

theorem advance_advance (s : Supply) (j k : Nat) :
    (s.advance j).advance k = s.advance (j + k) := by
  simp only [advance, Int64.ofNat_add, Int64.add_assoc, Nat.add_assoc]

theorem fresh_snd (s : Supply) : s.fresh.2 = s.advance 1 := rfl

theorem freshList_snd (n : Nat) (s : Supply) : (s.freshList n).2 = s.advance n := by
  induction n generalizing s with
  | zero => exact s.advance_zero.symm
  | succ n ih =>
    show (s.fresh.2.freshList n).2 = _
    rw [ih, fresh_snd, advance_advance, Nat.add_comm]

theorem length_freshList (n : Nat) (s : Supply) : (s.freshList n).1.length = n := by
  induction n generalizing s with
  | zero => rfl
  | succ n ih => exact congrArg Nat.succ (ih s.fresh.2)

/-- **How many variables can be numbered**: numbers are words, and half of the words
are not negative. -/
def capacity : Nat := Int64.size / 2

/-- The supply has counted from `b` on. -/
def From (b : Nat) (s : Supply) : Prop := s.next = Int64.ofNat (b + s.count)

theorem From.advance {b : Nat} {s : Supply} (h : s.From b) (k : Nat) : (s.advance k).From b := by
  rw [From] at h ⊢
  rw [Supply.advance, h, ← Int64.ofNat_add, Nat.add_assoc]

theorem From.fresh_fst {b : Nat} {s : Supply} (h : s.From b) (hb : b + s.count < capacity) :
    s.fresh.1 = Text.Decimal.natural (b + s.count) := by
  have hi : s.next.toInt = (b + s.count : Nat) := by
    rw [h, Int64.toInt_ofNat_of_lt hb]
  rw [fresh, Text.Decimal.word, hi, Text.Decimal.integer, if_neg (by omega), Int.natAbs_natCast]

/-- Several variables are the numerals of consecutive numbers. -/
theorem From.freshList_fst {b : Nat} {s : Supply} (h : s.From b) (n : Nat)
    (hb : b + s.count + n ≤ capacity) :
    (s.freshList n).1 = (List.range' (b + s.count) n).map Text.Decimal.natural := by
  induction n generalizing s with
  | zero => rfl
  | succ n ih =>
    have hrest := ih (s := s.fresh.2) (h.advance 1) (by
      show b + (s.count + 1) + n ≤ capacity
      omega)
    show s.fresh.1 :: (s.fresh.2.freshList n).1 = _
    rw [hrest, h.fresh_fst (by omega), List.range'_succ, List.map_cons]
    rfl

end Supply

/-! ## Outcomes -/

namespace Infer
variable {α β : Type}

/-- What a computation gives, if it succeeds, and the state after it. -/
def outcome (x : Infer α) (st : State) : Option α × State :=
  ((x.run.run st).1.toOption, (x.run.run st).2)

/-- The computation succeeds. -/
def Gives (x : Infer α) (st : State) (a : α) (st' : State) : Prop := outcome x st = (some a, st')

/-- One computation after another: a failure of the first is that of both. -/
theorem run_bind (x : Infer α) (f : α → Infer β) (st : State) :
    (x >>= f).run.run st =
      match x.run.run st with
      | (.ok a, st') => (f a).run.run st'
      | (.error c, st') => (.error c, st') := by
  show (ExceptT.bindCont f (x.run.run st).1).run (x.run.run st).2 = _
  rcases x.run.run st with ⟨r, st'⟩
  cases r <;> rfl

theorem outcome_bind (x : Infer α) (f : α → Infer β) (st : State) :
    outcome (x >>= f) st =
      match outcome x st with
      | (some a, st') => outcome (f a) st'
      | (none, st') => (none, st') := by
  simp only [outcome, run_bind]
  rcases x.run.run st with ⟨r, st'⟩
  cases r <;> rfl

@[simp] theorem outcome_pure (a : α) (st : State) : outcome (pure a : Infer α) st = (some a, st) :=
  rfl

@[simp] theorem outcome_fail (e : TypeError) (st : State) :
    outcome (fail e : Infer α) st = (none, st) := rfl

@[simp] theorem outcome_blame (c : Expr) (e : TypeError) (st : State) :
    outcome (blame c e : Infer α) st = (none, st) := rfl

@[simp] theorem outcome_freshName (st : State) :
    outcome freshName st = (some st.supply.fresh.1, { st with supply := st.supply.fresh.2 }) := rfl

@[simp] theorem outcome_freshNames (n : Nat) (st : State) :
    outcome (freshNames n) st =
      (some (st.supply.freshList n).1, { st with supply := (st.supply.freshList n).2 }) := rfl

@[simp] theorem outcome_tell (e : Event) (st : State) :
    outcome (tell e) st = (some (), { st with log := st.log ++ [e] }) := rfl

theorem run_blaming (c : Expr) (x : Infer α) (st : State) :
    (blaming c x).run.run st =
      match x.run.run st with
      | (.ok a, st') => (.ok a, st')
      | (.error d, st') => (.error { d with culprit := d.culprit <|> some c }, st') := by
  simp only [blaming, tryCatch, tryCatchThe, MonadExceptOf.tryCatch, ExceptT.tryCatch,
    ExceptT.run, ExceptT.mk, StateT.run_bind]
  rcases StateT.run x st with ⟨r, st'⟩
  cases r <;> rfl

/-- Where the blame goes does not matter. -/
@[simp] theorem outcome_blaming (c : Expr) (x : Infer α) (st : State) :
    outcome (blaming c x) st = outcome x st := by
  simp only [outcome, run_blaming]
  rcases x.run.run st with ⟨r, st'⟩
  cases r <;> rfl

theorem outcome_solve (eqs : List Equation) (st : State) :
    outcome (solve eqs) st = ((unify eqs).toOption, st) := by
  rw [solve]
  cases unify eqs <;> rfl

theorem gives_bind {x : Infer α} {f : α → Infer β} {st : State} {c : β} {st'' : State} :
    Gives (x >>= f) st c st'' ↔ ∃ a st', Gives x st a st' ∧ Gives (f a) st' c st'' := by
  rw [Gives, outcome_bind]
  constructor
  · intro h
    rcases hx : outcome x st with ⟨_ | a, st'⟩
    · rw [hx] at h
      cases h
    · rw [hx] at h
      exact ⟨a, st', hx, h⟩
  · rintro ⟨a, st', hx, hf⟩
    rw [hx]
    exact hf

@[simp] theorem gives_pure {a c : α} {st st' : State} :
    Gives (pure a : Infer α) st c st' ↔ a = c ∧ st = st' := by
  simp [Gives]

@[simp] theorem gives_fail {e : TypeError} {c : α} {st st' : State} :
    ¬Gives (fail e : Infer α) st c st' := by
  simp [Gives]

@[simp] theorem gives_blame {d : Expr} {e : TypeError} {c : α} {st st' : State} :
    ¬Gives (blame d e : Infer α) st c st' := by
  simp [Gives]

@[simp] theorem gives_blaming {d : Expr} {x : Infer α} {c : α} {st st' : State} :
    Gives (blaming d x) st c st' ↔ Gives x st c st' := by
  simp [Gives]

theorem gives_solve {eqs : List Equation} {s : Solution} {st st' : State} :
    Gives (solve eqs) st s st' ↔ unify eqs = .ok s ∧ st = st' := by
  rw [Gives, outcome_solve]
  cases unify eqs <;> simp [Except.toOption]

/-! ## The supply in a run -/

/-- The supply has counted from `b` on. -/
def State.From (b : Nat) (st : State) : Prop := st.supply.From b

/-- The number of the next variable of a supply that has counted from `b` on. -/
def State.number (b : Nat) (st : State) : Nat := b + st.supply.count

/-- A computation that only ever moves the supply forward, also where it fails. -/
def Steady (x : Infer α) : Prop :=
  ∀ st, ∃ k, (outcome x st).2.supply = st.supply.advance k

theorem steady_pure (a : α) : Steady (pure a : Infer α) :=
  fun st => ⟨0, st.supply.advance_zero.symm⟩

theorem steady_fail (e : TypeError) : Steady (fail e : Infer α) :=
  fun st => ⟨0, st.supply.advance_zero.symm⟩

theorem steady_blame (c : Expr) (e : TypeError) : Steady (blame c e : Infer α) :=
  fun st => ⟨0, st.supply.advance_zero.symm⟩

theorem steady_tell (e : Event) : Steady (tell e) :=
  fun st => ⟨0, st.supply.advance_zero.symm⟩

theorem steady_freshName : Steady freshName := fun _ => ⟨1, rfl⟩

theorem steady_freshNames (n : Nat) : Steady (freshNames n) :=
  fun st => ⟨n, st.supply.freshList_snd n⟩

theorem steady_solve (eqs : List Equation) : Steady (solve eqs) := by
  intro st
  rw [outcome_solve]
  exact ⟨0, st.supply.advance_zero.symm⟩

theorem Steady.blaming {x : Infer α} (h : Steady x) (c : Expr) : Steady (blaming c x) := by
  intro st
  rw [outcome_blaming]
  exact h st

theorem Steady.bind {x : Infer α} {f : α → Infer β} (hx : Steady x) (hf : ∀ a, Steady (f a)) :
    Steady (x >>= f) := by
  intro st
  rw [outcome_bind]
  obtain ⟨j, hj⟩ := hx st
  rcases h : outcome x st with ⟨_ | a, st'⟩
  · rw [h] at hj
    exact ⟨j, hj⟩
  · rw [h] at hj
    obtain ⟨k, hk⟩ := hf a st'
    refine ⟨j + k, hk.trans ?_⟩
    show st'.supply.advance k = _
    rw [show st'.supply = st.supply.advance j from hj, Supply.advance_advance]

theorem steady_fresh : Steady fresh := steady_freshName.bind fun _ => steady_pure _

/-- **A computation that is made of the steps of inference.**  What holds of each step, and
of one computation after another, holds of all that inference does. -/
inductive Built : {α : Type} → Infer α → Prop
  | pure {α : Type} (a : α) : Built (pure a : Infer α)
  | fail {α : Type} (e : TypeError) : Built (fail e : Infer α)
  | blame {α : Type} (c : Expr) (e : TypeError) : Built (blame c e : Infer α)
  | tell (e : Event) : Built (tell e)
  | freshName : Built freshName
  | freshNames (n : Nat) : Built (freshNames n)
  | solve (eqs : List Equation) : Built (solve eqs)
  | blaming {α : Type} (c : Expr) {x : Infer α} (h : Built x) : Built (blaming c x)
  | bind {α β : Type} {x : Infer α} {f : α → Infer β} (hx : Built x) (hf : ∀ a, Built (f a)) :
    Built (x >>= f)

theorem built_fresh : Built fresh := .bind .freshName fun _ => .pure _

theorem Built.steady {x : Infer α} (h : Built x) : Steady x := by
  induction h with
  | pure a => exact steady_pure a
  | fail e => exact steady_fail e
  | blame c e => exact steady_blame c e
  | tell e => exact steady_tell e
  | freshName => exact steady_freshName
  | freshNames n => exact steady_freshNames n
  | solve eqs => exact steady_solve eqs
  | blaming c _ ih => exact ih.blaming c
  | bind _ _ ihx ihf => exact ihx.bind ihf

theorem Steady.number_le {x : Infer α} (hx : Steady x) (b : Nat) (st : State) :
    st.number b ≤ (outcome x st).2.number b := by
  obtain ⟨k, hk⟩ := hx st
  simp only [State.number, hk, Supply.advance]
  omega

theorem Steady.from {x : Infer α} (hx : Steady x) {b : Nat} {st : State} (h : st.From b) :
    (outcome x st).2.From b := by
  obtain ⟨k, hk⟩ := hx st
  rw [State.From, hk]
  exact Supply.From.advance h k

theorem Gives.leads {x : Infer α} {st st' : State} {a : α} (h : Gives x st a st')
    (hx : Steady x) {b : Nat} (hb : st.From b) : st'.From b ∧ st.number b ≤ st'.number b := by
  have hfrom := hx.from hb
  have hle := hx.number_le b st
  rw [show outcome x st = (some a, st') from h] at hfrom hle
  exact ⟨hfrom, hle⟩

/-- The numbers of the run stay within the words, also where it fails. -/
def Fits (b : Nat) (x : Infer α) (st : State) : Prop := (outcome x st).2.number b ≤ Supply.capacity

theorem Fits.number_le {x : Infer α} {b : Nat} {st st' : State} {a : α} (h : Fits b x st)
    (hx : Gives x st a st') : st'.number b ≤ Supply.capacity := by
  rwa [Fits, show outcome x st = (some a, st') from hx] at h

theorem Fits.first {x : Infer α} {f : α → Infer β} {b : Nat} {st : State}
    (h : Fits b (x >>= f) st) (hf : ∀ a, Steady (f a)) : Fits b x st := by
  refine Nat.le_trans ?_ h
  rw [outcome_bind]
  rcases outcome x st with ⟨_ | a, st'⟩
  · exact Nat.le_refl _
  · exact (hf a).number_le b st'

theorem Fits.rest {x : Infer α} {f : α → Infer β} {b : Nat} {st st' : State} {a : α}
    (h : Fits b (x >>= f) st) (hx : Gives x st a st') : Fits b (f a) st' := by
  rwa [Fits, outcome_bind, show outcome x st = (some a, st') from hx] at h

/-- **A fresh variable is the numeral of the next number.** -/
theorem gives_freshName {b : Nat} {st st' : State} {x : String} (h : Gives freshName st x st')
    (hb : st.From b) (hfit : st'.number b ≤ Supply.capacity) :
    x = Text.Decimal.natural (st.number b) ∧ st'.number b = st.number b + 1 := by
  rw [Gives, outcome_freshName, Prod.mk.injEq, Option.some.injEq] at h
  obtain ⟨rfl, rfl⟩ := h
  have hfit' : b + (st.supply.count + 1) ≤ Supply.capacity := hfit
  exact ⟨Supply.From.fresh_fst hb (by omega), rfl⟩

theorem Gives.minted {b : Nat} {st st' : State} {x : String} (h : Gives freshName st x st')
    (hb : st.From b) (hfit : st'.number b ≤ Supply.capacity) :
    Minted (st.number b) (st'.number b) x := by
  obtain ⟨rfl, hn⟩ := gives_freshName h hb hfit
  exact ⟨_, Nat.le_refl _, by omega, rfl⟩

/-- **Several fresh variables are distinct, and numbered from the next number on.** -/
theorem gives_freshNames {b n : Nat} {st st' : State} {xs : List String}
    (h : Gives (freshNames n) st xs st') (hb : st.From b) (hfit : st'.number b ≤ Supply.capacity) :
    xs.length = n ∧ xs.Nodup ∧ ∀ x ∈ xs, Minted (st.number b) (st'.number b) x := by
  rw [Gives, outcome_freshNames, Prod.mk.injEq, Option.some.injEq] at h
  obtain ⟨rfl, rfl⟩ := h
  have hn : State.number b { st with supply := (st.supply.freshList n).2 } = st.number b + n := by
    simp only [State.number, Supply.freshList_snd, Supply.advance, Nat.add_assoc]
  rw [hn] at hfit ⊢
  refine ⟨Supply.length_freshList n _, ?_⟩
  rw [Supply.From.freshList_fst hb n hfit]
  refine ⟨List.Pairwise.map _ (fun j k hjk heq => hjk (natural_injective heq)) List.nodup_range',
    fun x hx => ?_⟩
  obtain ⟨k, hk, rfl⟩ := List.mem_map.1 hx
  obtain ⟨hk, hk'⟩ := List.mem_range'_1.1 hk
  exact ⟨k, hk, hk', rfl⟩

theorem gives_fresh {st st' : State} {t : Ty} :
    Gives fresh st t st' ↔ ∃ x, Gives freshName st x st' ∧ t = .var x := by
  rw [fresh, gives_bind]
  constructor
  · rintro ⟨x, st₁, hx, h⟩
    obtain ⟨rfl, rfl⟩ := gives_pure.1 h
    exact ⟨x, hx, rfl⟩
  · rintro ⟨x, hx, rfl⟩
    exact ⟨x, st', hx, gives_pure.2 ⟨rfl, rfl⟩⟩

end Infer

end LetPoly
