import LetPoly.Proofs.FreeVariables
import LetPoly.Proofs.Numbering

/-! # Fresh variables in a run

A run of inference takes its variables one after another: `Mints` collects what the steps of
a computation take, in order, also where the computation fails.  Each call of `generate`
makes calls for the parts of its expression (`Call.Makes`), in the environment and the state
in which they are met, and what these take is a stretch of what the whole call takes.

As long as numbers last, the variables that a run takes are pairwise distinct and occur
nowhere in the environment that it was given, and in every call the free variables of the
type and of the equations are free in the environment of that call, are free in an ascription
or were taken by that call (`Context.runs_fresh`).
-/

namespace LetPoly

namespace Supply
variable {s : Supply} {i j n : Nat}

theorem advance_inj (h : s.advance i = s.advance j) : i = j :=
  Nat.add_left_cancel (congrArg count h)

theorem Room.next_le (h : s.Room n) (hij : i ≤ j) (hj : j ≤ n) :
    (s.advance i).next ≤ (s.advance j).next := by
  rw [Int64.le_iff_toInt_le, (h.mono (Nat.le_trans hij hj)).toInt_advance,
    (h.mono hj).toInt_advance]
  omega

end Supply

namespace Infer

/-! ## What a run takes -/

/-- **The variables that a computation takes**, in order. -/
inductive Mints : {α : Type} → Infer α → State → List String → Prop
  | pure {α : Type} (a : α) (st : State) : Mints (pure a : Infer α) st []
  | fail {α : Type} (e : TypeError) (st : State) : Mints (fail e : Infer α) st []
  | blame {α : Type} (c : Expr) (e : TypeError) (st : State) : Mints (blame c e : Infer α) st []
  | tell (e : Event) (st : State) : Mints (tell e) st []
  | get (st : State) : Mints (get : Infer State) st []
  | solve (eqs : List Equation) (st : State) : Mints (solve eqs) st []
  | freshName (st : State) : Mints freshName st [st.supply.fresh.1]
  | freshNames (n : Nat) (st : State) : Mints (freshNames n) st (st.supply.freshList n).1
  | blaming {α : Type} (c : Expr) {x : Infer α} {st : State} {xs : List String}
      (h : Mints x st xs) : Mints (blaming c x) st xs
  | bind {α β : Type} {x : Infer α} {f : α → Infer β} {st st' : State} {a : α}
      {xs ys : List String} (hx : Mints x st xs) (ha : Gives x st a st')
      (hf : Mints (f a) st' ys) : Mints (x >>= f) st (xs ++ ys)
  /-- What comes after a failure takes nothing. -/
  | stop {α β : Type} {x : Infer α} {f : α → Infer β} {st : State} {xs : List String}
      (hx : Mints x st xs) (hfail : (outcome x st).1 = none) : Mints (x >>= f) st xs

variable {α β : Type} {st st' st'' : State}

/-- The supply hands out one name after another, and nothing else moves it. -/
theorem Mints.stretch {x : Infer α} {xs : List String} (h : Mints x st xs) :
    xs = (st.supply.freshList xs.length).1 ∧
      (outcome x st).2.supply = st.supply.advance xs.length := by
  induction h with
  | pure | fail | blame | tell | get => exact ⟨rfl, (Supply.advance_zero _).symm⟩
  | solve eqs st =>
    rw [outcome_solve]
    exact ⟨rfl, (Supply.advance_zero _).symm⟩
  | freshName st => exact ⟨rfl, rfl⟩
  | freshNames n st =>
    rw [Supply.length_freshList]
    exact ⟨rfl, st.supply.freshList_snd n⟩
  | blaming c _ ih => rwa [outcome_blaming]
  | bind _ ha _ ihx ihf =>
    rw [Gives] at ha
    rw [ha] at ihx
    rw [outcome_bind, ha, List.length_append, Supply.freshList_add, ← ihx.2, ← ihx.1, ← ihf.1,
      ← Supply.advance_advance, ← ihx.2]
    exact ⟨rfl, ihf.2⟩
  | @stop _ _ x f st xs _ hfail ih =>
    rw [outcome_bind]
    rcases hrun : outcome x st with ⟨_ | a, st'⟩
    · rwa [hrun] at ih
    · rw [hrun] at hfail
      cases hfail

/-- A run takes its variables in one way only. -/
theorem Mints.unique {x : Infer α} {xs ys : List String} (h : Mints x st xs)
    (h' : Mints x st ys) : xs = ys := by
  obtain ⟨hxs, hsupply⟩ := h.stretch
  obtain ⟨hys, hsupply'⟩ := h'.stretch
  rw [hxs, hys, Supply.advance_inj (hsupply.symm.trans hsupply')]

theorem exists_mints_bind {x : Infer α} {f : α → Infer β} (hx : ∀ st, ∃ xs, Mints x st xs)
    (hf : ∀ a st, ∃ xs, Mints (f a) st xs) (st : State) : ∃ xs, Mints (x >>= f) st xs := by
  obtain ⟨xs, hx⟩ := hx st
  rcases hrun : outcome x st with ⟨_ | a, st'⟩
  · exact ⟨xs, hx.stop (by rw [hrun])⟩
  · obtain ⟨ys, hf⟩ := hf a st'
    exact ⟨xs ++ ys, hx.bind hrun hf⟩

theorem Built.exists_mints {x : Infer α} (h : Built x) (st : State) : ∃ xs, Mints x st xs := by
  induction h generalizing st with
  | pure a => exact ⟨_, .pure a st⟩
  | fail e => exact ⟨_, .fail e st⟩
  | blame c e => exact ⟨_, .blame c e st⟩
  | tell e => exact ⟨_, .tell e st⟩
  | freshName => exact ⟨_, .freshName st⟩
  | freshNames n => exact ⟨_, .freshNames n st⟩
  | solve eqs => exact ⟨_, .solve eqs st⟩
  | blaming c _ ih =>
    obtain ⟨xs, h⟩ := ih st
    exact ⟨xs, h.blaming c⟩
  | bind _ _ ihx ihf => exact exists_mints_bind ihx ihf st

theorem exists_mints_infer (env : TypeEnv) (e : Expr) (st : State) :
    ∃ xs, Mints (infer env e) st xs :=
  exists_mints_bind (built_generate env e).exists_mints (fun _ => Built.exists_mints
    (.bind (.solve _) fun _ => .bind (.tell _) fun _ => .pure _)) st

theorem exists_mints_define (env : TypeEnv) (d : Definition) (st : State) :
    ∃ xs, Mints (define env d) st xs :=
  exists_mints_bind (built_bindWith env d (built_generate env d.value)).exists_mints
    (fun _ => exists_mints_bind (Built.solve _).exists_mints fun _ =>
      exists_mints_bind (fun st => ⟨_, .get st⟩) fun _ => (Built.pure _).exists_mints) st

/-! ## States of a run -/

namespace State.Before

theorem refl (st : State) : st.Before st := ⟨0, st.supply.advance_zero.symm⟩

theorem count_le (h : st.Before st') : st.supply.count ≤ st'.supply.count := by
  obtain ⟨k, hk⟩ := h
  rw [hk]
  exact Nat.le_add_right _ k

/-- Of two states after one, that with the smaller count comes first. -/
theorem of_count_le (h : st.Before st') (h' : st.Before st'')
    (hle : st'.supply.count ≤ st''.supply.count) : st'.Before st'' := by
  obtain ⟨j, hj⟩ := h
  obtain ⟨k, hk⟩ := h'
  have hjk : j ≤ k := by
    rw [hj, hk] at hle
    exact Nat.le_of_add_le_add_left hle
  exact ⟨k - j, by rw [hj, hk, Supply.advance_advance, Nat.add_sub_cancel' hjk]⟩

end State.Before

theorem steady_get : Steady (get : Infer State) := fun st => State.Before.refl st

theorem before_bind {x : Infer α} {f : α → Infer β} (hf : ∀ a, Steady (f a)) (st : State) :
    (outcome x st).2.Before (outcome (x >>= f) st).2 := by
  rw [outcome_bind]
  rcases outcome x st with ⟨_ | a, st'⟩
  · exact .refl _
  · exact hf a st'

/-! ## Calls of `generate` -/

/-- A call of `generate`: the environment, the expression and the state it starts in. -/
structure Call where
  env : TypeEnv
  expr : Expr
  state : State

namespace Call

def run (c : Call) : Infer (Ty × List Equation) := generate c.env c.expr

/-- The state in which the call ends. -/
def after (c : Call) : State := (outcome c.run c.state).2

/-- **The calls that a call makes itself**, each in the state that was reached before it.
After a statement the rest of a block is a block again. -/
inductive Makes : Call → Call → Prop
  | left {env op l r st} : Makes ⟨env, .binary op l r, st⟩ ⟨env, l, st⟩
  | right {env op l r st lt leqs st₁} (hl : Gives (generate env l) st (lt, leqs) st₁) :
      Makes ⟨env, .binary op l r, st⟩ ⟨env, r, st₁⟩
  | head {env u v st} : Makes ⟨env, .cons u v, st⟩ ⟨env, u, st⟩
  | tail {env u v st r st₁} (hu : Gives (generate env u) st r st₁) :
      Makes ⟨env, .cons u v, st⟩ ⟨env, v, st₁⟩
  | test {env c y n st} : Makes ⟨env, .cond c y n, st⟩ ⟨env, c, st⟩
  | yes {env c y n st r st₁} (hc : Gives (generate env c) st r st₁) :
      Makes ⟨env, .cond c y n, st⟩ ⟨env, y, st₁⟩
  | no {env c y n st r st₁ r' st₂} (hc : Gives (generate env c) st r st₁)
      (hy : Gives (generate env y) st₁ r' st₂) : Makes ⟨env, .cond c y n, st⟩ ⟨env, n, st₂⟩
  | body {env p a b st pt st₁} (hp : Gives (pattern p) st pt st₁) :
      Makes ⟨env, .lambda p a b, st⟩ ⟨pt.bindings.union env, b, st₁⟩
  | function {env f a st} : Makes ⟨env, .app f a, st⟩ ⟨env, f, st⟩
  | argument {env f a st r st₁} (hf : Gives (generate env f) st r st₁) :
      Makes ⟨env, .app f a, st⟩ ⟨env, a, st₁⟩
  | value {env v arms st} : Makes ⟨env, .select v arms, st⟩ ⟨env, v, st⟩
  | arm {env v before p b later st vt veqs st₁ x st₂ eqs st₃ pt st₄}
      (hv : Gives (generate env v) st (vt, veqs) st₁) (hx : Gives freshName st₁ x st₂)
      (hbefore : Gives (generateArms (.select v (before ++ (p, b) :: later)) env vt (.var x) before)
        st₂ eqs st₃) (hp : Gives (pattern p) st₃ pt st₄) :
      Makes ⟨env, .select v (before ++ (p, b) :: later), st⟩ ⟨pt.bindings.union env, b, st₄⟩
  | last {env s st} (hs : s.isDefinition = false) : Makes ⟨env, .block [s], st⟩ ⟨env, s, st⟩
  | statement {env s s' ss st} (hs : s.isDefinition = false) :
      Makes ⟨env, .block (s :: s' :: ss), st⟩ ⟨env, s, st⟩
  | next {env s s' ss st r st₁} (hs : s.isDefinition = false)
      (hr : Gives (generate env s) st r st₁) :
      Makes ⟨env, .block (s :: s' :: ss), st⟩ ⟨env, .block (s' :: ss), st₁⟩
  | defined {env k p a v s ss st} (hp : p.isList = false) :
      Makes ⟨env, .block (.define k p a v :: s :: ss), st⟩ ⟨env, v, st⟩
  | scope {env k p a v s ss st vt veqs st₁ aeqs st₂ σ st₃} (hp : p.isList = false)
      (hv : Gives (generate env v) st (vt, veqs) st₁) (ha : Gives (ascribe vt a) st₁ aeqs st₂)
      (hσ : Gives (generalize (veqs ++ aeqs ++ literal p vt) env vt) st₂ σ st₃) :
      Makes ⟨env, .block (.define k p a v :: s :: ss), st⟩ ⟨assume env p σ, .block (s :: ss), st₃⟩

variable {c c' : Call}

theorem Makes.before (h : Makes c c') : c.state.Before c'.state := by
  cases h with
  | left | head | test | function | value | last | statement | defined => exact .refl _
  | right h | tail h | yes h | argument h | next _ h => exact h.before (steady_generate _ _)
  | no hc hy => exact (hc.before (steady_generate _ _)).trans (hy.before (steady_generate _ _))
  | body hp => exact hp.before (steady_pattern _)
  | arm hv hx hbefore hp =>
    exact (hv.before (steady_generate _ _)).trans ((hx.before steady_freshName).trans
      ((hbefore.before (steady_generateArms _ _ _ _ _)).trans (hp.before (steady_pattern _))))
  | scope _ hv ha hσ =>
    exact (hv.before (steady_generate _ _)).trans
      ((ha.before (steady_ascribe _ _)).trans (hσ.before (steady_generalize _ _ _)))

/-- The arms after the first ones have room where all of them have. -/
theorem fits_arms {b : Nat} {whole : Expr} {env : TypeEnv} {value result : Ty}
    {before later : List (Pat × Expr)} {E : List Equation}
    (h : Fits b (generateArms whole env value result (before ++ later)) st)
    (hbefore : Gives (generateArms whole env value result before) st E st') :
    Fits b (generateArms whole env value result later) st' := by
  induction before generalizing st E with
  | nil =>
    obtain ⟨-, rfl⟩ := gives_pure.1 hbefore
    exact h
  | cons arm before ih =>
    obtain ⟨pt, st₁, bt, beqs, st₂, eqs, hp, hb, hrest, -⟩ := gives_arm.1 hbefore
    exact ih ((h.arm.2 hp).2 hb) hrest

/-- A call that is made has room where the call has that makes it. -/
theorem Makes.fits (h : Makes c c') {b : Nat} (hc : Fits b c.run c.state) :
    Fits b c'.run c'.state := by
  cases h with
  | left => exact hc.binary.1
  | right hl => exact hc.binary.2 hl
  | head => exact hc.cons.1
  | tail hu => exact hc.cons.2 hu
  | test => exact hc.cond.1
  | yes ht => exact (hc.cond.2 ht).1
  | no ht hy => exact (hc.cond.2 ht).2 hy
  | body hp => exact hc.lambda.2 hp
  | function => exact hc.app.1
  | argument hf => exact (hc.app.2 hf).1
  | value => exact hc.select.1
  | arm hv hx hbefore hp =>
    exact ((fits_arms ((hc.select.2 hv).2 hx) hbefore).arm.2 hp).1
  | last hs =>
    rw [Fits, run, outcome_block_last] at hc
    exact hc
  | statement hs => exact (hc.block_stmt hs).1
  | next hs hr => exact (hc.block_stmt hs).2 hr
  | defined hp => exact (hc.block_define hp).1
  | scope hp hv ha hσ => exact ((hc.block_define hp).2 hv ha).2 hσ

theorem before_after (c : Call) : c.state.Before c.after := steady_generate c.env c.expr c.state

/-- What a call takes that is made is taken by the call that makes it. -/
theorem Makes.inside (h : Makes c c') (hc : c.after.supply.count ≤ Supply.capacity) :
    c.state.Before c'.state ∧ c'.after.Before c.after := by
  refine ⟨h.before, (h.before.trans c'.before_after).of_count_le c.before_after ?_⟩
  -- the numbers are set so that the call itself just fits
  have hfits : Fits (Supply.capacity - c.after.supply.count) c'.run c'.state :=
    h.fits (by rw [Fits, State.number]; exact Nat.le_of_eq (Nat.sub_add_cancel hc))
  have hle : Supply.capacity - c.after.supply.count + c'.after.supply.count ≤ Supply.capacity :=
    hfits
  omega

/-- The second call is the first one, or is made in the course of it. -/
def Reaches : Call → Call → Prop := Relation.ReflTransGen Makes

theorem Reaches.inside (h : Reaches c c') (hc : c.after.supply.count ≤ Supply.capacity) :
    c.state.Before c'.state ∧ c'.after.Before c.after := by
  induction h with
  | refl => exact ⟨.refl _, .refl _⟩
  | tail _ hmakes ih =>
    obtain ⟨hbefore, hafter⟩ := hmakes.inside (Nat.le_trans ih.2.count_le hc)
    exact ⟨ih.1.trans hbefore, hafter.trans ih.2⟩

/-- Free variables are free in the environment, free in an ascription, or taken by the call. -/
theorem free_cases {ys : List String} (hys : Mints c.run c.state ys) {t : Ty} {E : List Equation}
    (h : Gives c.run c.state (t, E) c.after) {y : String}
    (hy : y ∈ t.freeOccurrences ++ E.flatMap Equation.vars) : c.env.Free y ∨
      (∃ d ∈ c.expr.walk, ∃ a ∈ d.ascriptions, y ∈ a.freeOccurrences) ∨ y ∈ ys := by
  obtain ⟨hnames, hsupply⟩ := hys.stretch
  have htaken : AllTaken (fun y => c.env.Free y ∨
      (∃ d ∈ c.expr.walk, ∃ a ∈ d.ascriptions, y ∈ a.freeOccurrences) ∨ y ∈ ys)
      c.state c.after := by
    intro k hk y hy
    rw [Supply.advance_inj (hk.symm.trans hsupply), ← hnames] at hy
    exact .inr (.inr hy)
  obtain ⟨ht, hE⟩ := generate_freeOver (fun d hd a ha y hy => .inr (.inl ⟨d, hd, a, ha, hy⟩)) h
    (fun y hy => .inl hy) htaken
  exact (List.mem_append.1 hy).elim (ht y) (hE y)

/-- A call inside a run takes a stretch of what the run takes. -/
theorem stretch_inside {x : Infer α} {xs ys : List String} (hx : Mints x st xs)
    (hys : Mints c.run c.state ys) (hstate : st.Before c.state)
    (hafter : c.after.Before (outcome x st).2) : ∃ i, c.state.supply = st.supply.advance i ∧
      c.after.supply = st.supply.advance (i + ys.length) ∧ i + ys.length ≤ xs.length ∧
      ys <:+: xs := by
  obtain ⟨i, hi⟩ := hstate
  obtain ⟨k, hk⟩ := hafter
  obtain ⟨hnames, hsupply⟩ := hx.stretch
  obtain ⟨hnames', hsupply'⟩ := hys.stretch
  have hend : c.after.supply = st.supply.advance (i + ys.length) := by
    rw [after, hsupply', hi, Supply.advance_advance]
  have hlen : xs.length = i + ys.length + k := by
    refine Supply.advance_inj (s := st.supply) ?_
    rw [← hsupply, hk, hend, Supply.advance_advance]
  refine ⟨i, hi, hend, by omega, (st.supply.freshList i).1, (c.after.supply.freshList k).1, ?_⟩
  rw [hnames, hlen, Supply.freshList_add, Supply.freshList_add, ← hi, ← hnames', hend]

end Call

/-! ## Fresh variables -/

/-- **The variables of a run are fresh.**  The run starts in the state for the environment,
makes the calls, ends with the supply and takes the names. -/
structure FreshRun (env : TypeEnv) (x : Infer α) (st : State) (made : Call → Prop)
    (final : Supply) (xs : List String) : Prop where
  /-- These are the names that the run takes, and nothing else moves the supply. -/
  mints : ∀ ys, Mints x st ys ↔ ys = xs
  supply : final = st.supply.advance xs.length
  nodup : xs.Nodup
  /-- No name that is taken occurs in the environment. -/
  new : ∀ p ∈ env.bindings, ∀ y ∈ xs, y ∉ p.2.occurrences
  /-- Nor is it bound there without occurring, if numbers are past those that are bound. -/
  unbound : (∀ p ∈ env.bindings, ∀ b ∈ p.2.binders, ∀ m, Text.Decimal.signed? b = some m →
    m < env.nextNumber) → ∀ p ∈ env.bindings, ∀ y ∈ xs, y ∉ p.2.binders
  /-- The next number never becomes smaller. -/
  forward : env.nextNumber ≤ st.supply.next ∧ st.supply.next ≤ final.next ∧
    ∀ c, made c → st.supply.next ≤ c.state.supply.next ∧
      c.state.supply.next ≤ c.after.supply.next ∧ c.after.supply.next ≤ final.next
  origin : ∀ c, made c → ∃ ys, Mints c.run c.state ys ∧ ys <:+: xs ∧
    ∀ t E, Gives c.run c.state (t, E) c.after →
      ∀ y ∈ t.freeOccurrences ++ E.flatMap Equation.vars, c.env.Free y ∨
        (∃ d ∈ c.expr.walk, ∃ a ∈ d.ascriptions, y ∈ a.freeOccurrences) ∨ y ∈ ys

end Infer

namespace Context
variable {ctx : Context} {env : TypeEnv}

open Infer

theorem freshRun {α : Type} {x : Infer α} {xs : List String} {made : Call → Prop}
    (hlast : ∀ p ∈ env.bindings, ∀ y ∈ p.2.occurrences,
      Text.Decimal.signed? y ≠ some Int64.maxValue)
    (hx : Mints x (ctx.initial env) xs) (hroom : (ctx.start env).supply.Room xs.length)
    (hmade : ∀ c, made c → (ctx.initial env).Before c.state ∧
      c.after.Before (outcome x (ctx.initial env)).2) :
    FreshRun env x (ctx.initial env) made (outcome x (ctx.initial env)).2.supply xs := by
  obtain ⟨hnames, hsupply⟩ := hx.stretch
  obtain ⟨hstart, hpast⟩ := ctx.lt_next_start env hlast
  have hroom : (ctx.initial env).supply.Room xs.length := hroom
  have hfirst {j : Nat} (hj : j ≤ xs.length) :
      (ctx.initial env).supply.next ≤ ((ctx.initial env).supply.advance j).next := by
    have hle := hroom.next_le (Nat.zero_le j) hj
    rwa [Supply.advance_zero] at hle
  have hnew {y : String} (hy : (ctx.initial env).supply.Past y) : y ∉ xs := by
    rw [hnames]
    exact hy.not_mem_freshList hroom
  have hinside (c : Call) (hc : made c) : ∃ i ys, Mints c.run c.state ys ∧
      c.state.supply = (ctx.initial env).supply.advance i ∧
      c.after.supply = (ctx.initial env).supply.advance (i + ys.length) ∧
      i + ys.length ≤ xs.length ∧ ys <:+: xs := by
    obtain ⟨ys, hys⟩ := (built_generate c.env c.expr).exists_mints c.state
    obtain ⟨i, hi⟩ := Call.stretch_inside hx hys (hmade c hc).1 (hmade c hc).2
    exact ⟨i, ys, hys, hi⟩
  exact {
    mints := fun ys => ⟨fun h => h.unique hx, fun h => h ▸ hx⟩
    supply := hsupply
    nodup := by
      rw [hnames]
      exact Supply.nodup_freshList hroom
    new := fun p hp y hy hmem => hnew (hpast p hp y hmem) hy
    unbound := fun hbound p hp y hy hmem =>
      hnew (fun m hm => Int64.lt_of_lt_of_le (hbound p hp y hmem m hm) hstart) hy
    forward := by
      rw [hsupply]
      refine ⟨hstart, hfirst (Nat.le_refl _), fun c hc => ?_⟩
      obtain ⟨i, ys, -, hi, hend, hle, -⟩ := hinside c hc
      rw [hi, hend]
      exact ⟨hfirst (by omega), hroom.next_le (Nat.le_add_right _ _) hle,
        hroom.next_le hle (Nat.le_refl _)⟩
    origin := fun c hc => by
      obtain ⟨-, ys, hys, -, -, -, hinfix⟩ := hinside c hc
      exact ⟨ys, hys, hinfix, fun t E h y hy => Call.free_cases hys h hy⟩ }

/-- Calls are inside a run if they are made in the course of one that the run comes to. -/
theorem exists_freshRun {α : Type} {x : Infer α} {made : Call → Prop}
    (hlast : ∀ p ∈ env.bindings, ∀ y ∈ p.2.occurrences,
      Text.Decimal.signed? y ≠ some Int64.maxValue)
    (hx : ∃ xs, Mints x (ctx.initial env) xs) {final : Supply}
    (hfinal : final = (outcome x (ctx.initial env)).2.supply)
    (hroom : (ctx.start env).supply.Room final.count)
    (hmade : ∀ c, made c → ∃ root : Call, root.state = ctx.initial env ∧
      root.after.Before (outcome x (ctx.initial env)).2 ∧ root.Reaches c) :
    ∃ xs, FreshRun env x (ctx.initial env) made final xs := by
  obtain ⟨xs, hx⟩ := hx
  have hcount : final.count = xs.length := by
    rw [hfinal, hx.stretch.2]
    show (ctx.start env).supply.count + xs.length = _
    rw [count_start, Nat.zero_add]
  rw [hcount] at hroom
  subst hfinal
  refine ⟨xs, freshRun hlast hx hroom fun c hc => ?_⟩
  obtain ⟨root, hstate, hafter, hreaches⟩ := hmade c hc
  have hcapacity : root.after.supply.count ≤ Supply.capacity := by
    have hpositive := Int64.le_iff_toInt_le.1
      (Int64.le_trans env.one_le_nextNumber (ctx.lt_next_start env hlast).1)
    have hone : (1 : Int64).toInt = 1 := rfl
    have hcapacity : Supply.capacity = 9223372036854775808 := rfl
    have hle := hafter.count_le
    rw [Supply.Room, Int64.toInt_maxValue] at hroom
    omega
  obtain ⟨hbefore, hinside⟩ := hreaches.inside hcapacity
  exact ⟨hstate ▸ hbefore, hinside.trans hafter⟩

/-- **Variables are fresh**, as long as their numbers stay below the last word.  In a run of
`infer` or `define` the next number never becomes smaller, no name is taken twice and none that
occurs in the environment is taken.  Whatever is free in the type and the equations of an
expression or of a part of it is free in the environment at that place, is free in an
ascription, or is taken while they are generated.  A definition of a list pattern makes no
calls: it fails at once. -/
theorem runs_fresh (ctx : Context) (env : TypeEnv)
    (hlast : ∀ p ∈ env.bindings, ∀ y ∈ p.2.occurrences,
      Text.Decimal.signed? y ≠ some Int64.maxValue) :
    (∀ e, e ≠ .missing → (ctx.start env).supply.Room (ctx.infer env e).2.supply.count →
      ∃ xs, FreshRun env (Infer.infer env e) (ctx.initial env)
        (Call.Reaches ⟨env, e, ctx.initial env⟩) (ctx.infer env e).2.supply xs) ∧
    ∀ d, (ctx.start env).supply.Room (ctx.define env (some d)).2.supply.count →
      (∃ xs, FreshRun env (Infer.define env d) (ctx.initial env)
        (fun c => d.pat.isList = false ∧ Call.Reaches ⟨env, d.value, ctx.initial env⟩ c)
        (ctx.define env (some d)).2.supply xs) ∧
      ∀ env' t, (ctx.define env (some d)).1 = .ok (env', t) →
        env'.next = (ctx.define env (some d)).2.supply.next := by
  refine ⟨fun e he hroom => ?_, fun d hroom => ⟨?_, fun env' t h => ?_⟩⟩
  · refine exists_freshRun hlast (exists_mints_infer env e _) (ctx.infer_outcome env he).2 hroom
      fun c hc => ⟨_, rfl, ?_, hc⟩
    exact before_bind (fun _ => (steady_solve _).bind fun _ => (steady_tell _).bind fun _ =>
      steady_pure _) _
  · refine exists_freshRun hlast (exists_mints_define env d _) (ctx.define_outcome env d).2 hroom
      fun c hc => ⟨_, rfl, ?_, hc.2⟩
    have hvalue : (Call.mk env d.value (ctx.initial env)).after.Before
        (outcome (bindWith env d (Infer.generate env d.value)) (ctx.initial env)).2 := by
      rw [bindWith_eq env d _ hc.1]
      exact before_bind (fun _ => (steady_ascribe _ _).bind fun _ =>
        ((steady_generalize _ _ _).blaming _).bind fun _ => steady_pure _) _
    exact hvalue.trans (before_bind (fun _ => (steady_solve _).bind fun _ =>
      steady_get.bind fun _ => steady_pure _) _)
  · have hrun : ctx.define env (some d) = (.ok (env', t), (ctx.define env (some d)).2) :=
      Prod.ext h rfl
    obtain ⟨st', hgives, hsupply⟩ := gives_of_define hrun
    obtain ⟨-, vt, veqs, st₁, aeqs, st₂, σ, s, -, -, -, -, -, rfl⟩ := gives_define hgives
    rw [hsupply]
    rfl

/-- The name `5` occurs in the environment, so that the first name is `6`.  The parameter takes
it, the instance of `id` and its application take `7` and `8`, the scheme binds `9` in the place
of `a`, and the instance of `f` takes `10`. -/
theorem runs_fresh_annotated :
    let env : TypeEnv := { bindings := [("id", .poly "5" (.arrow (.var "5") (.var "5")))] }
    let f : Expr := .lambda (.ident "x") (some (.var "a")) (.app (.ident "id") (.ident "x"))
    let e : Expr := .block [.define .val (.ident "f") none f, .ident "f"]
    let d : Definition := ⟨.val, .ident "f", none, f⟩
    FreshRun env (Infer.infer env e) (Context.initial {} env)
        (Call.Reaches ⟨env, e, Context.initial {} env⟩) (Context.infer {} env e).2.supply
        ["6", "7", "8", "9", "10"] ∧
      FreshRun env (Infer.define env d) (Context.initial {} env)
        (fun c => d.pat.isList = false ∧ Call.Reaches ⟨env, f, Context.initial {} env⟩ c)
        (Context.define {} env (some d)).2.supply ["6", "7", "8", "9"] := by
  intro env f e d
  have hlast : ∀ p ∈ env.bindings, ∀ y ∈ p.2.occurrences,
      Text.Decimal.signed? y ≠ some Int64.maxValue := by
    intro p hp y hy
    have hnumber : Text.Decimal.signed? "5" = some 5 := by cbv
    have hy : y = "5" := by
      rw [List.mem_singleton.1 hp] at hy
      simpa [Ty.occurrences] using hy
    rw [hy, hnumber]
    decide
  have hstart : (Context.start {} env).supply = { next := 6 } := by cbv
  have hinfer : (Context.infer {} env e).2.supply = { next := 11, count := 5 } := by
    cbv
    simp only [Infer.instantiate]
    cbv
    simp only [Infer.instantiate]
    cbv
  have hdefine : (Context.define {} env (some d)).2.supply = { next := 10, count := 4 } := by
    cbv
    simp only [Infer.instantiate]
    cbv
  have hnames {α : Type} {x : Infer α} {made : Call → Prop} {final : Supply} {xs : List String}
      (h : FreshRun env x (Context.initial {} env) made final xs) :
      xs = (Supply.freshList final.count { next := 6 }).1 := by
    have hsupply := h.supply
    rw [Context.initial, hstart] at hsupply
    rw [hsupply, show (Supply.advance { next := 6 } xs.length).count = xs.length from
      Nat.zero_add _, ← hstart]
    exact ((h.mints xs).2 rfl).stretch.1
  obtain ⟨hruns, hdefines⟩ := runs_fresh {} env hlast
  obtain ⟨xs, hxs⟩ := hruns e (by simp [e]) (by rw [hstart, hinfer]; decide)
  obtain ⟨⟨ys, hys⟩, -⟩ := hdefines d (by rw [hstart, hdefine]; decide)
  have hfive : xs = ["6", "7", "8", "9", "10"] := by
    rw [hnames hxs, hinfer]
    cbv
  have hfour : ys = ["6", "7", "8", "9"] := by
    rw [hnames hys, hdefine]
    cbv
  exact ⟨hfive ▸ hxs, hfour ▸ hys⟩

end Context

end LetPoly
