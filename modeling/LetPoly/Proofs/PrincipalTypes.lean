import LetPoly.Proofs.Soundness

/-! # Principal types

Whatever type the rules derive for an expression without ascriptions, inference
succeeds on the expression, and the type is an instance of the one that is inferred.

The proof follows a derivation (`Infer.generate_complete`).  An assignment is built
along the run: where inference takes a variable, the variable is given the type that
the derivation has in its place, and what earlier variables were given stays
(`Assignment.Extends`).  In the end the assignment solves the equations, so that
unification succeeds, and makes of the inferred type the derived one.

A definition asks for more: the scheme that inference makes must have every instance
that the derivation's scheme has (`Infer.generalize_complete`).  The derivation
generalises over variables not free in its environment.  A variable that inference
does not generalise is reached from the environment through the solution, so what the
assignment gives it is over variables free in the derivation's environment, and is
left alone by whatever the derivation's variables are given.
-/

namespace LetPoly

/-- A scheme has an instance over its free variables only. -/
theorem Ty.Prenex.exists_instance {σ : Ty} (hσ : σ.Prenex) (θ : Assignment) :
    ∃ τ, σ.Instance θ τ ∧
      ∀ y ∈ τ.occurrences, ∃ x ∈ σ.freeOccurrences, y ∈ (θ x).occurrences := by
  induction hσ generalizing θ with
  | @mono t hm =>
    refine ⟨t.apply θ, hm.instance_iff.2 rfl, fun y hy => ?_⟩
    rw [hm.freeOccurrences_eq]
    exact Ty.mem_occurrences_apply.1 hy
  | @poly b t _ ih =>
    obtain ⟨τ, hi, hocc⟩ := ih (θ.set b .int)
    refine ⟨τ, ⟨.int, trivial, hi⟩, fun y hy => ?_⟩
    obtain ⟨x, hx, hyx⟩ := hocc y hy
    by_cases hxb : x = b
    · rw [hxb, Assignment.set_self] at hyx
      simp [int, occurrences] at hyx
    · rw [Assignment.set_of_ne _ _ hxb] at hyx
      exact ⟨x, List.mem_filter.2 ⟨hx, by simpa using hxb⟩, hyx⟩

/-! ## Environments that the rules and inference use -/

/-- The second scheme, under the assignment, has the instances of the first. -/
def Matched (θ : Assignment) : Option Ty → Option Ty → Prop
  | none, none => True
  | some S, some σ => S.Prenex ∧ ∀ τ, S.Instance .var τ → σ.Instance θ τ
  | _, _ => False

/-- The names of both environments are the same, and the schemes of `env` have the
instances that those of `Γ` have. -/
def Follows (θ : Assignment) (env Γ : TypeEnv) : Prop := ∀ x, Matched θ (Γ.get? x) (env.get? x)

theorem follows_empty (θ : Assignment) : Follows θ .empty .empty := fun _ => trivial

theorem Follows.get? {θ : Assignment} {env Γ : TypeEnv} (h : Follows θ env Γ) {x : String} {S : Ty}
    (hS : Γ.get? x = some S) :
    ∃ σ, env.get? x = some σ ∧ S.Prenex ∧ ∀ τ, S.Instance .var τ → σ.Instance θ τ := by
  have hx := h x
  rw [hS] at hx
  cases hσ : env.get? x with
  | none =>
    rw [hσ] at hx
    exact hx.elim
  | some σ =>
    rw [hσ] at hx
    exact ⟨σ, rfl, hx⟩

theorem Follows.congr {θ θ' : Assignment} {env Γ : TypeEnv} (h : Follows θ env Γ)
    (henv : ∀ p ∈ env.bindings, p.2.Prenex) (hθ : ∀ x, env.Free x → θ' x = θ x) :
    Follows θ' env Γ := by
  intro x
  have hx := h x
  cases hS : Γ.get? x with
  | none =>
    rw [hS] at hx
    cases hσ : env.get? x with
    | none => trivial
    | some σ =>
      rw [hσ] at hx
      exact hx.elim
  | some S =>
    obtain ⟨σ, hσ, hprenex, hi⟩ := h.get? hS
    rw [hσ]
    exact ⟨hprenex, fun τ hτ => (henv _ (TypeEnv.mem_of_get? hσ)).instance_congr
      (fun y hy => (hθ y ⟨x, σ, hσ, hy⟩).symm) (hi τ hτ)⟩

theorem Follows.set {θ : Assignment} {env Γ : TypeEnv} (h : Follows θ env Γ) {S σ : Ty}
    (hS : S.Prenex) (hi : ∀ τ, S.Instance .var τ → σ.Instance θ τ) (x : String) :
    Follows θ (env.set x σ) (Γ.set x S) := by
  intro y
  by_cases hy : y = x
  · subst hy
    rw [TypeEnv.get?_set_self, TypeEnv.get?_set_self]
    exact ⟨hS, hi⟩
  · rw [TypeEnv.get?_set_of_ne _ _ hy, TypeEnv.get?_set_of_ne _ _ hy]
    exact h y

theorem Follows.union {θ : Assignment} {env Γ B Δ : TypeEnv} (h : Follows θ env Γ)
    (hθ : θ.IsMono) (hB : ∀ p ∈ B.bindings, p.2.Mono)
    (hΔ : ∀ x, Δ.get? x = (B.get? x).map (Ty.apply θ)) : Follows θ (B.union env) (Δ.union Γ) := by
  intro x
  rw [TypeEnv.get?_union, TypeEnv.get?_union, hΔ]
  cases hBx : B.get? x with
  | none => exact h x
  | some t =>
    have ht := hB _ (TypeEnv.mem_of_get? hBx)
    refine ⟨.mono (ht.apply hθ), fun τ hτ => ?_⟩
    rw [(ht.apply hθ).instance_iff, Ty.apply_id] at hτ
    exact ht.instance_iff.2 hτ

/-- What is free in `env` is given types over what is free in `Γ`. -/
theorem Follows.free {θ : Assignment} {env Γ : TypeEnv} (h : Follows θ env Γ)
    (henv : ∀ p ∈ env.bindings, p.2.Prenex) {x y : String} (hx : env.Free x)
    (hy : y ∈ (θ x).occurrences) : Γ.Free y := by
  obtain ⟨z, σ, hz, hxσ⟩ := hx
  have hmatch := h z
  rw [hz] at hmatch
  cases hS : Γ.get? z with
  | none =>
    rw [hS] at hmatch
    exact hmatch.elim
  | some S =>
    rw [hS] at hmatch
    obtain ⟨τ, hτ, hocc⟩ := hmatch.1.exists_instance .var
    have hyτ := (henv _ (TypeEnv.mem_of_get? hz)).occurrences_of_instance (hmatch.2 τ hτ) hxσ hy
    obtain ⟨w, hw, hyw⟩ := hocc y hyτ
    rw [Ty.occurrences, List.mem_singleton] at hyw
    exact ⟨z, S, hS, hyw ▸ hw⟩

/-! ## Extending an assignment -/

namespace Assignment.Extends
variable {m : Nat} {θ θ' : Assignment} (h : θ.Extends m θ')
include h

theorem apply_eq {t : Ty} (ht : t.Over (Older m)) : t.apply θ' = t.apply θ :=
  Ty.apply_congr fun x hx => h x (ht.2 x hx)

theorem solves {E : List Equation} (hE : Equation.AllOver (Older m) E) (hs : θ.Solves E) :
    θ'.Solves E :=
  hs.congr fun _ he x hx => (h x (hE.mem he hx)).symm

end Assignment.Extends

theorem Follows.extend {A : String → Prop} (hA : ∀ x, A x → Older 0 x) {m : Nat}
    {θ θ' : Assignment} {env Γ : TypeEnv} (h : Follows θ env Γ) (henv : env.Tidy A m)
    (hext : θ.Extends m θ') : Follows θ' env Γ :=
  h.congr henv.prenex fun x hx => hext x (henv.known_older hA (Nat.le_refl m) (.inl hx))

namespace Infer
open Equation

/-- The assignment extends another one, solves the equations and makes of the type the
one that is asked for. -/
structure Reaches (m : Nat) (θ : Assignment) (t : Ty) (E : List Equation) (τ : Ty)
    (θ' : Assignment) : Prop where
  isMono : θ'.IsMono
  extend : θ.Extends m θ'
  solves : θ'.Solves E
  type : t.apply θ' = τ

/-- What was reached stays so when later variables are assigned. -/
theorem Reaches.later {m n : Nat} {θ θ' θ'' : Assignment} {t τ : Ty} {E : List Equation}
    (h : Reaches m θ t E τ θ') (ht : t.Over (Older n)) (hE : AllOver (Older n) E)
    (hmn : m ≤ n) (hθ : θ''.IsMono) (hext : θ'.Extends n θ'') : Reaches m θ t E τ θ'' :=
  ⟨hθ, h.extend.trans hext hmn, hext.solves hE h.solves, (hext.apply_eq ht).trans h.type⟩

/-- A fresh variable is given a type. -/
theorem freshName_complete {b : Nat} {st : State} {θ : Assignment} (hb : st.From b)
    (hfit : Fits b freshName st) (hθ : θ.IsMono) {u : Ty} (hu : u.Mono) :
    ∃ x st' θ', Gives freshName st x st' ∧ Minted (st.number b) (st'.number b) x ∧
      θ'.IsMono ∧ θ.Extends (st.number b) θ' ∧ θ' x = u := by
  have h : Gives freshName st st.supply.fresh.1 { st with supply := st.supply.fresh.2 } :=
    outcome_freshName st
  have hminted := h.minted hb (hfit.number_le h)
  refine ⟨_, _, θ.set _ u, h, hminted, hθ.set _ hu, fun y hy => ?_, Assignment.set_self _ _ _⟩
  refine Assignment.set_of_ne _ _ fun heq => ?_
  exact hy.not_minted (heq ▸ hminted)

/-! ## Patterns -/

theorem pattern_complete {p : Pat} {τ : Ty} {Δ : TypeEnv} (h : p.HasType τ Δ) {b : Nat}
    {st : State} {θ : Assignment} (hb : st.From b) (hfit : Fits b (pattern p) st)
    (hθ : θ.IsMono) :
    ∃ pt st' θ', Gives (pattern p) st pt st' ∧ Reaches (st.number b) θ pt.type pt.equations τ θ' ∧
      ∀ x, Δ.get? x = (pt.bindings.get? x).map (Ty.apply θ') := by
  induction h generalizing st θ with
  | number | string | boolean | unit =>
    exact ⟨_, st, θ, gives_pure.2 ⟨rfl, rfl⟩, ⟨hθ, .refl _ _, by simp, rfl⟩, fun _ => rfl⟩
  | wildcard hτ | nil hτ =>
    have hfresh : Fits b freshName st := hfit.first fun _ => steady_pure _
    obtain ⟨x, st', θ', hx, -, hθ', hext, hxu⟩ := freshName_complete hb hfresh hθ hτ
    exact ⟨_, st', θ', gives_bind.2 ⟨_, _, gives_fresh.2 ⟨x, hx, rfl⟩, gives_pure.2 ⟨rfl, rfl⟩⟩,
      ⟨hθ', hext, by simp, by simp [hxu]⟩, fun _ => rfl⟩
  | @ident z τ hτ =>
    have hfresh : Fits b freshName st := hfit.first fun _ => steady_pure _
    obtain ⟨x, st', θ', hx, -, hθ', hext, hxu⟩ := freshName_complete hb hfresh hθ hτ
    refine ⟨_, st', θ', gives_bind.2 ⟨_, _, gives_fresh.2 ⟨x, hx, rfl⟩, gives_pure.2 ⟨rfl, rfl⟩⟩,
      ⟨hθ', hext, by simp, by simp [hxu]⟩, fun y => ?_⟩
    by_cases hy : y = z
    · subst hy
      simp only [TypeEnv.get?_set_self, Option.map_some, Ty.apply_var, hxu]
    · simp only [TypeEnv.get?_set_of_ne _ _ hy]
      rfl
  | @cons p q τ Δ Δ' _ _ ihp ihq =>
    obtain ⟨ht, st₁, θ₁, hp, hreach₁, hΔ⟩ :=
      ihp hb (hfit.first fun _ => (steady_pattern q).bind fun _ => steady_pure _) hθ
    obtain ⟨hb₁, hle₁⟩ := hp.leads (steady_pattern p) hb
    have hfit₁ : Fits b (pattern q) st₁ := (hfit.rest hp).first fun _ => steady_pure _
    obtain ⟨tt, st₂, θ₂, hq, hreach₂, hΔ'⟩ := ihq hb₁ hfit₁ hreach₁.isMono
    obtain ⟨-, hle₂⟩ := hq.leads (steady_pattern q) hb₁
    have hscope := pattern_scoped hp hb (Nat.le_trans hle₂ (hfit₁.number_le hq))
    have hold : ∀ x, Minted (st.number b) (st₁.number b) x → Older (st₁.number b) x :=
      fun _ hx => hx.older
    have hreach₁ := hreach₁.later (hscope.type.imp hold) (hscope.equations.imp hold) hle₁
      hreach₂.isMono hreach₂.extend
    refine ⟨_, st₂, θ₂, gives_pattern_cons.2 ⟨ht, st₁, tt, hp, hq, rfl⟩,
      ⟨hreach₂.isMono, hreach₁.extend, ?_, ?_⟩, fun x => ?_⟩
    · simp [hreach₁.solves, hreach₂.solves, hreach₁.type, hreach₂.type]
    · rw [Ty.apply_list, hreach₁.type]
    · rw [TypeEnv.get?_union, TypeEnv.get?_union, Option.map_or, hΔ, hΔ']
      congr 1
      cases hx : ht.bindings.get? x with
      | none => rfl
      | some u =>
        rw [Option.map_some, Option.map_some, hreach₂.extend.apply_eq
          ((hscope.bindings _ (TypeEnv.mem_of_get? hx)).imp hold)]

/-! ## Definitions -/

/-- No name is ascribed. -/
abbrev NoNames (_ : String) : Prop := False

/-- A variable that is not generalised is reached from the visible environment. -/
theorem exists_free_of_not_generalized {env : TypeEnv} {m n n' : Nat} {t σ : Ty}
    {eqs : List Equation} {s : Solution} (henv : env.Tidy NoNames m)
    (hdef : Defined NoNames env m n n' t eqs s σ) {x : String}
    (hx : x ∈ (s.resolve t).occurrences) (hxG : x ∉ generalized s env t) :
    ∃ y, env.Free y ∧ x ∈ (s.resolve (.var y)).occurrences := by
  have hno : ∀ x, NoNames x → Older 0 x := fun _ => False.elim
  have hknown : env.Known NoNames m n x := hdef.resolved.2 x hx
  -- a variable that is not known is not solved, so it leads to itself only
  have hself : ∀ y, x ∈ (s.resolve (.var y)).occurrences → env.Known NoNames m n y := by
    intro y hxy
    by_cases hy : env.Known NoNames m n y
    · exact hy
    · rw [unify_resolve_var hdef.inScope.equations hdef.solution hy, Ty.occurrences,
        List.mem_singleton] at hxy
      exact hxy ▸ hknown
  have hfree : x ∈ (s.resolve t).freeOccurrences := hdef.resolved.mono.freeOccurrences_eq ▸ hx
  have hnot : ¬∀ p ∈ env.bindings, x ∉ (s.resolve p.2).freeOccurrences := fun hall =>
    hxG (mem_generalized.2 ⟨hfree, hall⟩)
  simp only [Classical.not_forall, Classical.not_not] at hnot
  obtain ⟨p, hp, hxp⟩ := hnot
  have hmem := Ty.mem_occurrences_of_free hxp
  rw [Solution.resolve_eq_apply, Ty.mem_occurrences_apply] at hmem
  obtain ⟨y, hy, hxy⟩ := hmem
  have hyknown := hself y hxy
  have hyfree : y ∈ p.2.freeOccurrences := (henv.prenex p hp).mem_freeOccurrences.2
    ⟨hy, henv.known_not_binder hno hyknown hp⟩
  rcases hyknown with hyenv | hyA | hyminted
  · exact ⟨y, hyenv, hxy⟩
  · exact hyA.elim
  · rcases henv.free p hp y hyfree with hyA | hyold
    · exact hyA.elim
    · exact absurd hyminted hyold.older.not_minted

/-- **The scheme that inference makes has every instance that the derivation's has.** -/
theorem generalize_complete {env Γ : TypeEnv} {m n n' : Nat} {t σ : Ty}
    {eqs : List Equation} {s : Solution} (henv : env.Tidy NoNames m)
    (hdef : Defined NoNames env m n n' t eqs s σ) {θ : Assignment} (hθ : θ.IsMono)
    (hsolves : θ.Solves eqs) (hΓ : Follows θ env Γ) {ys : List String}
    (hys : ∀ y ∈ ys, ¬Γ.Free y) {τ : Ty}
    (hτ : (Ty.bindAll ys (t.apply θ)).Instance .var τ) : σ.Instance θ τ := by
  have hresolve := Solves.apply_resolve hdef.inScope.equations.allMono hsolves hdef.solution
  obtain ⟨δ, hδ, hi⟩ := Ty.instance_bindAll.1 hτ
  rw [(hdef.inScope.type.mono.apply hθ).instance_iff] at hi
  -- a generalised variable takes the derivation's type for it, and then that instance
  let δ' : Assignment := .override .var ys δ
  have hδ' : δ'.IsMono := Assignment.isMono_var.override ys hδ
  refine (hdef.generalizes.instance_iff θ τ).2
    ⟨fun x => (θ x).apply δ', fun x => (hθ x).apply hδ', ?_⟩
  calc τ = ((s.resolve t).apply θ).apply δ' := by rw [hi, hresolve]
    _ = (s.resolve t).apply fun x => (θ x).apply δ' := Ty.apply_apply _ _ _
    _ = (s.resolve t).apply
          (θ.override (generalized s env t) fun x => (θ x).apply δ') := by
      refine Ty.apply_congr fun x hx => ?_
      by_cases hxG : x ∈ generalized s env t
      · rw [Assignment.override_of_mem hxG]
      · rw [Assignment.override_of_not_mem hxG]
        obtain ⟨y, hy, hxy⟩ := exists_free_of_not_generalized henv hdef hx hxG
        refine Ty.apply_eq_self fun z hz => Assignment.override_of_not_mem fun hzys => ?_
        -- what `x` is given is part of what `y` is given
        have hzy : z ∈ (θ y).occurrences := by
          have hmem : z ∈ ((s.resolve (.var y)).apply θ).occurrences :=
            Ty.mem_occurrences_apply.2 ⟨x, hxy, hz⟩
          rwa [hresolve, Ty.apply_var] at hmem
        exact hys z hzys (hΓ.free henv.prenex hy hzy)

/-! ## Expressions -/

/-- Every run on the expression that has room for its variables succeeds, and the
derived type is reached. -/
def CompleteRuns (b : Nat) (Γ : TypeEnv) (e : Expr) (τ : Ty) : Prop :=
  ∀ ⦃env : TypeEnv⦄ ⦃st : State⦄ ⦃θ : Assignment⦄, (e.Plain fun _ => False) → st.From b →
    Fits b (generate env e) st → env.Tidy NoNames (st.number b) → θ.IsMono → Follows θ env Γ →
    ∃ t E st' θ', Gives (generate env e) st (t, E) st' ∧ Reaches (st.number b) θ t E τ θ'

/-- A part of a run that has been completed, and what the next part needs. -/
structure Stage (b : Nat) (env Γ : TypeEnv) (e : Expr) (st : State) (θ : Assignment) (τ t : Ty)
    (E : List Equation) (st' : State) (θ' : Assignment) : Prop where
  gives : Gives (generate env e) st (t, E) st'
  reaches : Reaches (st.number b) θ t E τ θ'
  start : st'.From b
  le : st.number b ≤ st'.number b
  tidy : env.Tidy NoNames (st'.number b)
  follows : Follows θ' env Γ
  type : t.Over (Older (st'.number b))
  equations : AllOver (Older (st'.number b)) E

section
variable {b : Nat} {env Γ : TypeEnv} {e : Expr} {st : State} {θ : Assignment} {τ : Ty}

theorem CompleteRuns.stage (h : CompleteRuns b Γ e τ) (he : e.Plain fun _ => False)
    (hb : st.From b) (hfit : Fits b (generate env e) st) (henv : env.Tidy NoNames (st.number b))
    (hθ : θ.IsMono) (hΓ : Follows θ env Γ) :
    ∃ t E st' θ', Stage b env Γ e st θ τ t E st' θ' := by
  obtain ⟨t, E, st', θ', hgives, hreaches⟩ := h he hb hfit henv hθ hΓ
  obtain ⟨hb', hle⟩ := hgives.leads (steady_generate _ _) hb
  have hno : ∀ x, NoNames x → Older 0 x := fun _ => False.elim
  have hscope := generate_scoped hno e hgives hb (hfit.number_le hgives) henv
    (he.imp fun _ => False.elim)
  exact ⟨t, E, st', θ', hgives, hreaches, hb', hle, henv.widen hle,
    hΓ.extend hno henv hreaches.extend, hscope.type.imp fun x hx => henv.known_older hno hle hx,
    hscope.equations.imp fun x hx => henv.known_older hno hle hx⟩

/-- What was reached in a stage stays so in the later ones. -/
theorem Stage.later {t : Ty} {E : List Equation} {st' : State} {θ' θ'' : Assignment} {n : Nat}
    (h : Stage b env Γ e st θ τ t E st' θ') (hθ : θ''.IsMono) (hext : θ'.Extends n θ'')
    (hn : st'.number b ≤ n) : Reaches (st.number b) θ t E τ θ'' :=
  h.reaches.later (h.type.imp fun _ hx => hx.widen hn)
    (h.equations.imp fun _ hx => hx.widen hn) (Nat.le_trans h.le hn) hθ hext

theorem complete_binary {op : Op} {l r : Expr} {σ : Ty} (hop : operation? op = some (σ, τ))
    (hl : CompleteRuns b Γ l σ) (hr : CompleteRuns b Γ r σ) :
    CompleteRuns b Γ (.binary op l r) τ := by
  intro env st θ he hb hfit henv hθ hΓ
  obtain ⟨hfl, hfr⟩ := hfit.binary
  obtain ⟨lt, leqs, st₁, θ₁, h₁⟩ := hl.stage he.binary.1 hb hfl henv hθ hΓ
  obtain ⟨rt, reqs, st₂, θ₂, h₂⟩ :=
    hr.stage he.binary.2 h₁.start (hfr h₁.gives) h₁.tidy h₁.reaches.isMono h₁.follows
  have hreach := h₁.later h₂.reaches.isMono h₂.reaches.extend (Nat.le_refl _)
  have hconst : σ.apply θ₂ = σ ∧ τ.apply θ₂ = τ := by
    rcases operation?_eq_some.1 hop with ⟨-, rfl, rfl⟩ | ⟨-, rfl, rfl⟩ | ⟨-, rfl, rfl⟩ <;>
      exact ⟨rfl, rfl⟩
  refine ⟨τ, _, st₂, θ₂, gives_binary.2 ⟨lt, leqs, st₁, rt, reqs, σ, h₁.gives, h₂.gives, hop, rfl⟩,
    h₂.reaches.isMono, hreach.extend, ?_, hconst.2⟩
  simp [hreach.solves, h₂.reaches.solves, hreach.type, h₂.reaches.type, hconst.1]

theorem complete_cons {u v : Expr} (hu : CompleteRuns b Γ u τ)
    (hv : CompleteRuns b Γ v (.list τ)) : CompleteRuns b Γ (.cons u v) (.list τ) := by
  intro env st θ he hb hfit henv hθ hΓ
  obtain ⟨hfu, hfv⟩ := hfit.cons
  obtain ⟨ut, ueqs, st₁, θ₁, h₁⟩ := hu.stage he.cons.1 hb hfu henv hθ hΓ
  obtain ⟨vt, veqs, st₂, θ₂, h₂⟩ :=
    hv.stage he.cons.2 h₁.start (hfv h₁.gives) h₁.tidy h₁.reaches.isMono h₁.follows
  have hreach := h₁.later h₂.reaches.isMono h₂.reaches.extend (Nat.le_refl _)
  refine ⟨_, _, st₂, θ₂, gives_cons.2 ⟨ut, ueqs, st₁, vt, veqs, h₁.gives, h₂.gives, rfl, rfl⟩,
    h₂.reaches.isMono, hreach.extend, ?_, by rw [Ty.apply_list, hreach.type]⟩
  simp [hreach.solves, h₂.reaches.solves, hreach.type, h₂.reaches.type]

theorem complete_cond {c y n : Expr} (hc : CompleteRuns b Γ c .bool) (hy : CompleteRuns b Γ y τ)
    (hn : CompleteRuns b Γ n τ) : CompleteRuns b Γ (.cond c y n) τ := by
  intro env st θ he hb hfit henv hθ hΓ
  obtain ⟨hec, hey, hen⟩ := he.cond
  obtain ⟨hfc, hfrest⟩ := hfit.cond
  obtain ⟨ct, ceqs, st₁, θ₁, h₁⟩ := hc.stage hec hb hfc henv hθ hΓ
  obtain ⟨hfy, hfn⟩ := hfrest h₁.gives
  obtain ⟨yt, yeqs, st₂, θ₂, h₂⟩ :=
    hy.stage hey h₁.start hfy h₁.tidy h₁.reaches.isMono h₁.follows
  obtain ⟨nt, neqs, st₃, θ₃, h₃⟩ :=
    hn.stage hen h₂.start (hfn h₂.gives) h₂.tidy h₂.reaches.isMono h₂.follows
  have hreach₂ := h₂.later h₃.reaches.isMono h₃.reaches.extend (Nat.le_refl _)
  have hreach₁ := h₁.later hreach₂.isMono hreach₂.extend (Nat.le_refl _)
  refine ⟨yt, _, st₃, θ₃, gives_cond.2 ⟨ct, ceqs, st₁, yeqs, st₂, nt, neqs, h₁.gives, h₂.gives,
    h₃.gives, rfl⟩, h₃.reaches.isMono, hreach₁.extend, ?_, hreach₂.type⟩
  simp [hreach₁.solves, hreach₂.solves, h₃.reaches.solves, hreach₁.type, hreach₂.type,
    h₃.reaches.type]

theorem complete_app {f a : Expr} {σ : Ty} (hf : CompleteRuns b Γ f (.arrow σ τ))
    (ha : CompleteRuns b Γ a σ) (hτ : τ.Mono) : CompleteRuns b Γ (.app f a) τ := by
  intro env st θ he hb hfit henv hθ hΓ
  obtain ⟨hff, hfrest⟩ := hfit.app
  obtain ⟨ft, feqs, st₁, θ₁, h₁⟩ := hf.stage he.app.1 hb hff henv hθ hΓ
  obtain ⟨hfa, hfx⟩ := hfrest h₁.gives
  obtain ⟨at_, aeqs, st₂, θ₂, h₂⟩ :=
    ha.stage he.app.2 h₁.start hfa h₁.tidy h₁.reaches.isMono h₁.follows
  obtain ⟨x, st₃, θ₃, hx, -, hθ₃, hext, hxτ⟩ :=
    freshName_complete h₂.start (hfx h₂.gives) h₂.reaches.isMono hτ
  have hreach₂ := h₂.later hθ₃ hext (Nat.le_refl _)
  have hreach₁ := h₁.later hθ₃ hreach₂.extend (Nat.le_refl _)
  refine ⟨.var x, _, st₃, θ₃, gives_app.2 ⟨ft, feqs, st₁, at_, aeqs, st₂, x, h₁.gives, h₂.gives, hx,
    rfl, rfl⟩, hθ₃, hreach₁.extend, ?_, hxτ⟩
  simp [hreach₁.solves, hreach₂.solves, hreach₁.type, hreach₂.type, hxτ]

theorem ascribe_none {t : Ty} {a : Option Ty} (ha : ∀ u ∈ a.toList, False) :
    Gives (ascribe t a) st [] st := by
  cases a with
  | none => exact gives_pure.2 ⟨rfl, rfl⟩
  | some u => exact (ha u (by simp)).elim

theorem complete_lambda {p : Pat} {a : Option Ty} {body : Expr} {σ : Ty} {Δ : TypeEnv}
    (hp : p.HasType σ Δ) (hbody : CompleteRuns b (Δ.union Γ) body τ) :
    CompleteRuns b Γ (.lambda p a body) (.arrow σ τ) := by
  intro env st θ he hb hfit henv hθ hΓ
  obtain ⟨-, hascribed, hebody⟩ := he.lambda
  obtain ⟨hfp, hfbody⟩ := hfit.lambda
  obtain ⟨pt, st₁, θ₁, hgp, hreach₁, hΔ⟩ := pattern_complete hp hb hfp hθ
  obtain ⟨hb₁, hle₁⟩ := hgp.leads (steady_pattern _) hb
  have hscope := pattern_scoped hgp hb (hfp.number_le hgp)
  have hΓ₁ := (hΓ.extend (fun _ => False.elim) henv hreach₁.extend).union hreach₁.isMono
    (fun q hq => (hscope.bindings q hq).mono) hΔ
  obtain ⟨bt, beqs, st₂, θ₂, h₂⟩ := hbody.stage hebody hb₁ (hfbody hgp)
    (henv.union hle₁ hscope.bindings) hreach₁.isMono hΓ₁
  have hreach := hreach₁.later (hscope.type.imp fun _ hx => hx.older)
    (hscope.equations.imp fun _ hx => hx.older) hle₁ h₂.reaches.isMono h₂.reaches.extend
  refine ⟨_, _, st₂, θ₂, gives_lambda.2 ⟨pt, st₁, bt, beqs, st₂, [], hgp, h₂.gives,
    ascribe_none hascribed, rfl, rfl⟩, h₂.reaches.isMono, hreach.extend, ?_, ?_⟩
  · simp [hreach.solves, h₂.reaches.solves]
  · rw [Ty.apply_arrow, hreach.type, h₂.reaches.type]

theorem complete_arms {arms : List (Pat × Expr)} {σ : Ty} {Δ : Pat × Expr → TypeEnv}
    (hp : ∀ arm ∈ arms, arm.1.HasType σ (Δ arm))
    (hbody : ∀ arm ∈ arms, CompleteRuns b ((Δ arm).union Γ) arm.2 τ) {whole : Expr}
    {value result : Ty} (harms : ∀ arm ∈ arms, arm.2.Plain fun _ => False) (hb : st.From b)
    (hfit : Fits b (generateArms whole env value result arms) st)
    (henv : env.Tidy NoNames (st.number b)) (hθ : θ.IsMono) (hΓ : Follows θ env Γ)
    (hvalue : value.Over (Older (st.number b))) (hresult : result.Over (Older (st.number b)))
    (hσ : value.apply θ = σ) (hτ : result.apply θ = τ) :
    ∃ E st' θ', Gives (generateArms whole env value result arms) st E st' ∧
      Reaches (st.number b) θ result E τ θ' := by
  induction arms generalizing st θ with
  | nil => exact ⟨[], st, θ, gives_pure.2 ⟨rfl, rfl⟩, hθ, .refl _ _, by simp, hτ⟩
  | cons arm arms ih =>
    obtain ⟨hfp, hfrest⟩ := hfit.arm
    obtain ⟨pt, st₁, θ₁, hgp, hreach₁, hΔ⟩ := pattern_complete (hp arm (by simp)) hb hfp hθ
    obtain ⟨hb₁, hle₁⟩ := hgp.leads (steady_pattern _) hb
    obtain ⟨hfbody, hfarms⟩ := hfrest hgp
    have hscope := pattern_scoped hgp hb (hfp.number_le hgp)
    have hΓ₁ := hΓ.extend (fun _ => False.elim) henv hreach₁.extend
    obtain ⟨bt, beqs, st₂, θ₂, h₂⟩ := (hbody arm (by simp)).stage (harms arm (by simp)) hb₁ hfbody
      (henv.union hle₁ hscope.bindings) hreach₁.isMono
      (hΓ₁.union hreach₁.isMono (fun q hq => (hscope.bindings q hq).mono) hΔ)
    have hle : st.number b ≤ st₂.number b := Nat.le_trans hle₁ h₂.le
    have hext : θ.Extends (st.number b) θ₂ := hreach₁.extend.trans h₂.reaches.extend hle₁
    have hwide : ∀ x, Older (st.number b) x → Older (st₂.number b) x := fun x hx => hx.widen hle
    obtain ⟨eqs, st₃, θ₃, hgarms, hreach₃⟩ := ih (fun a ha => hp a (List.mem_cons_of_mem _ ha))
      (fun a ha => hbody a (List.mem_cons_of_mem _ ha))
      (fun a ha => harms a (List.mem_cons_of_mem _ ha)) h₂.start (hfarms h₂.gives)
      (henv.widen hle) h₂.reaches.isMono (hΓ.extend (fun _ => False.elim) henv hext)
      (hvalue.imp hwide) (hresult.imp hwide) ((hext.apply_eq hvalue).trans hσ)
      ((hext.apply_eq hresult).trans hτ)
    have hbodyreach := h₂.later hreach₃.isMono hreach₃.extend (Nat.le_refl _)
    have hpatreach := hreach₁.later (hscope.type.imp fun _ hx => hx.older)
      (hscope.equations.imp fun _ hx => hx.older) hle₁ hreach₃.isMono hbodyreach.extend
    have hvaluereach : value.apply θ₃ = σ := (hpatreach.extend.apply_eq hvalue).trans hσ
    refine ⟨_, st₃, θ₃, gives_arm.2 ⟨pt, st₁, bt, beqs, st₂, eqs, hgp, h₂.gives, hgarms, rfl⟩,
      hreach₃.isMono, hpatreach.extend, ?_, hreach₃.type⟩
    simp [hpatreach.solves, hbodyreach.solves, hreach₃.solves, hpatreach.type, hbodyreach.type,
      hvaluereach, hreach₃.type]

theorem complete_select {v : Expr} {arms : List (Pat × Expr)} {σ : Ty}
    {Δ : Pat × Expr → TypeEnv} (hv : CompleteRuns b Γ v σ)
    (hp : ∀ arm ∈ arms, arm.1.HasType σ (Δ arm))
    (hbody : ∀ arm ∈ arms, CompleteRuns b ((Δ arm).union Γ) arm.2 τ) (hτ : τ.Mono) :
    CompleteRuns b Γ (.select v arms) τ := by
  intro env st θ he hb hfit henv hθ hΓ
  obtain ⟨hev, hearms⟩ := he.select
  obtain ⟨hfv, hfrest⟩ := hfit.select
  obtain ⟨vt, veqs, st₁, θ₁, h₁⟩ := hv.stage hev hb hfv henv hθ hΓ
  obtain ⟨hfx, hfarms⟩ := hfrest h₁.gives
  obtain ⟨x, st₂, θ₂, hx, hminted, hθ₂, hext, hxτ⟩ :=
    freshName_complete h₁.start hfx h₁.reaches.isMono hτ
  obtain ⟨hb₂, hle₂⟩ := hx.leads steady_freshName h₁.start
  have hreach₁ := h₁.later hθ₂ hext (Nat.le_refl _)
  obtain ⟨eqs, st₃, θ₃, hgarms, hreach₃⟩ := complete_arms hp hbody
    (fun arm harm => (hearms arm harm).2) hb₂ (hfarms hx) (h₁.tidy.widen hle₂) hθ₂
    (h₁.follows.extend (fun _ => False.elim) h₁.tidy hext)
    (h₁.type.imp fun _ hy => hy.widen hle₂) (Ty.over_var.2 hminted.older) hreach₁.type hxτ
  have hreach := h₁.later hreach₃.isMono (hext.trans hreach₃.extend hle₂) (Nat.le_refl _)
  refine ⟨.var x, _, st₃, θ₃, gives_select.2 ⟨vt, veqs, st₁, x, st₂, eqs, h₁.gives, hx, rfl, hgarms,
    rfl⟩, hreach₃.isMono, hreach.extend, ?_, hreach₃.type⟩
  simp [hreach.solves, hreach₃.solves]

/-- A definition, given that its scheme is matched by the environment of the statements
after it. -/
theorem complete_definition {k : Binder} {p : Pat} {a : Option Ty} {v s : Expr} {ss : List Expr}
    {σ : Ty} {Γ' : TypeEnv} (hp : p.isList = false)
    (hliteral : ∀ (t : Ty) (θ : Assignment), t.apply θ = σ → θ.Solves (literal p t))
    (hv : CompleteRuns b Γ v σ)
    (hfollows : ∀ {env m n n' t eqs sol scheme θ}, env.Tidy NoNames m →
      Defined NoNames env m n n' t eqs sol scheme → θ.IsMono → θ.Solves eqs → t.apply θ = σ →
      Follows θ env Γ → Follows θ (assume env p scheme) Γ')
    (hss : CompleteRuns b Γ' (.block (s :: ss)) τ) :
    CompleteRuns b Γ (.block (.define k p a v :: s :: ss)) τ := by
  intro env st θ he hb hfit henv hθ hΓ
  have hno : ∀ x, NoNames x → Older 0 x := fun _ => False.elim
  obtain ⟨-, hascribed, hev⟩ := (he.stmt List.mem_cons_self).define
  obtain ⟨hfv, hfrest⟩ := hfit.block_define hp
  obtain ⟨vt, veqs, st₁, θ₁, h₁⟩ := hv.stage hev hb hfv henv hθ hΓ
  have hascribe : Gives (ascribe vt a) st₁ [] st₁ := ascribe_none hascribed
  obtain ⟨hfgen, hfss⟩ := hfrest h₁.gives hascribe
  have hsolves : θ₁.Solves (veqs ++ [] ++ literal p vt) := by
    simp [h₁.reaches.solves, hliteral vt θ₁ h₁.reaches.type]
  have hmono : AllMono (veqs ++ [] ++ literal p vt) :=
    (allOver_append.2 ⟨allOver_append.2 ⟨h₁.equations, allOver_nil _⟩,
      allOver_literal h₁.type⟩).allMono
  -- the derivation solves the definition's own equations, so generalising does not fail
  obtain ⟨sol, hsol, -⟩ := unify_complete hmono hsolves
  obtain ⟨scheme, st₂, hgen⟩ := generalize_gives hsol env vt st₁
  obtain ⟨hb₂, hle₂⟩ := hgen.leads (steady_generalize _ _ _) h₁.start
  obtain ⟨sol', hdef⟩ := define_scoped hno h₁.gives hascribe hgen hb (hfgen.number_le hgen) henv
    (hev.imp fun _ => False.elim).ascribes (fun u hu => (hascribed u hu).elim) (scopedRuns hno v)
  obtain ⟨t, eqs, st₃, θ₃, hgss, hreach₃⟩ := hss he.block_cons.2 hb₂ (hfss hgen)
    (hdef.tidy hno henv p) h₁.reaches.isMono
    (hfollows henv hdef h₁.reaches.isMono hsolves h₁.reaches.type h₁.follows)
  have hreach := h₁.later hreach₃.isMono hreach₃.extend hle₂
  refine ⟨t, _, st₃, θ₃, gives_block_define.2 ⟨hp, vt, veqs, st₁, [], st₁, scheme, st₂, eqs,
    h₁.gives, hascribe, hgen, hgss, rfl⟩, hreach₃.isMono, hreach.extend, ?_, hreach₃.type⟩
  simp [hreach.solves, hliteral vt θ₃ hreach.type, hreach₃.solves]

theorem complete_define {k : Binder} {x : String} {a : Option Ty} {v s : Expr} {ss : List Expr}
    {ys : List String} {σ : Ty} (hσ : σ.Mono) (hv : CompleteRuns b Γ v σ)
    (hys : ∀ y ∈ ys, ¬Γ.Free y)
    (hss : CompleteRuns b (Γ.set x (Ty.bindAll ys σ)) (.block (s :: ss)) τ) :
    CompleteRuns b Γ (.block (.define k (.ident x) a v :: s :: ss)) τ := by
  refine complete_definition rfl (fun _ _ _ => Assignment.solves_nil _) hv ?_ hss
  rintro env m n n' t eqs sol scheme θ henv hdef hθ hsolves rfl hΓ
  exact hΓ.set (hσ.bindAll ys).1
    (fun τ hτ => generalize_complete henv hdef hθ hsolves hΓ hys hτ) x

theorem complete_discard {k : Binder} {p : Pat} {a : Option Ty} {v s : Expr} {ss : List Expr}
    {σ : Ty} {Δ : TypeEnv} (hp : p = .wildcard ∨ p.isLiteral) (hpσ : p.HasType σ Δ)
    (hv : CompleteRuns b Γ v σ) (hss : CompleteRuns b Γ (.block (s :: ss)) τ) :
    CompleteRuns b Γ (.block (.define k p a v :: s :: ss)) τ := by
  cases hpσ with
  | number | string | boolean | unit =>
    refine complete_definition rfl (fun t θ heq => by simp [literal, heq]) hv ?_ hss
    exact fun _ _ _ _ _ hΓ => hΓ
  | wildcard =>
    refine complete_definition rfl (fun _ _ _ => Assignment.solves_nil _) hv ?_ hss
    exact fun _ _ _ _ _ hΓ => hΓ
  | ident | nil | cons => rcases hp with hp | hp <;> cases hp

end

/-- **Inference reaches every type that the rules derive.** -/
theorem generate_complete {b : Nat} {Γ : TypeEnv} {e : Expr} {τ : Ty} (h : HasType Γ e τ) :
    CompleteRuns b Γ e τ := by
  have hblock : ∀ {Γ : TypeEnv} {ss : List Expr} {τ : Ty}, HasType Γ (.block ss) τ →
      ∃ s ss', ss = s :: ss' := by
    intro Γ ss τ h
    cases h <;> exact ⟨_, _, rfl⟩
  induction h with
  | number | string | boolean | unit =>
    intro env st θ he hb hfit henv hθ hΓ
    exact ⟨_, [], st, θ, gives_pure.2 ⟨rfl, rfl⟩, hθ, .refl _ _, by simp, rfl⟩
  | @nil Γ τ hτ =>
    intro env st θ he hb hfit henv hθ hΓ
    obtain ⟨x, st', θ', hx, -, hθ', hext, hxτ⟩ :=
      freshName_complete hb (hfit.first fun _ => steady_pure _) hθ hτ
    exact ⟨_, [], st', θ', gives_nil.2 ⟨x, hx, rfl, rfl⟩, hθ', hext, by simp, by simp [hxτ]⟩
  | @ident Γ x S τ hx hi hτ =>
    intro env st θ he hb hfit henv hθ hΓ
    obtain ⟨σ, hσ, -, hinst⟩ := hΓ.get? hx
    have hmem := TypeEnv.mem_of_get? hσ
    obtain ⟨t, st', hgives⟩ := instantiate_gives σ st
    have hgen := gives_ident.2 ⟨σ, hσ, hgives, rfl⟩
    obtain ⟨-, -, hcomplete⟩ := gives_instantiate hgives hb (hfit.number_le hgen)
      (henv.prenex _ hmem) (fun y hy => (henv.binders _ hmem y hy).older)
      fun y hy => henv.known_older (fun _ => False.elim) (Nat.le_refl _) (.inl ⟨x, σ, hσ, hy⟩)
    obtain ⟨θ', hθ', hext, heq⟩ := hcomplete θ τ hθ (hinst τ hi)
    exact ⟨t, [], st', θ', hgen, hθ', hext, by simp, heq⟩
  | arithmetic hop _ _ ihl ihr =>
    exact complete_binary (operation?_eq_some.2 (.inl ⟨hop, rfl, rfl⟩)) ihl ihr
  | relational hop _ _ ihl ihr =>
    exact complete_binary (operation?_eq_some.2 (.inr (.inl ⟨hop, rfl, rfl⟩))) ihl ihr
  | logical hop _ _ ihl ihr =>
    exact complete_binary (operation?_eq_some.2 (.inr (.inr ⟨hop, rfl, rfl⟩))) ihl ihr
  | cons _ _ ihu ihv => exact complete_cons ihu ihv
  | cond _ _ _ ihc ihy ihn => exact complete_cond ihc ihy ihn
  | lambda hp _ ih => exact complete_lambda hp ih
  | app hf _ ihf iha => exact complete_app ihf iha hf.mono.2
  | last _ ih =>
    intro env st θ he hb hfit henv hθ hΓ
    rw [Fits, outcome_block_last] at hfit
    obtain ⟨t, E, st', θ', hgives, hreach⟩ := ih (he.stmt (by simp)) hb hfit henv hθ hΓ
    exact ⟨t, E, st', θ', by rwa [Gives, outcome_block_last], hreach⟩
  | define hv hys hss ihv ihss =>
    obtain ⟨s, ss', rfl⟩ := hblock hss
    exact complete_define hv.mono ihv hys ihss
  | discard hp hpσ _ hss ihv ihss =>
    obtain ⟨s, ss', rfl⟩ := hblock hss
    exact complete_discard hp hpσ ihv ihss
  | select _ hp _ hτ ihv iharms => exact complete_select ihv hp iharms hτ

end Infer

/-- **Inference finds principal types.**  If the rules derive a type for an expression
without ascriptions then inference succeeds, and the type is an instance of the one
that is inferred, as long as the variables that are taken are numbered by words. -/
theorem infer_principal (ctx : Context) (e : Expr) (τ : Ty) (he : e.Plain fun _ => False)
    (h : HasType .empty e τ) (hcount : (ctx.infer .empty e).2.supply.count < Supply.capacity) :
    ∃ t, (ctx.infer .empty e).1 = .ok t ∧ ∃ θ : Assignment, θ.IsMono ∧ t.apply θ = τ := by
  have hmissing : e ≠ .missing := by
    rintro rfl
    cases h
  obtain ⟨hresult, hsupply⟩ := ctx.infer_outcome .empty hmissing
  have hfit : Infer.Fits 1 (Infer.infer .empty e) (ctx.initial .empty) := by
    rw [Infer.Fits, Infer.State.number, ← hsupply]
    omega
  have hfit : Infer.Fits 1 (Infer.generate .empty e) (ctx.initial .empty) :=
    hfit.first fun _ => (Infer.steady_solve _).bind fun _ => (Infer.steady_tell _).bind fun _ =>
      Infer.steady_pure _
  have hno : ∀ x, Infer.NoNames x → Older 0 x := fun _ => False.elim
  have henv := TypeEnv.tidy_empty Infer.NoNames ((ctx.initial .empty).number 1)
  obtain ⟨t, E, st, θ, hgen, hreach⟩ := Infer.generate_complete h he ctx.initial_empty_from hfit
    henv Assignment.isMono_var (follows_empty _)
  have hscope := Infer.generate_scoped hno e hgen ctx.initial_empty_from (hfit.number_le hgen) henv
    (he.imp fun _ => False.elim)
  obtain ⟨s, hs, hagree⟩ := unify_complete hscope.equations.allMono hreach.solves
  have hrun := Infer.gives_infer.2 ⟨t, E, st, s, hgen, hs, rfl, rfl⟩
  rw [hrun] at hresult
  refine ⟨s.resolve t, ?_, θ, hreach.isMono, (Solution.apply_resolve hagree t).trans hreach.type⟩
  cases hok : (ctx.infer .empty e).1 with
  | error err => rw [hok] at hresult; cases hresult
  | ok u => rw [hok] at hresult; cases hresult; rfl

/-- The identity function at two types, one of them a function type. -/
theorem infer_principal_identity :
    let e : Expr := .block [
      .define .val (.ident "id") none (.lambda (.ident "x") none (.ident "x")),
      .app (.app (.ident "id") (.ident "id")) (.number 1)]
    e.Plain (fun _ => False) ∧ HasType .empty e .int ∧
      (Context.infer {} .empty e).2.supply.count = 6 ∧
      ∃ t, (Context.infer {} .empty e).1 = .ok t ∧
        ∃ θ : Assignment, θ.IsMono ∧ t.apply θ = .int := by
  intro e
  have he : e.Plain fun _ => False := by decide
  have hid : ∀ {Γ : TypeEnv} (u : Ty), u.Mono →
      HasType (Γ.set "id" (Ty.bindAll ["a"] (.arrow (.var "a") (.var "a")))) (.ident "id")
        (.arrow u u) := fun u hu =>
    .ident (TypeEnv.get?_set_self _ _ _) ⟨u, hu, by simp [Ty.Instance, Assignment.set]⟩ ⟨hu, hu⟩
  have h : HasType .empty e .int := by
    refine .define (σ := .arrow (.var "a") (.var "a"))
      (.lambda (.ident trivial) (.ident rfl rfl trivial)) ?_
      (.last (.app (.app (hid (.arrow .int .int) ⟨trivial, trivial⟩) (hid .int trivial)) .number))
    rintro y - ⟨z, σ, hz, -⟩
    cases hz
  have hcount : (Context.infer {} .empty e).2.supply.count = 6 := by
    cbv
    simp only [Infer.instantiate]
    cbv
    simp only [Infer.instantiate]
    cbv
  exact ⟨he, h, hcount, infer_principal {} e .int he h (by rw [hcount]; decide)⟩

end LetPoly
