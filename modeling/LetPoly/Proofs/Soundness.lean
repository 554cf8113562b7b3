import LetPoly.Proofs.Scope

/-! # Soundness of inference

Whatever inference finds, the rules derive: if an assignment of monotypes solves the
equations of an expression, then the rules give the expression the type that the
assignment makes of its type (`Infer.generate_sound`).  The type that inference
returns is resolved by a solution of all the equations, and an assignment after the
solution solves them too; so every instance of the type is derivable
(`infer_hasType`).

The step that carries the proof is a definition (`Infer.generalize_sound`).  Its
scheme was made from its own equations, while the assignment also solves those that
come later.  The variables that were generalised are not free in the resolved
environment, so they can be given new names in the assignment without changing what
it says of the environment, and the rules can generalise over these names.
-/

namespace LetPoly

/-- Names that a list does not have, one for every name, from which the names can be
read back. -/
theorem exists_fresh (avoid : List String) :
    ∃ f g : String → String, (∀ x, g (f x) = x) ∧ ∀ x, f x ∉ avoid := by
  obtain ⟨k, hk⟩ : ∃ k, ∀ y ∈ avoid, y.toList.length ≤ k := by
    induction avoid with
    | nil => exact ⟨0, by simp⟩
    | cons y ys ih =>
      obtain ⟨k, hk⟩ := ih
      refine ⟨y.toList.length + k, fun z hz => ?_⟩
      rcases List.mem_cons.1 hz with rfl | hz
      · omega
      · have := hk z hz
        omega
  refine ⟨fun x => String.ofList (List.replicate (k + 1) 'a' ++ x.toList),
    fun y => String.ofList (y.toList.drop (k + 1)), fun x => by simp, fun x hx => ?_⟩
  have := hk _ hx
  simp only [String.toList_ofList, List.length_append, List.length_replicate] at this
  omega

/-! ## Environments that the rules and inference use -/

/-- Every scheme of `Γ` has the instances that `env` has under the assignment. -/
def Covers (Γ : TypeEnv) (θ : Assignment) (env : TypeEnv) : Prop :=
  ∀ x σ, env.get? x = some σ →
    ∃ S, Γ.get? x = some S ∧ ∀ τ, σ.Instance θ τ → S.Instance .var τ

theorem covers_empty (θ : Assignment) : Covers .empty θ .empty := by
  intro x σ h
  cases h

theorem Covers.congr {Γ env : TypeEnv} {θ θ' : Assignment} (h : Covers Γ θ env)
    (henv : ∀ p ∈ env.bindings, p.2.Prenex) (hθ : ∀ x, env.Free x → θ' x = θ x) :
    Covers Γ θ' env := by
  intro x σ hx
  obtain ⟨S, hS, hi⟩ := h x σ hx
  exact ⟨S, hS, fun τ hτ => hi τ ((henv _ (TypeEnv.mem_of_get? hx)).instance_congr
    (fun y hy => hθ y ⟨x, σ, hx, hy⟩) hτ)⟩

theorem Covers.set {Γ env : TypeEnv} {θ : Assignment} (h : Covers Γ θ env) {σ S : Ty}
    (hS : ∀ τ, σ.Instance θ τ → S.Instance .var τ) (x : String) :
    Covers (Γ.set x S) θ (env.set x σ) := by
  intro y τ hy
  by_cases hyx : y = x
  · subst hyx
    rw [TypeEnv.get?_set_self, Option.some.injEq] at hy
    exact ⟨S, TypeEnv.get?_set_self _ _ _, hy ▸ hS⟩
  · rw [TypeEnv.get?_set_of_ne _ _ hyx] at hy ⊢
    exact h y τ hy

theorem Covers.union {Γ Δ env B : TypeEnv} {θ : Assignment} (h : Covers Γ θ env)
    (hθ : θ.IsMono) (hB : ∀ p ∈ B.bindings, p.2.Mono)
    (hΔ : ∀ x, Δ.get? x = (B.get? x).map (Ty.apply θ)) : Covers (Δ.union Γ) θ (B.union env) := by
  intro x σ hx
  rw [TypeEnv.get?_union] at hx ⊢
  rw [hΔ]
  cases hBx : B.get? x with
  | none =>
    rw [hBx, Option.none_or] at hx
    exact h x σ hx
  | some t =>
    rw [hBx, Option.some_or, Option.some.injEq] at hx
    subst hx
    have ht := hB _ (TypeEnv.mem_of_get? hBx)
    refine ⟨t.apply θ, rfl, fun τ hτ => ?_⟩
    rw [ht.instance_iff] at hτ
    rw [(ht.apply hθ).instance_iff, Ty.apply_id]
    exact hτ

namespace Infer
open Equation

theorem pattern_sound {p : Pat} {st st' : State} {pt : PatternType} {θ : Assignment}
    (h : Gives (pattern p) st pt st') (hθ : θ.IsMono) (hs : θ.Solves pt.equations) :
    ∃ Δ, p.HasType (pt.type.apply θ) Δ ∧
      ∀ x, Δ.get? x = (pt.bindings.get? x).map (Ty.apply θ) := by
  induction p generalizing st st' pt with
  | number | string | boolean | unit =>
    obtain ⟨rfl, -⟩ := gives_pure.1 h
    exact ⟨{}, by constructor, fun _ => rfl⟩
  | wildcard | nil =>
    obtain ⟨_, _, hfresh, h⟩ := gives_bind.1 h
    obtain ⟨x, -, rfl⟩ := gives_fresh.1 hfresh
    obtain ⟨rfl, rfl⟩ := gives_pure.1 h
    exact ⟨{}, by constructor; exact hθ x, fun _ => rfl⟩
  | ident z =>
    obtain ⟨_, _, hfresh, h⟩ := gives_bind.1 h
    obtain ⟨x, -, rfl⟩ := gives_fresh.1 hfresh
    obtain ⟨rfl, rfl⟩ := gives_pure.1 h
    refine ⟨_, .ident (hθ x), fun y => ?_⟩
    by_cases hy : y = z
    · subst hy
      simp only [TypeEnv.get?_set_self, Option.map_some, Ty.apply_var]
    · simp only [TypeEnv.get?_set_of_ne _ _ hy]
      rfl
  | cons p q ihp ihq =>
    obtain ⟨ht, st₁, tt, hp, hq, rfl⟩ := gives_pattern_cons.1 h
    simp only [Assignment.solves_append, Assignment.solves_cons, Ty.apply_list] at hs
    obtain ⟨Δ, hpt, hΔ⟩ := ihp hp hs.1.1
    obtain ⟨Δ', hqt, hΔ'⟩ := ihq hq hs.1.2
    rw [← hs.2.1] at hqt
    refine ⟨Δ.union Δ', .cons hpt hqt, fun x => ?_⟩
    rw [TypeEnv.get?_union, TypeEnv.get?_union, hΔ, hΔ', Option.map_or]
  | missing => exact absurd h gives_fail

/-! ## Definitions -/

/-- Resolving what is free in a tidy environment leads to nothing that is
generalised. -/
theorem not_mem_generalized {A : String → Prop} (hA : ∀ x, A x → Older 0 x) {env : TypeEnv}
    {m n : Nat} (henv : env.Tidy A m) {eqs : List Equation} {s : Solution} {t : Ty}
    (heqs : AllOver (env.Known A m n) eqs) (hs : unify eqs = .ok s) {x y : String}
    (hx : env.Free x) (hy : y ∈ (s.resolve (.var x)).occurrences) : y ∉ generalized s env t := by
  intro hmem
  obtain ⟨z, σ, hz, hxσ⟩ := hx
  have hprenex := henv.prenex _ (TypeEnv.mem_of_get? hz)
  refine (mem_generalized.1 hmem).2 _ (TypeEnv.mem_of_get? hz) ?_
  have hmono : Assignment.IsMono fun x => s.resolve (.var x) := fun _ =>
    Solution.resolve_mono (unify_mono heqs.allMono hs) trivial
  obtain ⟨hres, hbinders⟩ := hprenex.apply hmono
  have hover : (s.resolve (.var x)).Over (env.Known A m n) :=
    unify_resolve_over heqs hs (Ty.over_var.2 (.inl ⟨z, σ, hz, hxσ⟩))
  rw [Solution.resolve_eq_apply, hres.mem_freeOccurrences, hbinders]
  exact ⟨Ty.mem_occurrences_apply.2 ⟨x, (hprenex.mem_freeOccurrences.1 hxσ).1, hy⟩,
    henv.known_not_binder hA (hover.2 y hy) (TypeEnv.mem_of_get? hz)⟩

/-- An assignment that solves equations agrees with the solution that was found. -/
theorem Solves.apply_resolve {θ : Assignment} {eqs : List Equation} {s : Solution}
    (hm : AllMono eqs) (hθ : θ.Solves eqs) (hs : unify eqs = .ok s) (t : Ty) :
    (s.resolve t).apply θ = t.apply θ := by
  obtain ⟨s', hs', hagree⟩ := unify_complete hm hθ
  rw [hs', Except.ok.injEq] at hs
  exact Solution.apply_resolve (hs ▸ hagree) t

/-- An assignment after a solution solves the equations. -/
theorem solves_after {eqs : List Equation} {s : Solution} (hm : AllMono eqs)
    (hs : unify eqs = .ok s) (θ : Assignment) :
    Assignment.Solves (fun x => (s.resolve (.var x)).apply θ) eqs := by
  intro q hq
  rw [← Ty.apply_apply, ← Ty.apply_apply, unify_resolve_solves hm.apart hs q hq]

/-- **A definition can be generalised by the rules as it was by inference.** -/
theorem generalize_sound {A : String → Prop} (hA : ∀ x, A x → Older 0 x) {env Γ : TypeEnv}
    {m n n' : Nat} (henv : env.Tidy A m) {eqs : List Equation} {s : Solution} {t σ : Ty}
    (hdef : Defined A env m n n' t eqs s σ) {θ : Assignment} (hθ : θ.IsMono)
    (hsolves : θ.Solves eqs) (hΓ : Covers Γ θ env) {v : Expr}
    (hv : ∀ θ' : Assignment, θ'.IsMono → θ'.Solves eqs → Covers Γ θ' env →
      HasType Γ v (t.apply θ')) :
    ∃ ys τ, (∀ y ∈ ys, ¬Γ.Free y) ∧ HasType Γ v τ ∧
      ∀ τ', σ.Instance θ τ' → (Ty.bindAll ys τ).Instance .var τ' := by
  have heqs := hdef.inScope.equations
  have hs := hdef.solution
  -- new names for the generalised variables, that neither `Γ` nor the assignment has
  obtain ⟨f, g, hgf, hfresh⟩ :=
    exists_fresh (Γ.freeVars ++ (s.resolve t).occurrences.flatMap fun x => (θ x).occurrences)
  have hfΓ : ∀ x, ¬Γ.Free (f x) := fun x hx =>
    hfresh x (List.mem_append_left _ hx.mem_freeVars)
  have hfθ : ∀ x z, z ∈ (s.resolve t).occurrences → f x ∉ (θ z).occurrences := fun x z hz hx =>
    hfresh x (List.mem_append_right _ (List.mem_flatMap.2 ⟨z, hz, hx⟩))
  -- the value is typed after the solution, with the new names for what is generalised
  let G := generalized s env t
  let ρ : Assignment := θ.override G fun x => .var (f x)
  let θ' : Assignment := fun x => (s.resolve (.var x)).apply ρ
  have hρ : ρ.IsMono := hθ.override G fun _ => trivial
  have hresolve : ∀ x, (s.resolve (.var x)).Mono := fun x =>
    Solution.resolve_mono (unify_mono heqs.allMono hs) trivial
  -- what is free in the environment is not among it, and is as `θ` has it
  have hcover : Covers Γ θ' env := by
    refine hΓ.congr henv.prenex fun x hx => ?_
    have hcongr : (s.resolve (.var x)).apply ρ = (s.resolve (.var x)).apply θ :=
      Ty.apply_congr fun y hy => Assignment.override_of_not_mem
        (not_mem_generalized hA henv heqs hs hx hy)
    exact hcongr.trans (Solves.apply_resolve heqs.allMono hsolves hs _)
  have htype : t.apply θ' = (s.resolve t).apply ρ := by
    rw [Solution.resolve_eq_apply, Ty.apply_apply]
  refine ⟨G.map f, (s.resolve t).apply ρ, ?_, ?_, fun τ' hτ' => ?_⟩
  · intro y hy
    obtain ⟨x, -, rfl⟩ := List.mem_map.1 hy
    exact hfΓ x
  · rw [← htype]
    exact hv θ' (fun x => (hresolve x).apply hρ) (solves_after heqs.allMono hs ρ) hcover
  · -- what the variables are given, their new names are given
    obtain ⟨δ, hδ, rfl⟩ := (hdef.generalizes.instance_iff θ τ').1 hτ'
    have hmono : ((s.resolve t).apply ρ).Mono := hdef.resolved.mono.apply hρ
    refine Ty.instance_bindAll.2 ⟨fun y => δ (g y), fun y => hδ _, hmono.instance_iff.2 ?_⟩
    rw [Ty.apply_apply]
    refine Ty.apply_congr fun x hx => ?_
    by_cases hxG : x ∈ G
    · show θ.override G δ x = (θ.override G (fun x => .var (f x)) x).apply _
      rw [Assignment.override_of_mem hxG, Assignment.override_of_mem hxG, Ty.apply_var,
        Assignment.override_of_mem (List.mem_map_of_mem hxG), hgf]
    · show θ.override G δ x = (θ.override G (fun x => .var (f x)) x).apply _
      rw [Assignment.override_of_not_mem hxG, Assignment.override_of_not_mem hxG]
      refine (Ty.apply_eq_self fun y hy => Assignment.override_of_not_mem fun hmem => ?_).symm
      obtain ⟨z, -, rfl⟩ := List.mem_map.1 hmem
      exact hfθ z x hx hy

/-! ## Expressions -/

/-- Whatever assignment solves the equations of a run on the expression, the rules
derive the type that it makes. -/
def SoundRuns (A : String → Prop) (b : Nat) (e : Expr) : Prop :=
  ∀ ⦃env Γ : TypeEnv⦄ ⦃st st' : State⦄ ⦃t : Ty⦄ ⦃E : List Equation⦄ ⦃θ : Assignment⦄,
    Gives (generate env e) st (t, E) st' → st.From b → st'.number b ≤ Supply.capacity →
    env.Tidy A (st.number b) → e.Plain (Ty.Ascribable A) → θ.IsMono → θ.Solves E →
    Covers Γ θ env → HasType Γ e (t.apply θ)

/-- A literal pattern takes values of the type that its equation asks for. -/
theorem discard_hasType {p : Pat} {t : Ty} {θ : Assignment} (hp : p.isList = false)
    (hmissing : p ≠ .missing) (hident : ∀ x, p ≠ .ident x) (ht : (t.apply θ).Mono)
    (hs : θ.Solves (literal p t)) :
    (p = .wildcard ∨ p.isLiteral) ∧ ∃ Δ, p.HasType (t.apply θ) Δ := by
  cases p with
  | number | string | boolean | unit =>
    simp only [literal, Assignment.solves_cons] at hs
    refine ⟨.inr rfl, {}, ?_⟩
    rw [← hs.1]
    constructor
  | wildcard => exact ⟨.inl rfl, {}, .wildcard ht⟩
  | ident x => exact absurd rfl (hident x)
  | cons | nil => cases hp
  | missing => exact absurd rfl hmissing

section
variable {A : String → Prop} (hA : ∀ x, A x → Older 0 x) {b : Nat}

theorem arms_sound {arms : List (Pat × Expr)} (ih : ∀ arm ∈ arms, SoundRuns A b arm.2)
    {whole : Expr} {env Γ : TypeEnv} {value result : Ty} {st st' : State} {E : List Equation}
    {θ : Assignment} (h : Gives (generateArms whole env value result arms) st E st')
    (hb : st.From b) (hfit : st'.number b ≤ Supply.capacity) (henv : env.Tidy A (st.number b))
    (harms : ∀ arm ∈ arms, arm.2.Plain (Ty.Ascribable A)) (hθ : θ.IsMono) (hs : θ.Solves E)
    (hΓ : Covers Γ θ env) :
    ∀ arm ∈ arms, ∃ Δ, arm.1.HasType (value.apply θ) Δ ∧
      HasType (Δ.union Γ) arm.2 (result.apply θ) := by
  induction arms generalizing st E with
  | nil => simp
  | cons arm arms iharms =>
    obtain ⟨pt, st₁, bt, beqs, st₂, eqs, hp, hbody, hrest, rfl⟩ := gives_arm.1 h
    obtain ⟨hb₁, hle₁⟩ := hp.leads (steady_pattern _) hb
    obtain ⟨hb₂, hle₂⟩ := hbody.leads (steady_generate _ _) hb₁
    obtain ⟨-, hle₃⟩ := hrest.leads (steady_generateArms _ _ _ _ _) hb₂
    simp only [Assignment.solves_append, Assignment.solves_cons, Assignment.solves_nil,
      and_true] at hs
    obtain ⟨⟨⟨hspat, hsbody⟩, hpv, hbr⟩, hsrest⟩ := hs
    have hscope := pattern_scoped hp hb (by omega)
    obtain ⟨Δ, hpt, hΔ⟩ := pattern_sound hp hθ hspat
    have hbt := ih arm (by simp) hbody hb₁ (by omega) (henv.union hle₁ hscope.bindings)
      (harms arm (by simp)) hθ hsbody
      (hΓ.union hθ (fun q hq => (hscope.bindings q hq).mono) hΔ)
    intro arm' harm'
    rcases List.mem_cons.1 harm' with rfl | harm'
    · exact ⟨Δ, hpv ▸ hpt, hbr ▸ hbt⟩
    · exact iharms (fun a ha => ih a (List.mem_cons_of_mem _ ha)) hrest hb₂
        (henv.widen (by omega)) (fun a ha => harms a (List.mem_cons_of_mem _ ha)) hsrest
        arm' harm'

include hA

theorem block_sound {ss : List Expr} (ih : ∀ s ∈ ss, SoundRuns A b s)
    (ihd : ∀ k p a v, .define k p a v ∈ ss → SoundRuns A b v) : SoundRuns A b (.block ss) := by
  induction ss with
  | nil => exact fun _ _ _ _ _ _ _ h => absurd h gives_blame
  | cons s ss ihss =>
    intro env Γ st st' t E θ h hb hfit henv he hθ hs hΓ
    cases ss with
    | nil =>
      rw [Gives, outcome_block_last] at h
      exact .last (ih s (by simp) h hb hfit henv (he.stmt (by simp)) hθ hs hΓ)
    | cons s' ss =>
      obtain ⟨hisdef, hrest⟩ := he.block_cons
      obtain ⟨k, p, a, v, rfl⟩ := Expr.isDefinition_iff.1 hisdef
      obtain ⟨hmissing, hascribed, hv⟩ := (he.stmt List.mem_cons_self).define
      obtain ⟨hlist, vt, veqs, st₁, aeqs, st₂, σ, st₃, eqs, hgv, hga, hgσ, hgss, rfl⟩ :=
        gives_block_define.1 h
      obtain ⟨hb₁, -⟩ := hgv.leads (steady_generate _ _) hb
      obtain ⟨hb₂, hle₂⟩ := hga.leads (steady_ascribe _ _) hb₁
      obtain ⟨hb₃, hle₃⟩ := hgσ.leads (steady_generalize _ _ _) hb₂
      obtain ⟨-, hle₄⟩ := hgss.leads (steady_generate _ _) hb₃
      obtain ⟨sol, hdef⟩ := define_scoped hA hgv hga hgσ hb (by omega) henv hv.ascribes
        hascribed (scopedRuns hA v)
      rw [Assignment.solves_append] at hs
      -- for any assignment, since a name's value is not typed under `θ` itself
      have hvt : ∀ θ' : Assignment, θ'.IsMono → θ'.Solves (veqs ++ aeqs ++ literal p vt) →
          Covers Γ θ' env → HasType Γ v (vt.apply θ') := fun θ' hθ' hs' hΓ' =>
        ihd k p a v (by simp) hgv hb (by omega) henv hv hθ'
          (Assignment.solves_append.1 (Assignment.solves_append.1 hs').1).1 hΓ'
      have hblock : ∀ {Γ'}, Covers Γ' θ (assume env p σ) →
          HasType Γ' (.block (s' :: ss)) (t.apply θ) := fun hΓ' =>
        ihss (fun e he => ih e (List.mem_cons_of_mem _ he))
          (fun k p a v he => ihd k p a v (List.mem_cons_of_mem _ he)) hgss hb₃ hfit
          (hdef.tidy hA henv p) hrest hθ hs.2 hΓ'
      cases p with
      | ident x =>
        obtain ⟨ys, τ, hys, hτ, hinst⟩ := generalize_sound hA henv hdef hθ hs.1 hΓ hvt
        exact .define hτ hys (hblock (hΓ.set hinst x))
      | _ =>
        obtain ⟨hp, Δ, hpt⟩ := discard_hasType hlist hmissing (by simp)
          (hdef.inScope.type.mono.apply hθ) (Assignment.solves_append.1 hs.1).2
        exact .discard hp hpt (hvt θ hθ hs.1 hΓ) (hblock hΓ)

/-- **What a solving assignment makes of the type of an expression, the rules derive.** -/
theorem generate_sound (e : Expr) : SoundRuns A b e := by
  induction e using Expr.induction with
  | number | string | boolean | unit =>
    intro env Γ st st' t E θ h hb hfit henv he hθ hs hΓ
    obtain ⟨heq, -⟩ := gives_pure.1 h
    cases heq
    constructor
  | nil =>
    intro env Γ st st' t E θ h hb hfit henv he hθ hs hΓ
    obtain ⟨x, -, rfl, rfl⟩ := gives_nil.1 h
    exact .nil (hθ x)
  | ident x =>
    intro env Γ st st' t E θ h hb hfit henv he hθ hs hΓ
    obtain ⟨σ, hσ, hu, rfl⟩ := gives_ident.1 h
    have hmem := TypeEnv.mem_of_get? hσ
    have hinst := gives_instantiate hu hb hfit (henv.prenex _ hmem)
      (fun y hy => (henv.binders _ hmem y hy).older)
      fun y hy => henv.known_older hA (Nat.le_refl _) (.inl ⟨x, σ, hσ, hy⟩)
    obtain ⟨S, hS, hcover⟩ := hΓ x σ hσ
    exact .ident hS (hcover _ (hinst.sound θ hθ)) (hinst.range.mono.apply hθ)
  | binary op l r ihl ihr =>
    intro env Γ st st' t E θ h hb hfit henv he hθ hs hΓ
    obtain ⟨lt, leqs, st₁, rt, reqs, operand, hl, hr, hop, rfl⟩ := gives_binary.1 h
    obtain ⟨hb₁, hle₁⟩ := hl.leads (steady_generate _ _) hb
    obtain ⟨-, hle₂⟩ := hr.leads (steady_generate _ _) hb₁
    simp only [Assignment.solves_append, Assignment.solves_cons] at hs
    obtain ⟨⟨hsl, hsr⟩, hlt, hrt, -⟩ := hs
    have hl := ihl hl hb (by omega) henv he.binary.1 hθ hsl hΓ
    have hr := ihr hr hb₁ hfit (henv.widen hle₁) he.binary.2 hθ hsr hΓ
    rw [hlt] at hl
    rw [hrt] at hr
    rcases operation?_eq_some.1 hop with ⟨hkind, rfl, rfl⟩ | ⟨hkind, rfl, rfl⟩ | ⟨hkind, rfl, rfl⟩
    · exact .arithmetic hkind hl hr
    · exact .relational hkind hl hr
    · exact .logical hkind hl hr
  | cons u v ihu ihv =>
    intro env Γ st st' t E θ h hb hfit henv he hθ hs hΓ
    obtain ⟨ut, ueqs, st₁, vt, veqs, hu, hv, rfl, rfl⟩ := gives_cons.1 h
    obtain ⟨hb₁, hle₁⟩ := hu.leads (steady_generate _ _) hb
    obtain ⟨-, hle₂⟩ := hv.leads (steady_generate _ _) hb₁
    simp only [Assignment.solves_append, Assignment.solves_cons] at hs
    obtain ⟨⟨hsu, hsv⟩, hvt, -⟩ := hs
    have hv := ihv hv hb₁ hfit (henv.widen hle₁) he.cons.2 hθ hsv hΓ
    rw [hvt] at hv
    exact .cons (ihu hu hb (by omega) henv he.cons.1 hθ hsu hΓ) hv
  | cond c y n ihc ihy ihn =>
    intro env Γ st st' t E θ h hb hfit henv he hθ hs hΓ
    obtain ⟨hec, hey, hen⟩ := he.cond
    obtain ⟨ct, ceqs, st₁, yeqs, st₂, nt, neqs, hc, hy, hn, rfl⟩ := gives_cond.1 h
    obtain ⟨hb₁, hle₁⟩ := hc.leads (steady_generate _ _) hb
    obtain ⟨hb₂, hle₂⟩ := hy.leads (steady_generate _ _) hb₁
    obtain ⟨-, hle₃⟩ := hn.leads (steady_generate _ _) hb₂
    simp only [Assignment.solves_append, Assignment.solves_cons] at hs
    obtain ⟨⟨⟨hsc, hsy⟩, hsn⟩, hct, hyn, -⟩ := hs
    have hc := ihc hc hb (by omega) henv hec hθ hsc hΓ
    have hn := ihn hn hb₂ hfit (henv.widen (by omega)) hen hθ hsn hΓ
    rw [hct] at hc
    rw [← hyn] at hn
    exact .cond hc (ihy hy hb₁ (by omega) (henv.widen hle₁) hey hθ hsy hΓ) hn
  | lambda p a body ih =>
    intro env Γ st st' t E θ h hb hfit henv he hθ hs hΓ
    obtain ⟨-, -, hebody⟩ := he.lambda
    obtain ⟨pt, st₁, bt, beqs, st₂, aeqs, hp, hbody, ha, rfl, rfl⟩ := gives_lambda.1 h
    obtain ⟨hb₁, hle₁⟩ := hp.leads (steady_pattern _) hb
    obtain ⟨hb₂, hle₂⟩ := hbody.leads (steady_generate _ _) hb₁
    obtain ⟨-, hle₃⟩ := ha.leads (steady_ascribe _ _) hb₂
    simp only [Assignment.solves_append] at hs
    have hscope := pattern_scoped hp hb (by omega)
    obtain ⟨Δ, hpt, hΔ⟩ := pattern_sound hp hθ hs.1.1
    exact .lambda hpt (ih hbody hb₁ (by omega) (henv.union hle₁ hscope.bindings) hebody hθ hs.1.2
      (hΓ.union hθ (fun q hq => (hscope.bindings q hq).mono) hΔ))
  | app f a ihf iha =>
    intro env Γ st st' t E θ h hb hfit henv he hθ hs hΓ
    obtain ⟨ft, feqs, st₁, at_, aeqs, st₂, x, hf, ha, hx, rfl, rfl⟩ := gives_app.1 h
    obtain ⟨hb₁, hle₁⟩ := hf.leads (steady_generate _ _) hb
    obtain ⟨hb₂, hle₂⟩ := ha.leads (steady_generate _ _) hb₁
    obtain ⟨-, hle₃⟩ := hx.leads steady_freshName hb₂
    simp only [Assignment.solves_append, Assignment.solves_cons, Ty.apply_arrow] at hs
    obtain ⟨⟨hsf, hsa⟩, hft, -⟩ := hs
    have hf := ihf hf hb (by omega) henv he.app.1 hθ hsf hΓ
    rw [hft] at hf
    exact .app hf (iha ha hb₁ (by omega) (henv.widen hle₁) he.app.2 hθ hsa hΓ)
  | block ss ih ihd => exact block_sound hA ih ihd
  | select v arms ihv iharms =>
    intro env Γ st st' t E θ h hb hfit henv he hθ hs hΓ
    obtain ⟨hev, hearms⟩ := he.select
    obtain ⟨vt, veqs, st₁, x, st₂, eqs, hv, hx, rfl, harms, rfl⟩ := gives_select.1 h
    obtain ⟨hb₁, hle₁⟩ := hv.leads (steady_generate _ _) hb
    obtain ⟨hb₂, hle₂⟩ := hx.leads steady_freshName hb₁
    obtain ⟨-, hle₃⟩ := harms.leads (steady_generateArms _ _ _ _ _) hb₂
    rw [Assignment.solves_append] at hs
    have harms := arms_sound iharms harms hb₂ hfit (henv.widen (by omega))
      (fun arm harm => (hearms arm harm).2) hθ hs.2 hΓ
    exact .select_of_exists (ihv hv hb (by omega) henv hev hθ hs.1 hΓ) harms (hθ x)
  | define => exact fun _ _ _ _ _ _ _ h => absurd h gives_blame
  | missing => exact fun _ _ _ _ _ _ _ h => absurd h gives_fail

end

end Infer

/-- Every instance of an inferred type is derivable, in the presence of ascriptions
too. -/
theorem infer_hasType {A : String → Prop} (hA : ∀ x, A x → Older 0 x) {ctx ctx' : Context}
    {e : Expr} {t : Ty} (he : e.Plain (Ty.Ascribable A))
    (h : ctx.infer .empty e = (.ok t, ctx')) (hcount : ctx'.supply.count < Supply.capacity) :
    t.Mono ∧ ∀ θ : Assignment, θ.IsMono → HasType .empty e (t.apply θ) := by
  obtain ⟨st', hrun, hsupply⟩ := Context.gives_of_infer h
  obtain ⟨vt, E, st₁, s, hgen, hs, rfl, rfl⟩ := Infer.gives_infer.1 hrun
  have hfit : st₁.number 1 ≤ Supply.capacity := by
    have hcount' : st₁.supply.count < Supply.capacity := by rwa [hsupply] at hcount
    rw [Infer.State.number]
    omega
  have henv := TypeEnv.tidy_empty A ((ctx.initial .empty).number 1)
  have hscope := Infer.generate_scoped hA e hgen ctx.initial_empty_from hfit henv he
  have hm := hscope.equations.allMono
  have hres : ∀ {u : Ty}, u.Mono → (s.resolve u).Mono :=
    Solution.resolve_mono (unify_mono hm hs)
  refine ⟨hres hscope.type.mono, fun θ hθ => ?_⟩
  have hafter : (s.resolve vt).apply θ = vt.apply fun x => (s.resolve (.var x)).apply θ := by
    rw [Solution.resolve_eq_apply, Ty.apply_apply]
  rw [hafter]
  exact Infer.generate_sound hA e hgen ctx.initial_empty_from hfit henv he
    (fun x => (hres (u := .var x) trivial).apply hθ) (Infer.solves_after hm hs θ) (covers_empty _)

/-- **Inference is sound.**  Every instance of the type that is inferred for an
expression without ascriptions is derivable by the rules, as long as the variables
that were taken are numbered by words. -/
theorem infer_sound (ctx ctx' : Context) (e : Expr) (t : Ty) (he : e.Plain fun _ => False)
    (h : ctx.infer .empty e = (.ok t, ctx')) (hcount : ctx'.supply.count < Supply.capacity) :
    t.Mono ∧ ∀ θ : Assignment, θ.IsMono → HasType .empty e (t.apply θ) :=
  infer_hasType (A := fun _ => False) (fun _ => False.elim) (he.imp fun _ => False.elim) h hcount

/-- The head of a list, with the identity function at two types. -/
theorem infer_sound_head :
    let e : Expr := .block [
      .define .val (.ident "id") none (.lambda (.ident "x") none (.ident "x")),
      .lambda (.ident "l") none (.select (.app (.ident "id") (.ident "l"))
        [(.cons (.ident "h") .wildcard, .app (.ident "id") (.ident "h"))])]
    e.Plain (fun _ => False) ∧
      (Context.infer {} .empty e).1 = .ok (.arrow (.list (.var "6")) (.var "6")) ∧
      (Context.infer {} .empty e).2.supply.count = 10 ∧
      HasType .empty e (.arrow (.list .bool) .bool) := by
  intro e
  have he : e.Plain fun _ => False := by decide
  -- evaluation stops at the instances of a scheme, whose equation has a side condition
  have h : (Context.infer {} .empty e).1 = .ok (.arrow (.list (.var "6")) (.var "6")) := by
    cbv
    simp only [Infer.instantiate]
    cbv
    simp only [Infer.instantiate]
    cbv
  have hcount : (Context.infer {} .empty e).2.supply.count = 10 := by
    cbv
    simp only [Infer.instantiate]
    cbv
    simp only [Infer.instantiate]
    cbv
  exact ⟨he, h, hcount, (infer_sound {} _ e _ he (Prod.ext h rfl) (by rw [hcount]; decide)).2
    (fun _ => .bool) fun _ => trivial⟩

end LetPoly
