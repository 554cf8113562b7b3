import LetPoly.Proofs.Generation

/-! # The variables that inference meets

The type and the equations of an expression mention the variables that are free in
the visible part of the environment, those of ascriptions, and those that were taken
during the run (`Known`).  Ascribed variables are the ones that `A` allows; they have
no number, and so are never taken.

Environments are **tidy**: their schemes bind variables that nothing else mentions.
Resolving such an environment, which does not stop at binders, therefore captures
nothing.  What a definition adds keeps an environment tidy, and so do the names of a
pattern.
-/

namespace LetPoly

/-- A scheme all of whose names are as `A` says, those that it binds included. -/
structure Ty.Ascribable (A : String → Prop) (a : Ty) : Prop where
  prenex : a.Prenex
  names : ∀ x ∈ a.binders ++ a.occurrences, A x

namespace TypeEnv

/-- **A tidy environment** before variable `m` is taken: its schemes bind variables
that were taken before and are free in no scheme. -/
structure Tidy (A : String → Prop) (m : Nat) (env : TypeEnv) : Prop where
  prenex : ∀ p ∈ env.bindings, p.2.Prenex
  binders : ∀ p ∈ env.bindings, ∀ x ∈ p.2.binders, Minted 0 m x
  free : ∀ p ∈ env.bindings, ∀ x ∈ p.2.freeOccurrences, A x ∨ Minted 0 m x
  apart : ∀ p ∈ env.bindings, ∀ q ∈ env.bindings, ∀ x ∈ p.2.binders, x ∉ q.2.freeOccurrences

/-- **The variables that a run from `m` to `n` may mention.** -/
def Known (A : String → Prop) (env : TypeEnv) (m n : Nat) (x : String) : Prop :=
  env.Free x ∨ A x ∨ Minted m n x

theorem Known.widen {A : String → Prop} {env : TypeEnv} {m n m' n' : Nat} {x : String}
    (h : env.Known A m n x) (hm : m' ≤ m) (hn : n ≤ n') : env.Known A m' n' x :=
  h.imp_right (.imp_right fun h => h.widen hm hn)

theorem tidy_empty (A : String → Prop) (m : Nat) : empty.Tidy A m := by
  constructor <;> simp [empty]

theorem Tidy.widen {A : String → Prop} {m n : Nat} {env : TypeEnv} (h : env.Tidy A m)
    (hmn : m ≤ n) : env.Tidy A n where
  prenex := h.prenex
  binders p hp x hx := (h.binders p hp x hx).widen (Nat.le_refl _) hmn
  free p hp x hx := (h.free p hp x hx).imp_right fun h => h.widen (Nat.le_refl _) hmn
  apart := h.apart

/-- A tidy environment with names whose types are new variables. -/
theorem Tidy.union {A : String → Prop} {m n : Nat} {env Δ : TypeEnv} (h : env.Tidy A m)
    (hmn : m ≤ n) (hΔ : ∀ p ∈ Δ.bindings, p.2.Over (Minted m n)) : (Δ.union env).Tidy A n := by
  have h' := h.widen hmn
  have hbinders : ∀ p ∈ Δ.bindings, p.2.binders = [] := fun p hp => (hΔ p hp).mono.binders_eq_nil
  have hfree : ∀ p ∈ Δ.bindings, ∀ x ∈ p.2.freeOccurrences, Minted m n x := fun p hp x hx =>
    (hΔ p hp).2 x ((hΔ p hp).mono.freeOccurrences_eq ▸ hx)
  refine ⟨?_, ?_, ?_, ?_⟩
  · intro p hp
    rcases List.mem_append.1 hp with hp | hp
    · exact .mono (hΔ p hp).mono
    · exact h'.prenex p hp
  · intro p hp x hx
    rcases List.mem_append.1 hp with hp | hp
    · simp [hbinders p hp] at hx
    · exact h'.binders p hp x hx
  · intro p hp x hx
    rcases List.mem_append.1 hp with hp | hp
    · exact .inr ((hfree p hp x hx).widen (Nat.zero_le _) (Nat.le_refl _))
    · exact h'.free p hp x hx
  · intro p hp q hq x hx hxf
    rcases List.mem_append.1 hp with hp | hp
    · simp [hbinders p hp] at hx
    · rcases List.mem_append.1 hq with hq | hq
      · exact (h.binders p hp x hx).older.not_minted (hfree q hq x hxf)
      · exact h.apart p hp q hq x hx hxf

section
variable {A : String → Prop} (hA : ∀ x, A x → Older 0 x) {m n : Nat} {env : TypeEnv}
include hA

theorem Tidy.known_older (h : env.Tidy A m) (hmn : m ≤ n) {x : String}
    (hx : env.Known A m n x) : Older n x := by
  rcases hx with ⟨z, σ, hz, hx⟩ | hx | hx
  · rcases h.free _ (mem_of_get? hz) x hx with hx | hx
    · exact (hA x hx).widen (Nat.zero_le _)
    · exact hx.older.widen hmn
  · exact (hA x hx).widen (Nat.zero_le _)
  · exact hx.older

theorem Tidy.known_not_binder (h : env.Tidy A m) {x : String} (hx : env.Known A m n x)
    {p : String × Ty} (hp : p ∈ env.bindings) : x ∉ p.2.binders := by
  intro hb
  have hminted := h.binders p hp x hb
  rcases hx with ⟨z, σ, hz, hx⟩ | hx | hx
  · exact h.apart p hp _ (mem_of_get? hz) x hb hx
  · exact (hA x hx).not_minted hminted
  · exact hminted.older.not_minted hx

/-- A tidy environment with a scheme that binds new variables. -/
theorem Tidy.set (h : env.Tidy A m) {n' : Nat} (hmn : m ≤ n) (hn : n ≤ n') {σ : Ty}
    (hσ : σ.Prenex) (hbinders : ∀ x ∈ σ.binders, Minted n n' x)
    (hfree : ∀ x ∈ σ.freeOccurrences, env.Known A m n x) (z : String) :
    (env.set z σ).Tidy A n' := by
  have h' := h.widen (Nat.le_trans hmn hn)
  have hknown : ∀ x, env.Known A m n x → A x ∨ Minted 0 n' x := by
    rintro x (⟨y, τ, hy, hx⟩ | hx | hx)
    · exact h'.free _ (mem_of_get? hy) x hx
    · exact .inl hx
    · exact .inr (hx.widen (Nat.zero_le _) hn)
  refine ⟨?_, ?_, ?_, ?_⟩
  · rintro p (_ | ⟨_, hp⟩)
    · exact hσ
    · exact h'.prenex p hp
  · rintro p (_ | ⟨_, hp⟩) x hx
    · exact (hbinders x hx).widen (Nat.zero_le _) (Nat.le_refl _)
    · exact h'.binders p hp x hx
  · rintro p (_ | ⟨_, hp⟩) x hx
    · exact hknown x (hfree x hx)
    · exact h'.free p hp x hx
  · rintro p (_ | ⟨_, hp⟩) q (_ | ⟨_, hq⟩) x hx hxf
    · exact (h.known_older hA hmn (hfree x hxf)).not_minted (hbinders x hx)
    · rcases h.free q hq x hxf with hxf | hxf
      · exact ((hA x hxf).widen (Nat.zero_le _)).not_minted (hbinders x hx)
      · exact (hxf.older.widen hmn).not_minted (hbinders x hx)
    · exact h.known_not_binder hA (hfree x hxf) hp hx
    · exact h.apart p hp q hq x hx hxf

end

/-- What is known after a definition was known before it. -/
theorem Known.of_set {A : String → Prop} {env : TypeEnv} {l m n : Nat} {z x : String} {σ : Ty}
    (hσ : ∀ x ∈ σ.freeOccurrences, env.Known A l m x) (hlm : l ≤ m) (hmn : m ≤ n)
    (hx : (env.set z σ).Known A m n x) : env.Known A l n x := by
  rcases hx with ⟨y, τ, hy, hx⟩ | hx
  · by_cases hyz : y = z
    · subst hyz
      rw [get?_set_self, Option.some.injEq] at hy
      exact (hσ x (hy ▸ hx)).widen (Nat.le_refl _) hmn
    · rw [get?_set_of_ne _ _ hyz] at hy
      exact .inl ⟨y, τ, hy, hx⟩
  · exact .inr (hx.imp_right fun hx => hx.widen hlm (Nat.le_refl _))

/-- What is known inside a pattern was known outside, or was taken for the pattern. -/
theorem Known.of_union {A : String → Prop} {env Δ : TypeEnv} {l m n : Nat} {x : String}
    (hΔ : ∀ p ∈ Δ.bindings, p.2.Over (Minted l m)) (hlm : l ≤ m) (hmn : m ≤ n)
    (hx : (Δ.union env).Known A m n x) : env.Known A l n x := by
  rcases hx with ⟨y, τ, hy, hx⟩ | hx
  · rw [get?_union] at hy
    rcases Option.or_eq_some_iff.1 hy with hy | ⟨_, hy⟩
    · have hover := hΔ _ (mem_of_get? hy)
      rw [hover.mono.freeOccurrences_eq] at hx
      exact .inr (.inr ((hover.2 x hx).widen (Nat.le_refl _) hmn))
    · exact .inl ⟨y, τ, hy, hx⟩
  · exact .inr (hx.imp_right fun hx => hx.widen hlm (Nat.le_refl _))

end TypeEnv

namespace Infer
open Equation

/-! ## Patterns and ascriptions -/

/-- The variables of a pattern's type are its own. -/
structure PatternType.Scoped (m n : Nat) (pt : PatternType) : Prop where
  type : pt.type.Over (Minted m n)
  equations : AllOver (Minted m n) pt.equations
  bindings : ∀ p ∈ pt.bindings.bindings, p.2.Over (Minted m n)

theorem gives_pattern_cons {p q : Pat} {st st' : State} {pt : PatternType} :
    Gives (pattern (.cons p q)) st pt st' ↔
      ∃ ht st₁ tt, Gives (pattern p) st ht st₁ ∧ Gives (pattern q) st₁ tt st' ∧
        pt = ⟨.list ht.type, ht.equations ++ tt.equations ++ [⟨.list ht.type, tt.type⟩],
          ht.bindings.union tt.bindings⟩ := by
  have heq : pattern (.cons p q) = pattern p >>= fun h => pattern q >>= fun t => pure
      ⟨.list h.type, h.equations ++ t.equations ++ [⟨.list h.type, t.type⟩],
        h.bindings.union t.bindings⟩ := rfl
  simp only [heq, gives_bind, gives_pure]
  constructor
  · rintro ⟨ht, st₁, hp, tt, _, hq, rfl, rfl⟩
    exact ⟨ht, st₁, tt, hp, hq, rfl⟩
  · rintro ⟨ht, st₁, tt, hp, hq, rfl⟩
    exact ⟨ht, st₁, hp, tt, st', hq, rfl, rfl⟩

/-- The types of a pattern's names are those of the names that it binds. -/
theorem isSome_get?_pattern {p : Pat} {st st' : State} {pt : PatternType}
    (h : Gives (pattern p) st pt st') (x : String) :
    (pt.bindings.get? x).isSome ↔ x ∈ p.names := by
  induction p generalizing st st' pt with
  | number | string | boolean | unit =>
    obtain ⟨rfl, -⟩ := gives_pure.1 h
    simp [TypeEnv.get?, Pat.names]
  | wildcard | nil =>
    obtain ⟨_, _, -, h⟩ := gives_bind.1 h
    obtain ⟨rfl, -⟩ := gives_pure.1 h
    simp [TypeEnv.get?, Pat.names]
  | ident y =>
    obtain ⟨t, _, -, h⟩ := gives_bind.1 h
    obtain ⟨rfl, -⟩ := gives_pure.1 h
    by_cases hx : x = y
    · simp [hx, TypeEnv.get?_set_self, Pat.names]
    · rw [TypeEnv.get?_set_of_ne _ _ hx]
      simp [hx, TypeEnv.get?, Pat.names]
  | cons p q ihp ihq =>
    obtain ⟨_, _, _, hp, hq, rfl⟩ := gives_pattern_cons.1 h
    rw [TypeEnv.get?_union, Option.isSome_or, Bool.or_eq_true, ihp hp, ihq hq, Pat.names,
      List.mem_append]
  | missing => exact absurd h gives_fail

theorem pattern_scoped {p : Pat} {b : Nat} {st st' : State} {pt : PatternType}
    (h : Gives (pattern p) st pt st') (hb : st.From b) (hfit : st'.number b ≤ Supply.capacity) :
    pt.Scoped (st.number b) (st'.number b) := by
  induction p generalizing st st' pt with
  | number | string | boolean | unit =>
    obtain ⟨rfl, -⟩ := gives_pure.1 h
    exact ⟨by simp, by simp, by simp⟩
  | wildcard | ident | nil =>
    obtain ⟨_, _, hfresh, h⟩ := gives_bind.1 h
    obtain ⟨x, hx, rfl⟩ := gives_fresh.1 hfresh
    obtain ⟨rfl, rfl⟩ := gives_pure.1 h
    have hx := hx.minted hb hfit
    exact ⟨by simpa using hx, by simp, by simp [TypeEnv.set, hx]⟩
  | cons p q ihp ihq =>
    obtain ⟨ht, st₁, tt, hp, hq, rfl⟩ := gives_pattern_cons.1 h
    obtain ⟨hb₁, hle₁⟩ := hp.leads (steady_pattern p) hb
    obtain ⟨-, hle₂⟩ := hq.leads (steady_pattern q) hb₁
    have hp := ihp hp hb (Nat.le_trans hle₂ hfit)
    have hq := ihq hq hb₁ hfit
    have wp : ∀ x, Minted (st.number b) (st₁.number b) x → Minted (st.number b) (st'.number b) x :=
      fun x hx => hx.widen (Nat.le_refl _) hle₂
    have wq : ∀ x, Minted (st₁.number b) (st'.number b) x →
        Minted (st.number b) (st'.number b) x := fun x hx => hx.widen hle₁ (Nat.le_refl _)
    refine ⟨?_, ?_, ?_⟩
    · exact Ty.over_list.2 (hp.type.imp wp)
    · simp [hp.equations.imp wp, hq.equations.imp wq, hp.type.imp wp, hq.type.imp wq]
    · intro d hd
      rcases List.mem_append.1 hd with hd | hd
      · exact (hp.bindings d hd).imp wp
      · exact (hq.bindings d hd).imp wq
  | missing => exact absurd h gives_fail

theorem ascribe_scoped {A : String → Prop} (hA : ∀ x, A x → Older 0 x) {t : Ty} {a : Option Ty}
    {b : Nat} {st st' : State} {E : List Equation} (h : Gives (ascribe t a) st E st')
    (hb : st.From b) (hfit : st'.number b ≤ Supply.capacity) (ha : ∀ u ∈ a.toList, u.Ascribable A)
    {P : String → Prop} (ht : t.Over P)
    (hP : ∀ x, A x ∨ Minted (st.number b) (st'.number b) x → P x) :
    AllOver P E := by
  cases a with
  | none =>
    obtain ⟨rfl, -⟩ := gives_pure.1 h
    simp
  | some a =>
    obtain ⟨u, st₁, hu, h⟩ := gives_bind.1 h
    obtain ⟨rfl, rfl⟩ := gives_pure.1 h
    obtain ⟨hprenex, hnames⟩ := ha a (by simp)
    have hold : ∀ x, A x → Older (st.number b) x := fun x hx => (hA x hx).widen (Nat.zero_le _)
    have hfree : ∀ x ∈ a.freeOccurrences, A x := fun x hx =>
      hnames x (List.mem_append_right _ (hprenex.mem_freeOccurrences.1 hx).1)
    have hinst := gives_instantiate hu hb hfit hprenex
      (fun x hx => hold x (hnames x (List.mem_append_left _ hx))) fun x hx => hold x (hfree x hx)
    simpa using ⟨ht, hinst.range.imp fun x hx => hP x (hx.imp_left (hfree x))⟩

theorem allOver_literal {P : String → Prop} {p : Pat} {t : Ty} (ht : t.Over P) :
    AllOver P (literal p t) := by
  cases p <;> simp [literal, ht]

/-! ## Expressions -/

/-- The variables of a type and its equations are known. -/
structure Scoped (A : String → Prop) (env : TypeEnv) (m n : Nat) (t : Ty) (E : List Equation) :
    Prop where
  type : t.Over (env.Known A m n)
  equations : AllOver (env.Known A m n) E

theorem Scoped.imp {A : String → Prop} {env env' : TypeEnv} {m n m' n' : Nat} {t : Ty}
    {E : List Equation} (h : Scoped A env m n t E)
    (hk : ∀ x, env.Known A m n x → env'.Known A m' n' x) : Scoped A env' m' n' t E :=
  ⟨h.type.imp hk, h.equations.imp hk⟩

theorem Scoped.widen {A : String → Prop} {env : TypeEnv} {m n m' n' : Nat} {t : Ty}
    {E : List Equation} (h : Scoped A env m n t E) (hm : m' ≤ m) (hn : n ≤ n') :
    Scoped A env m' n' t E :=
  h.imp fun _ hx => hx.widen hm hn

/-- Every run on the expression keeps to what is known. -/
def ScopedRuns (A : String → Prop) (b : Nat) (e : Expr) : Prop :=
  ∀ ⦃env : TypeEnv⦄ ⦃st st' : State⦄ ⦃t : Ty⦄ ⦃E : List Equation⦄,
    Gives (generate env e) st (t, E) st' → st.From b → st'.number b ≤ Supply.capacity →
    env.Tidy A (st.number b) → e.Ascribes (Ty.Ascribable A) →
    Scoped A env (st.number b) (st'.number b) t E

/-- What a definition did: its value has a type with equations, which were solved and
from which the scheme was made. -/
structure Defined (A : String → Prop) (env : TypeEnv) (m n n' : Nat) (t : Ty)
    (eqs : List Equation) (s : Solution) (σ : Ty) : Prop where
  start_le : m ≤ n
  le_end : n ≤ n'
  inScope : Scoped A env m n t eqs
  solution : unify eqs = .ok s
  resolved : (s.resolve t).Over (env.Known A m n)
  generalizes : Generalizes n n' (generalized s env t) (s.resolve t) σ

section
variable {A : String → Prop} (hA : ∀ x, A x → Older 0 x) {env : TypeEnv} {m n n' : Nat} {t σ : Ty}
  {eqs : List Equation} {s : Solution}

/-- What is known after a definition was known before it. -/
theorem Defined.known (h : Defined A env m n n' t eqs s σ) {l : Nat} (hl : n' ≤ l) (p : Pat)
    {x : String} (hx : (assume env p σ).Known A n' l x) : env.Known A m l x := by
  have hm : m ≤ n' := Nat.le_trans h.start_le h.le_end
  cases p with
  | ident z =>
    exact .of_set (fun y hy => (h.resolved.2 y (h.generalizes.free y hy).1).widen (Nat.le_refl _)
      h.le_end) hm hl hx
  | _ => exact hx.widen hm (Nat.le_refl _)

include hA

/-- A definition keeps an environment tidy. -/
theorem Defined.tidy (h : Defined A env m n n' t eqs s σ) (henv : env.Tidy A m) (p : Pat) :
    (assume env p σ).Tidy A n' := by
  cases p with
  | ident x =>
    exact henv.set hA h.start_le h.le_end h.generalizes.prenex h.generalizes.binders
      (fun y hy => h.resolved.2 y (h.generalizes.free y hy).1) x
  | _ => exact henv.widen (Nat.le_trans h.start_le h.le_end)

theorem define_scoped {b : Nat} {st st₁ st₂ st₃ : State} {v : Expr} {p : Pat} {a : Option Ty}
    {vt : Ty} {veqs aeqs : List Equation} (hgv : Gives (generate env v) st (vt, veqs) st₁)
    (hga : Gives (ascribe vt a) st₁ aeqs st₂)
    (hgσ : Gives (generalize (veqs ++ aeqs ++ literal p vt) env vt) st₂ σ st₃) (hb : st.From b)
    (hfit : st₃.number b ≤ Supply.capacity) (henv : env.Tidy A (st.number b))
    (hv : v.Ascribes (Ty.Ascribable A)) (ha : ∀ u ∈ a.toList, u.Ascribable A)
    (hruns : ScopedRuns A b v) :
    ∃ s, Defined A env (st.number b) (st₂.number b) (st₃.number b) vt
      (veqs ++ aeqs ++ literal p vt) s σ := by
  obtain ⟨hb₁, hle₁⟩ := hgv.leads (steady_generate _ _) hb
  obtain ⟨hb₂, hle₂⟩ := hga.leads (steady_ascribe _ _) hb₁
  obtain ⟨-, hle₃⟩ := hgσ.leads (steady_generalize _ _ _) hb₂
  have hvalue := (hruns hgv hb (by omega) henv hv).widen (Nat.le_refl _) hle₂
  have hasc := ascribe_scoped hA hga hb₁ (by omega) ha hvalue.type
    fun x hx => .inr (hx.imp_right fun hx => hx.widen hle₁ (Nat.le_refl _))
  have heqs : AllOver (env.Known A (st.number b) (st₂.number b))
      (veqs ++ aeqs ++ literal p vt) := by
    simp [hvalue.equations, hasc, allOver_literal hvalue.type]
  have hle : st.number b ≤ st₂.number b := Nat.le_trans hle₁ hle₂
  obtain ⟨s, hs, hgen⟩ := gives_generalize hgσ hb₂ hfit
  have hover := unify_resolve_over heqs hs hvalue.type
  exact ⟨s, hle, hle₃, ⟨hvalue.type, heqs⟩, hs, hover,
    hgen (hover.imp fun x hx => henv.known_older hA hle hx)⟩

end

section
variable {A : String → Prop} (hA : ∀ x, A x → Older 0 x) {b : Nat}

theorem arms_scoped {arms : List (Pat × Expr)} (ih : ∀ arm ∈ arms, ScopedRuns A b arm.2)
    {whole : Expr} {env : TypeEnv} {value result : Ty} {st st' : State} {E : List Equation}
    (h : Gives (generateArms whole env value result arms) st E st') (hb : st.From b)
    (hfit : st'.number b ≤ Supply.capacity) (henv : env.Tidy A (st.number b))
    (harms : ∀ arm ∈ arms, arm.2.Ascribes (Ty.Ascribable A)) {l : Nat} (hl : l ≤ st.number b)
    (hvalue : value.Over (env.Known A l (st.number b)))
    (hresult : result.Over (env.Known A l (st.number b))) :
    AllOver (env.Known A l (st'.number b)) E := by
  induction arms generalizing st E with
  | nil =>
    obtain ⟨rfl, -⟩ := gives_pure.1 h
    simp
  | cons arm arms iharms =>
    obtain ⟨pt, st₁, bt, beqs, st₂, eqs, hp, hbody, hrest, rfl⟩ := gives_arm.1 h
    obtain ⟨hb₁, hle₁⟩ := hp.leads (steady_pattern _) hb
    obtain ⟨hb₂, hle₂⟩ := hbody.leads (steady_generate _ _) hb₁
    obtain ⟨-, hle₃⟩ := hrest.leads (steady_generateArms _ _ _ _ _) hb₂
    have hp := pattern_scoped hp hb (by omega)
    have hbody := ih arm (by simp) hbody hb₁ (by omega) (henv.union hle₁ hp.bindings)
      (harms arm (by simp))
    have hrest := iharms (fun a ha => ih a (List.mem_cons_of_mem _ ha)) hrest hb₂
      (henv.widen (by omega)) (fun a ha => harms a (List.mem_cons_of_mem _ ha)) (by omega)
      (hvalue.imp fun x hx => hx.widen (Nat.le_refl _) (by omega))
      (hresult.imp fun x hx => hx.widen (Nat.le_refl _) (by omega))
    have hpat : ∀ x, Minted (st.number b) (st₁.number b) x → env.Known A l (st'.number b) x :=
      fun x hx => .inr (.inr (hx.widen hl (by omega)))
    have hbody := hbody.imp fun x hx =>
      (TypeEnv.Known.of_union hp.bindings hle₁ hle₂ hx).widen hl (Nat.le_refl _)
    have hbody := hbody.widen (Nat.le_refl l) hle₃
    have hwide : ∀ x, env.Known A l (st.number b) x → env.Known A l (st'.number b) x :=
      fun x hx => hx.widen (Nat.le_refl _) (by omega)
    simp [hp.equations.imp hpat, hp.type.imp hpat, hbody.type, hbody.equations,
      hvalue.imp hwide, hresult.imp hwide, hrest]

include hA

theorem block_scoped {ss : List Expr} (ih : ∀ s ∈ ss, ScopedRuns A b s)
    (ihd : ∀ k p a v, .define k p a v ∈ ss → ScopedRuns A b v) : ScopedRuns A b (.block ss) := by
  induction ss with
  | nil => exact fun _ _ _ _ _ h => absurd h gives_blame
  | cons s ss ihss =>
    intro env st st' t E h hb hfit henv he
    cases ss with
    | nil =>
      rw [Gives, outcome_block_last] at h
      exact ih s (by simp) h hb hfit henv ((Expr.everywhere_block.1 he).2 s (by simp))
    | cons s' ss =>
      have hparts := (Expr.everywhere_block.1 he).2
      have hrest : (Expr.block (s' :: ss)).Ascribes (Ty.Ascribable A) :=
        Expr.everywhere_block.2 ⟨by simp [Expr.ascriptions],
          fun d hd => hparts d (List.mem_cons_of_mem _ hd)⟩
      have ihss := ihss (fun e he => ih e (List.mem_cons_of_mem _ he))
        fun k p a v he => ihd k p a v (List.mem_cons_of_mem _ he)
      cases hs : s.isDefinition with
      | true =>
        obtain ⟨k, p, a, v, rfl⟩ := Expr.isDefinition_iff.1 hs
        obtain ⟨hascribed, hv⟩ := Expr.everywhere_define.1 (hparts _ List.mem_cons_self)
        obtain ⟨-, vt, veqs, st₁, aeqs, st₂, σ, st₃, eqs, hgv, hga, hgσ, hgss, rfl⟩ :=
          gives_block_define.1 h
        obtain ⟨hb₁, -⟩ := hgv.leads (steady_generate _ _) hb
        obtain ⟨hb₂, -⟩ := hga.leads (steady_ascribe _ _) hb₁
        obtain ⟨hb₃, -⟩ := hgσ.leads (steady_generalize _ _ _) hb₂
        obtain ⟨-, hle₄⟩ := hgss.leads (steady_generate _ _) hb₃
        obtain ⟨sol, hdef⟩ := define_scoped hA hgv hga hgσ hb (by omega) henv hv hascribed
          (ihd k p a v (by simp))
        have hblock := ihss hgss hb₃ hfit (hdef.tidy hA henv p) hrest
        have hblock := hblock.imp fun x hx => hdef.known hle₄ p hx
        exact ⟨hblock.type, allOver_append.2 ⟨(hdef.inScope.widen (Nat.le_refl _)
          (Nat.le_trans hdef.le_end hle₄)).equations, hblock.equations⟩⟩
      | false =>
        obtain ⟨r, st₁, hgs, hgss⟩ := (gives_block_stmt hs).1 h
        obtain ⟨hb₁, hle₁⟩ := hgs.leads (steady_generate _ _) hb
        exact (ihss hgss hb₁ hfit (henv.widen hle₁) hrest).widen hle₁ (Nat.le_refl _)

/-- **A run mentions known variables only.** -/
theorem scopedRuns (e : Expr) : ScopedRuns A b e := by
  induction e using Expr.induction with
  | number | string | boolean | unit =>
    intro env st st' t E h hb hfit henv he
    obtain ⟨heq, -⟩ := gives_pure.1 h
    cases heq
    exact ⟨by simp, by simp⟩
  | nil =>
    intro env st st' t E h hb hfit henv he
    obtain ⟨x, hx, rfl, rfl⟩ := gives_nil.1 h
    exact ⟨by simpa using .inr (.inr (hx.minted hb hfit)), by simp⟩
  | ident x =>
    intro env st st' t E h hb hfit henv he
    obtain ⟨σ, hσ, hu, rfl⟩ := gives_ident.1 h
    have hmem := TypeEnv.mem_of_get? hσ
    have hinst := gives_instantiate hu hb hfit (henv.prenex _ hmem)
      (fun y hy => (henv.binders _ hmem y hy).older)
      fun y hy => henv.known_older hA (Nat.le_refl _) (.inl ⟨x, σ, hσ, hy⟩)
    refine ⟨hinst.range.imp fun y hy => ?_, by simp⟩
    exact hy.imp (fun hy => ⟨x, σ, hσ, hy⟩) .inr
  | binary op l r ihl ihr =>
    intro env st st' t E h hb hfit henv he
    obtain ⟨-, hel, her⟩ := Expr.everywhere_binary.1 he
    obtain ⟨lt, leqs, st₁, rt, reqs, operand, hl, hr, hop, rfl⟩ := gives_binary.1 h
    obtain ⟨hb₁, hle₁⟩ := hl.leads (steady_generate _ _) hb
    obtain ⟨-, hle₂⟩ := hr.leads (steady_generate _ _) hb₁
    have hl := (ihl hl hb (by omega) henv hel).widen (Nat.le_refl _) hle₂
    have hr := (ihr hr hb₁ hfit (henv.widen hle₁) her).widen hle₁ (Nat.le_refl _)
    rcases operation?_eq_some.1 hop with ⟨-, rfl, rfl⟩ | ⟨-, rfl, rfl⟩ | ⟨-, rfl, rfl⟩ <;>
      exact ⟨by simp, by simp [hl.equations, hr.equations, hl.type, hr.type]⟩
  | cons u v ihu ihv =>
    intro env st st' t E h hb hfit henv he
    obtain ⟨-, heu, hev⟩ := Expr.everywhere_cons.1 he
    obtain ⟨ut, ueqs, st₁, vt, veqs, hu, hv, rfl, rfl⟩ := gives_cons.1 h
    obtain ⟨hb₁, hle₁⟩ := hu.leads (steady_generate _ _) hb
    obtain ⟨-, hle₂⟩ := hv.leads (steady_generate _ _) hb₁
    have hu := (ihu hu hb (by omega) henv heu).widen (Nat.le_refl _) hle₂
    have hv := (ihv hv hb₁ hfit (henv.widen hle₁) hev).widen hle₁ (Nat.le_refl _)
    exact ⟨Ty.over_list.2 hu.type, by simp [hu.equations, hv.equations, hu.type, hv.type]⟩
  | cond c y n ihc ihy ihn =>
    intro env st st' t E h hb hfit henv he
    obtain ⟨-, hec, hey, hen⟩ := Expr.everywhere_cond.1 he
    obtain ⟨ct, ceqs, st₁, yeqs, st₂, nt, neqs, hc, hy, hn, rfl⟩ := gives_cond.1 h
    obtain ⟨hb₁, hle₁⟩ := hc.leads (steady_generate _ _) hb
    obtain ⟨hb₂, hle₂⟩ := hy.leads (steady_generate _ _) hb₁
    obtain ⟨-, hle₃⟩ := hn.leads (steady_generate _ _) hb₂
    have hc := (ihc hc hb (by omega) henv hec).widen (Nat.le_refl _) (Nat.le_trans hle₂ hle₃)
    have hy := (ihy hy hb₁ (by omega) (henv.widen hle₁) hey).widen hle₁ hle₃
    have hn := (ihn hn hb₂ hfit (henv.widen (by omega)) hen).widen (Nat.le_trans hle₁ hle₂)
      (Nat.le_refl _)
    exact ⟨hy.type, by
      simp [hc.equations, hy.equations, hn.equations, hc.type, hy.type, hn.type]⟩
  | lambda p a body ih =>
    intro env st st' t E h hb hfit henv he
    obtain ⟨hascribed, hebody⟩ := Expr.everywhere_lambda.1 he
    obtain ⟨pt, st₁, bt, beqs, st₂, aeqs, hp, hbody, ha, rfl, rfl⟩ := gives_lambda.1 h
    obtain ⟨hb₁, hle₁⟩ := hp.leads (steady_pattern _) hb
    obtain ⟨hb₂, hle₂⟩ := hbody.leads (steady_generate _ _) hb₁
    obtain ⟨-, hle₃⟩ := ha.leads (steady_ascribe _ _) hb₂
    have hp := pattern_scoped hp hb (by omega)
    have hbody := ih hbody hb₁ (by omega) (henv.union hle₁ hp.bindings) hebody
    have hbody := (hbody.imp fun x hx =>
      TypeEnv.Known.of_union hp.bindings hle₁ hle₂ hx).widen (Nat.le_refl _) hle₃
    have hpat : ∀ x, Minted (st.number b) (st₁.number b) x →
        env.Known A (st.number b) (st'.number b) x :=
      fun x hx => .inr (.inr (hx.widen (Nat.le_refl _) (by omega)))
    have hasc := ascribe_scoped hA ha hb₂ hfit hascribed (hp.type.imp hpat)
      fun x hx => .inr (hx.imp_right fun hx => hx.widen (by omega) (Nat.le_refl _))
    exact ⟨Ty.over_arrow.2 ⟨hp.type.imp hpat, hbody.type⟩, by
      simp [hp.equations.imp hpat, hbody.equations, hasc]⟩
  | app f a ihf iha =>
    intro env st st' t E h hb hfit henv he
    obtain ⟨-, hef, hea⟩ := Expr.everywhere_app.1 he
    obtain ⟨ft, feqs, st₁, at_, aeqs, st₂, x, hf, ha, hx, rfl, rfl⟩ := gives_app.1 h
    obtain ⟨hb₁, hle₁⟩ := hf.leads (steady_generate _ _) hb
    obtain ⟨hb₂, hle₂⟩ := ha.leads (steady_generate _ _) hb₁
    obtain ⟨-, hle₃⟩ := hx.leads steady_freshName hb₂
    have hf := (ihf hf hb (by omega) henv hef).widen (Nat.le_refl _) (Nat.le_trans hle₂ hle₃)
    have ha := (iha ha hb₁ (by omega) (henv.widen hle₁) hea).widen hle₁ hle₃
    have hx : env.Known A (st.number b) (st'.number b) x :=
      .inr (.inr ((hx.minted hb₂ hfit).widen (by omega) (Nat.le_refl _)))
    exact ⟨Ty.over_var.2 hx, by
      simp [hf.equations, ha.equations, hf.type, ha.type, hx]⟩
  | block ss ih ihd => exact block_scoped hA ih ihd
  | select v arms ihv iharms =>
    intro env st st' t E h hb hfit henv he
    obtain ⟨-, hev, hearms⟩ := Expr.everywhere_select.1 he
    obtain ⟨vt, veqs, st₁, x, st₂, eqs, hv, hx, rfl, harms, rfl⟩ := gives_select.1 h
    obtain ⟨hb₁, hle₁⟩ := hv.leads (steady_generate _ _) hb
    obtain ⟨hb₂, hle₂⟩ := hx.leads steady_freshName hb₁
    obtain ⟨-, hle₃⟩ := harms.leads (steady_generateArms _ _ _ _ _) hb₂
    have hv := (ihv hv hb (by omega) henv hev).widen (Nat.le_refl _) hle₂
    have hx : env.Known A (st.number b) (st₂.number b) x :=
      .inr (.inr ((hx.minted hb₁ (by omega)).widen hle₁ (Nat.le_refl _)))
    have harms := arms_scoped iharms harms hb₂ hfit (henv.widen (by omega)) hearms (by omega)
      hv.type (Ty.over_var.2 hx)
    exact ⟨Ty.over_var.2 (hx.widen (Nat.le_refl _) hle₃), by
      simp [(hv.widen (Nat.le_refl _) hle₃).equations, harms]⟩
  | define => exact fun _ _ _ _ _ h => absurd h gives_blame
  | missing => exact fun _ _ _ _ _ h => absurd h gives_fail

theorem generate_scoped (e : Expr) {env : TypeEnv} {st st' : State} {t : Ty} {E : List Equation}
    (h : Gives (generate env e) st (t, E) st') (hb : st.From b)
    (hfit : st'.number b ≤ Supply.capacity) (henv : env.Tidy A (st.number b))
    (he : e.Plain (Ty.Ascribable A)) : Scoped A env (st.number b) (st'.number b) t E :=
  scopedRuns hA e h hb hfit henv he.ascribes

end

end Infer

end LetPoly
