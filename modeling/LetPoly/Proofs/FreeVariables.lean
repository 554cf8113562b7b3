import LetPoly.Proofs.Generalization
import LetPoly.Proofs.Scope
import LetPoly.Proofs.Termination

/-! # Where the free variables of a type come from

Whatever is free in the type and in the equations of an expression is free in a scheme of
the environment, is free in an ascription, or is taken from the supply on the way.  This is
said with one property of variables that holds of all three: it then holds of every variable
that is free in what `generate` gives (`Infer.generate_freeOver`).

Nothing is asked of the schemes, and numbers may run out: a name that is captured by a
binder is free no more, and no operation on types lets a bound name go.
-/

namespace LetPoly

/-! ## Free variables with a property -/

namespace Ty
variable {P : String → Prop}

/-- Every free variable has the property. -/
def FreeOver (P : String → Prop) (t : Ty) : Prop := ∀ y ∈ t.freeOccurrences, P y

@[simp] theorem freeOver_const (c : String) : (const c).FreeOver P := by
  simp [FreeOver, freeOccurrences]

@[simp] theorem freeOver_var {x : String} : (var x).FreeOver P ↔ P x := by
  simp [FreeOver, freeOccurrences]

@[simp] theorem freeOver_arrow {a r : Ty} :
    (arrow a r).FreeOver P ↔ a.FreeOver P ∧ r.FreeOver P :=
  List.forall_mem_append

@[simp] theorem freeOver_list {t : Ty} : (list t).FreeOver P ↔ t.FreeOver P := Iff.rfl

theorem FreeOver.rename {b x : String} {t : Ty} (h : (poly b t).FreeOver P) (hx : P x) :
    (t.rename b x).FreeOver P := by
  intro y hy
  rcases mem_freeOccurrences_replace hy with ⟨hy, hne⟩ | hy
  · exact h y (List.mem_filter.2 ⟨hy, bne_iff_ne.2 hne⟩)
  · rw [List.mem_singleton.1 hy]
    exact hx

/-- What is free after a substitution was free before, or is free in what was put in. -/
theorem mem_freeOccurrences_subst {σ : Subst} {t : Ty} {y : String}
    (h : y ∈ (t.subst σ).freeOccurrences) :
    y ∈ t.freeOccurrences ∨ ∃ p ∈ σ, y ∈ p.2.freeOccurrences := by
  induction t generalizing σ with
  | const | missing => exact .inl h
  | var x =>
    rw [subst] at h
    cases hx : σ.lookup x with
    | none =>
      rw [hx] at h
      exact .inl h
    | some u =>
      rw [hx] at h
      obtain ⟨l, r, rfl, -⟩ := List.lookup_eq_some_iff.1 hx
      exact .inr ⟨(x, u), by simp, h⟩
  | arrow a r iha ihr =>
    rcases List.mem_append.1 h with h | h
    · exact (iha h).imp_left (List.mem_append_left _)
    · exact (ihr h).imp_left (List.mem_append_right _)
  | app f a ihf iha =>
    rcases List.mem_append.1 h with h | h
    · exact (ihf h).imp_left (List.mem_append_left _)
    · exact (iha h).imp_left (List.mem_append_right _)
  | poly b t ih =>
    obtain ⟨h, hb⟩ := List.mem_filter.1 h
    rcases ih h with h | ⟨p, hp, h⟩
    · exact .inl (List.mem_filter.2 ⟨h, hb⟩)
    · exact .inr ⟨p, (List.mem_filter.1 hp).1, h⟩
  | list t ih => exact ih h

end Ty

namespace Equation
variable {P : String → Prop}

/-- Every free variable of the equations has the property. -/
def FreeOver (P : String → Prop) (es : List Equation) : Prop := ∀ y ∈ es.flatMap vars, P y

@[simp] theorem freeOver_nil : FreeOver P [] := by simp [FreeOver]

@[simp] theorem freeOver_cons {e : Equation} {es : List Equation} :
    FreeOver P (e :: es) ↔ (e.left.FreeOver P ∧ e.right.FreeOver P) ∧ FreeOver P es :=
  List.forall_mem_append.trans (and_congr_left' List.forall_mem_append)

@[simp] theorem freeOver_append {es es' : List Equation} :
    FreeOver P (es ++ es') ↔ FreeOver P es ∧ FreeOver P es' := by
  rw [FreeOver, List.flatMap_append, List.forall_mem_append]
  rfl

end Equation

namespace TypeEnv
variable {P : String → Prop} {env env' : TypeEnv}

/-- Every variable that is free in a scheme has the property. -/
def FreeOver (P : String → Prop) (env : TypeEnv) : Prop := ∀ y, env.Free y → P y

theorem FreeOver.union (h : env.FreeOver P) (h' : env'.FreeOver P) :
    (env.union env').FreeOver P := by
  rintro y ⟨z, σ, hz, hy⟩
  rw [get?_union] at hz
  rcases Option.or_eq_some_iff.1 hz with hz | ⟨-, hz⟩
  · exact h y ⟨z, σ, hz, hy⟩
  · exact h' y ⟨z, σ, hz, hy⟩

theorem FreeOver.set (h : env.FreeOver P) (x : String) {t : Ty} (ht : t.FreeOver P) :
    (env.set x t).FreeOver P := by
  rintro y ⟨z, σ, hz, hy⟩
  by_cases hzx : z = x
  · rw [hzx, get?_set_self, Option.some.injEq] at hz
    exact ht y (hz ▸ hy)
  · rw [get?_set_of_ne env t hzx] at hz
    exact h y ⟨z, σ, hz, hy⟩

theorem freeOver_empty (next : Int64) : FreeOver P { next } := by
  rintro y ⟨z, σ, hz, -⟩
  cases hz

end TypeEnv

/-- What is free in a resolved type is free in the type or in a pair, although variables are
replaced under binders, too. -/
theorem Solution.mem_freeOccurrences_resolve {s : Solution} {t : Ty} {y : String}
    (h : y ∈ (s.resolve t).freeOccurrences) :
    y ∈ t.freeOccurrences ∨ ∃ p ∈ s, y ∈ p.2.freeOccurrences := by
  fun_induction resolve s t with
  | case1 | case2 => exact .inl h
  | case3 s x _ => exact .inl h
  | case4 s x t hx ih =>
    obtain ⟨l, r, rfl, -⟩ := List.lookup_eq_some_iff.1 hx
    rcases ih h with h | ⟨p, hp, h⟩
    · exact .inr ⟨(x, t), by simp, h⟩
    · exact .inr ⟨p, (List.mem_filter.1 hp).1, h⟩
  | case5 s a r iha ihr =>
    rcases List.mem_append.1 h with h | h
    · exact (iha h).imp_left (List.mem_append_left _)
    · exact (ihr h).imp_left (List.mem_append_right _)
  | case6 s f a ihf iha =>
    rcases List.mem_append.1 h with h | h
    · exact (ihf h).imp_left (List.mem_append_left _)
    · exact (iha h).imp_left (List.mem_append_right _)
  | case7 s b t ih =>
    obtain ⟨h, hb⟩ := List.mem_filter.1 h
    exact (ih h).imp_left fun h => List.mem_filter.2 ⟨h, hb⟩
  | case8 s t ih => exact ih h

/-- A solution brings in nothing that is not free in the equations. -/
theorem Ty.FreeOver.resolve {P : String → Prop} {es : List Equation} {s : Solution} {t : Ty}
    (ht : t.FreeOver P) (hes : Equation.FreeOver P es) (hs : unify es = .ok s) :
    (s.resolve t).FreeOver P := by
  intro y hy
  rcases Solution.mem_freeOccurrences_resolve hy with hy | ⟨p, hp, hy⟩
  · exact ht y hy
  · exact hes y (((unify_drawn hs).2 p hp).2 hy)

/-! ## Variables that are taken in a part of a run -/

theorem Supply.freshList_add (s : Supply) (m n : Nat) :
    (s.freshList (m + n)).1 = (s.freshList m).1 ++ ((s.advance m).freshList n).1 := by
  rw [freshList_fst, freshList_fst, freshList_fst, List.range_add, List.map_append, List.map_map]
  refine congrArg (_ ++ ·) (List.map_congr_left fun i _ => ?_)
  rw [Supply.advance_advance]
  rfl

namespace Infer
variable {α : Type} {P : String → Prop} {st st' st'' : State}

/-- The second state comes after the first one: the supply was moved forward. -/
def State.Before (st st' : State) : Prop := ∃ k, st'.supply = st.supply.advance k

theorem State.Before.trans (h : st.Before st') (h' : st'.Before st'') : st.Before st'' := by
  obtain ⟨j, hj⟩ := h
  obtain ⟨k, hk⟩ := h'
  exact ⟨j + k, by rw [hk, hj, Supply.advance_advance]⟩

theorem Gives.before {x : Infer α} {a : α} (h : Gives x st a st') (hx : Steady x) :
    st.Before st' := by
  obtain ⟨k, hk⟩ := hx st
  rw [show outcome x st = (some a, st') from h] at hk
  exact ⟨k, hk⟩

/-- Every variable that is taken between the two states has the property. -/
def AllTaken (P : String → Prop) (st st' : State) : Prop :=
  ∀ k, st'.supply = st.supply.advance k → ∀ y ∈ (st.supply.freshList k).1, P y

theorem AllTaken.split (h : AllTaken P st st'') (h₁ : st.Before st') (h₂ : st'.Before st'') :
    AllTaken P st st' ∧ AllTaken P st' st'' := by
  obtain ⟨j, hj⟩ := h₁
  obtain ⟨k, hk⟩ := h₂
  have hboth (j k) (hj : st'.supply = st.supply.advance j) (hk : st''.supply = st'.supply.advance k)
      (y) (hy : y ∈ (st.supply.freshList j).1 ++ (st'.supply.freshList k).1) : P y := by
    rw [hj, ← Supply.freshList_add] at hy
    exact h (j + k) (by rw [hk, hj, Supply.advance_advance]) y hy
  exact ⟨fun j hj y hy => hboth j k hj hk y (List.mem_append_left _ hy),
    fun k hk y hy => hboth j k hj hk y (List.mem_append_right _ hy)⟩

theorem AllTaken.freshName {x : String} (h : AllTaken P st st') (hx : Gives freshName st x st') :
    P x := by
  rw [Gives, outcome_freshName, Prod.mk.injEq, Option.some.injEq] at hx
  obtain ⟨rfl, rfl⟩ := hx
  exact h 1 rfl _ (List.mem_singleton.2 rfl)

/-! ## The parts of generation -/

theorem instantiate_freeOver {σ t : Ty} (h : Gives (instantiate σ) st t st')
    (hσ : σ.FreeOver P) (htaken : AllTaken P st st') : t.FreeOver P := by
  induction σ using instantiate.induct generalizing st with
  | case1 b u ih =>
    rw [instantiate_poly, gives_bind] at h
    obtain ⟨x, st₁, hx, h⟩ := h
    obtain ⟨hfirst, hrest⟩ :=
      htaken.split (hx.before steady_freshName) (h.before (steady_instantiate _))
    exact ih x h (hσ.rename (hfirst.freshName hx)) hrest
  | case2 u hu =>
    rw [instantiate.eq_2 u hu, gives_pure] at h
    exact h.1 ▸ hσ

theorem ascribe_freeOver {t : Ty} {a : Option Ty} {E : List Equation}
    (h : Gives (ascribe t a) st E st') (ht : t.FreeOver P) (ha : ∀ u ∈ a, u.FreeOver P)
    (htaken : AllTaken P st st') : Equation.FreeOver P E := by
  cases a with
  | none =>
    rw [← (gives_pure.1 h).1]
    exact Equation.freeOver_nil
  | some u =>
    obtain ⟨v, st₁, hv, h⟩ := gives_bind.1 h
    obtain ⟨rfl, rfl⟩ := gives_pure.1 h
    simpa using ⟨ht, instantiate_freeOver hv (ha u rfl) htaken⟩

theorem literal_freeOver (p : Pat) {t : Ty} (ht : t.FreeOver P) :
    Equation.FreeOver P (literal p t) := by
  cases p <;> simp [literal, ht, Ty.int, Ty.string, Ty.bool, Ty.unit]

/-- A scheme binds the names that it takes from the supply, so that none of them is free. -/
theorem generalize_freeOver {E : List Equation} {env : TypeEnv} {t σ : Ty}
    (h : Gives (generalize E env t) st σ st') (hE : Equation.FreeOver P E)
    (ht : t.FreeOver P) : σ.FreeOver P := by
  rw [generalize_eq] at h
  obtain ⟨s, _, hs, h⟩ := gives_bind.1 h
  obtain ⟨names, _, -, h⟩ := gives_bind.1 h
  obtain ⟨_, _, -, h⟩ := gives_bind.1 h
  obtain ⟨rfl, -⟩ := gives_pure.1 h
  intro y hy
  obtain ⟨hy, hnames⟩ := Ty.mem_freeOccurrences_bindAll.1 hy
  rcases Ty.mem_freeOccurrences_subst hy with hy | ⟨p, hp, hy⟩
  · exact ht.resolve hE (gives_solve.1 hs).1 y hy
  · obtain ⟨x, hx, heq⟩ := List.mem_map.1 (List.of_mem_zip hp).2
    rw [← heq, Ty.freeOccurrences, List.mem_singleton] at hy
    exact absurd (List.mem_reverse.2 (hy ▸ hx)) hnames

/-- Everything in the type of a pattern is taken from the supply. -/
theorem pattern_freeOver {p : Pat} {pt : PatternType} (h : Gives (pattern p) st pt st')
    (htaken : AllTaken P st st') : pt.type.FreeOver P ∧ Equation.FreeOver P pt.equations ∧
      pt.bindings.FreeOver P := by
  induction p generalizing st st' pt with
  | number | string | boolean | unit =>
    obtain ⟨rfl, -⟩ := gives_pure.1 h
    exact ⟨Ty.freeOver_const _, Equation.freeOver_nil, TypeEnv.freeOver_empty _⟩
  | wildcard | nil =>
    obtain ⟨t, _, ht, h⟩ := gives_bind.1 h
    obtain ⟨rfl, rfl⟩ := gives_pure.1 h
    obtain ⟨x, hx, rfl⟩ := gives_fresh.1 ht
    exact ⟨Ty.freeOver_var.2 (htaken.freshName hx), Equation.freeOver_nil,
      TypeEnv.freeOver_empty _⟩
  | ident z =>
    obtain ⟨t, _, ht, h⟩ := gives_bind.1 h
    obtain ⟨rfl, rfl⟩ := gives_pure.1 h
    obtain ⟨x, hx, rfl⟩ := gives_fresh.1 ht
    have ht := Ty.freeOver_var.2 (htaken.freshName hx)
    exact ⟨ht, Equation.freeOver_nil, (TypeEnv.freeOver_empty _).set z ht⟩
  | cons p q ihp ihq =>
    obtain ⟨ht, st₁, tt, hp, hq, rfl⟩ := gives_pattern_cons.1 h
    obtain ⟨htp, htq⟩ := htaken.split (hp.before (steady_pattern p)) (hq.before (steady_pattern q))
    obtain ⟨hpt, hpe, hpb⟩ := ihp hp htp
    obtain ⟨hqt, hqe, hqb⟩ := ihq hq htq
    exact ⟨hpt, by simpa using ⟨hpe, hqe, hpt, hqt⟩, hpb.union hqb⟩
  | missing => exact absurd h gives_fail

theorem assume_freeOver {env : TypeEnv} (henv : env.FreeOver P) (p : Pat) {σ : Ty}
    (hσ : σ.FreeOver P) : (assume env p σ).FreeOver P := by
  cases p with
  | ident x => exact henv.set x hσ
  | _ => exact henv

/-! ## Generation -/

/-- The property holds of all that is free in what is generated for the expression, if it
holds of the variables of the environment and of those that are taken. -/
def FreelyOver (P : String → Prop) (e : Expr) : Prop :=
  ∀ {env : TypeEnv} {st st' : State} {t : Ty} {E : List Equation},
    Gives (generate env e) st (t, E) st' → env.FreeOver P → AllTaken P st st' →
      t.FreeOver P ∧ Equation.FreeOver P E

theorem arms_freeOver {arms : List (Pat × Expr)} (ih : ∀ arm ∈ arms, FreelyOver P arm.2)
    {whole : Expr} {env : TypeEnv} {value result : Ty} {E : List Equation}
    (h : Gives (generateArms whole env value result arms) st E st') (henv : env.FreeOver P)
    (hvalue : value.FreeOver P) (hresult : result.FreeOver P) (htaken : AllTaken P st st') :
    Equation.FreeOver P E := by
  induction arms generalizing st E with
  | nil =>
    rw [← (gives_pure.1 h).1]
    exact Equation.freeOver_nil
  | cons arm arms iharms =>
    obtain ⟨pt, st₁, bt, beqs, st₂, eqs, hp, hb, harms, rfl⟩ := gives_arm.1 h
    obtain ⟨harm, hrest⟩ := List.forall_mem_cons.1 ih
    have hb₁ := hb.before (steady_generate _ _)
    have ha₁ := harms.before (steady_generateArms _ _ _ _ _)
    obtain ⟨htp, htaken⟩ := htaken.split (hp.before (steady_pattern _)) (hb₁.trans ha₁)
    obtain ⟨htb, htarms⟩ := htaken.split hb₁ ha₁
    obtain ⟨hpt, hpe, hpb⟩ := pattern_freeOver hp htp
    obtain ⟨hbt, hbe⟩ := harm hb (hpb.union henv) htb
    have heqs := iharms hrest harms htarms
    simpa using ⟨hpe, hbe, ⟨hpt, hvalue⟩, ⟨hbt, hresult⟩, heqs⟩

/-- A definition hands on to the rest of the block what is free in its scheme: of this the
property holds, too. -/
theorem block_freeOver {ss : List Expr} (ih : ∀ s ∈ ss, FreelyOver P s)
    (ihd : ∀ k p a v, .define k p a v ∈ ss → FreelyOver P v ∧ ∀ u ∈ a, u.FreeOver P) :
    FreelyOver P (.block ss) := by
  intro env st st' t E h henv htaken
  induction ss generalizing env st E with
  | nil => exact absurd h gives_blame
  | cons s ss ihss =>
    cases ss with
    | nil =>
      rw [Gives, outcome_block_last] at h
      exact ih s (by simp) h henv htaken
    | cons s' ss =>
      have ihrest := @ihss (List.forall_mem_cons.1 ih).2 fun k p a v hv =>
        ihd k p a v (List.mem_cons_of_mem _ hv)
      cases hs : s.isDefinition with
      | true =>
        obtain ⟨k, p, a, v, rfl⟩ := Expr.isDefinition_iff.1 hs
        obtain ⟨ihv, hascribed⟩ := ihd k p a v (by simp)
        obtain ⟨-, vt, veqs, st₁, aeqs, st₂, σ, st₃, eqs, hv, ha, hσ, hrest, rfl⟩ :=
          gives_block_define.1 h
        have ha₁ := ha.before (steady_ascribe _ _)
        have hσ₁ := hσ.before (steady_generalize _ _ _)
        have hr₁ := hrest.before (steady_generate _ _)
        obtain ⟨htv, htaken⟩ :=
          htaken.split (hv.before (steady_generate _ _)) (ha₁.trans (hσ₁.trans hr₁))
        obtain ⟨hta, htaken⟩ := htaken.split ha₁ (hσ₁.trans hr₁)
        obtain ⟨-, htr⟩ := htaken.split hσ₁ hr₁
        obtain ⟨hvt, hve⟩ := ihv hv henv htv
        have hequations : Equation.FreeOver P (veqs ++ aeqs ++ literal p vt) := by
          simpa using ⟨hve, ascribe_freeOver ha hvt hascribed hta, literal_freeOver p hvt⟩
        have hσ := generalize_freeOver hσ hequations hvt
        obtain ⟨ht, heqs⟩ := ihrest hrest (assume_freeOver henv p hσ) htr
        exact ⟨ht, Equation.freeOver_append.2 ⟨hequations, heqs⟩⟩
      | false =>
        obtain ⟨r, st₁, hs, hrest⟩ := (gives_block_stmt hs).1 h
        obtain ⟨-, htr⟩ :=
          htaken.split (hs.before (steady_generate _ _)) (hrest.before (steady_generate _ _))
        exact ihrest hrest henv htr

/-- **Free variables come from the environment, from ascriptions or from the supply.**  The
induction is on the expression; the property stays the same for all of its parts. -/
theorem generate_freeOver {e : Expr} (hascribed : e.Ascribes (Ty.FreeOver P)) :
    FreelyOver P e := by
  induction e using Expr.induction with
  | number | string | boolean | unit =>
    intro env st st' t E h henv htaken
    obtain ⟨heq, -⟩ := gives_pure.1 h
    cases heq
    exact ⟨Ty.freeOver_const _, Equation.freeOver_nil⟩
  | nil =>
    intro env st st' t E h henv htaken
    obtain ⟨x, hx, rfl, rfl⟩ := gives_nil.1 h
    exact ⟨Ty.freeOver_var.2 (htaken.freshName hx), Equation.freeOver_nil⟩
  | ident x =>
    intro env st st' t E h henv htaken
    obtain ⟨σ, hσ, ht, rfl⟩ := gives_ident.1 h
    exact ⟨instantiate_freeOver ht (fun y hy => henv y ⟨x, σ, hσ, hy⟩) htaken,
      Equation.freeOver_nil⟩
  | binary op l r ihl ihr =>
    intro env st st' t E h henv htaken
    obtain ⟨-, hl, hr⟩ := Expr.everywhere_binary.1 hascribed
    obtain ⟨lt, leqs, st₁, rt, reqs, operand, hgl, hgr, hop, rfl⟩ := gives_binary.1 h
    obtain ⟨htl, htr⟩ :=
      htaken.split (hgl.before (steady_generate _ _)) (hgr.before (steady_generate _ _))
    obtain ⟨hlt, hle⟩ := ihl hl hgl henv htl
    obtain ⟨hrt, hre⟩ := ihr hr hgr henv htr
    obtain ⟨hoperand, ht⟩ : operand.FreeOver P ∧ t.FreeOver P := by
      rcases operation?_eq_some.1 hop with ⟨-, rfl, rfl⟩ | ⟨-, rfl, rfl⟩ | ⟨-, rfl, rfl⟩ <;>
        exact ⟨Ty.freeOver_const _, Ty.freeOver_const _⟩
    exact ⟨ht, by simpa using ⟨hle, hre, ⟨hlt, hoperand⟩, hrt, hoperand⟩⟩
  | cons u v ihu ihv =>
    intro env st st' t E h henv htaken
    obtain ⟨-, hu, hv⟩ := Expr.everywhere_cons.1 hascribed
    obtain ⟨ut, ueqs, st₁, vt, veqs, hgu, hgv, rfl, rfl⟩ := gives_cons.1 h
    obtain ⟨htu, htv⟩ :=
      htaken.split (hgu.before (steady_generate _ _)) (hgv.before (steady_generate _ _))
    obtain ⟨hut, hue⟩ := ihu hu hgu henv htu
    obtain ⟨hvt, hve⟩ := ihv hv hgv henv htv
    exact ⟨hut, by simpa using ⟨hue, hve, hvt, hut⟩⟩
  | cond c y n ihc ihy ihn =>
    intro env st st' t E h henv htaken
    obtain ⟨-, hc, hy, hn⟩ := Expr.everywhere_cond.1 hascribed
    obtain ⟨ct, ceqs, st₁, yeqs, st₂, nt, neqs, hgc, hgy, hgn, rfl⟩ := gives_cond.1 h
    have hy₁ := hgy.before (steady_generate _ _)
    have hn₁ := hgn.before (steady_generate _ _)
    obtain ⟨htc, htaken⟩ := htaken.split (hgc.before (steady_generate _ _)) (hy₁.trans hn₁)
    obtain ⟨hty, htn⟩ := htaken.split hy₁ hn₁
    obtain ⟨hct, hce⟩ := ihc hc hgc henv htc
    obtain ⟨hyt, hye⟩ := ihy hy hgy henv hty
    obtain ⟨hnt, hne⟩ := ihn hn hgn henv htn
    exact ⟨hyt, by simpa [Ty.bool] using ⟨hce, hye, hne, hct, hyt, hnt⟩⟩
  | lambda p a b ih =>
    intro env st st' t E h henv htaken
    obtain ⟨ha, hb⟩ := Expr.everywhere_lambda.1 hascribed
    obtain ⟨pt, st₁, bt, beqs, st₂, aeqs, hp, hgb, hga, rfl, rfl⟩ := gives_lambda.1 h
    have hb₁ := hgb.before (steady_generate _ _)
    have ha₁ := hga.before (steady_ascribe _ _)
    obtain ⟨htp, htaken⟩ := htaken.split (hp.before (steady_pattern p)) (hb₁.trans ha₁)
    obtain ⟨htb, hta⟩ := htaken.split hb₁ ha₁
    obtain ⟨hpt, hpe, hpb⟩ := pattern_freeOver hp htp
    obtain ⟨hbt, hbe⟩ := ih hb hgb (hpb.union henv) htb
    have hae := ascribe_freeOver hga hpt (fun u hu => ha u (Option.mem_toList.2 hu)) hta
    exact ⟨Ty.freeOver_arrow.2 ⟨hpt, hbt⟩, by simpa using ⟨hpe, hbe, hae⟩⟩
  | app f a ihf iha =>
    intro env st st' t E h henv htaken
    obtain ⟨-, hf, ha⟩ := Expr.everywhere_app.1 hascribed
    obtain ⟨ft, feqs, st₁, at_, aeqs, st₂, x, hgf, hga, hx, rfl, rfl⟩ := gives_app.1 h
    have ha₁ := hga.before (steady_generate _ _)
    have hx₁ := hx.before steady_freshName
    obtain ⟨htf, htaken⟩ := htaken.split (hgf.before (steady_generate _ _)) (ha₁.trans hx₁)
    obtain ⟨hta, htx⟩ := htaken.split ha₁ hx₁
    obtain ⟨hft, hfe⟩ := ihf hf hgf henv htf
    obtain ⟨hat, hae⟩ := iha ha hga henv hta
    have hx := htx.freshName hx
    exact ⟨Ty.freeOver_var.2 hx, by simpa using ⟨hfe, hae, hft, hat, hx⟩⟩
  | block ss ih ihd =>
    obtain ⟨-, hss⟩ := Expr.everywhere_block.1 hascribed
    refine block_freeOver (fun s hs => ih s hs (hss s hs)) fun k p a v hv => ?_
    obtain ⟨ha, hv'⟩ := Expr.everywhere_define.1 (hss _ hv)
    exact ⟨ihd k p a v hv hv', fun u hu => ha u (Option.mem_toList.2 hu)⟩
  | select v arms ihv ih =>
    intro env st st' t E h henv htaken
    obtain ⟨-, hv, harms⟩ := Expr.everywhere_select.1 hascribed
    obtain ⟨vt, veqs, st₁, x, st₂, eqs, hgv, hx, rfl, hgarms, rfl⟩ := gives_select.1 h
    have hx₁ := hx.before steady_freshName
    have harms₁ := hgarms.before (steady_generateArms _ _ _ _ _)
    obtain ⟨htv, htaken⟩ := htaken.split (hgv.before (steady_generate _ _)) (hx₁.trans harms₁)
    obtain ⟨htx, htarms⟩ := htaken.split hx₁ harms₁
    obtain ⟨hvt, hve⟩ := ihv hv hgv henv htv
    have hx := Ty.freeOver_var.2 (htx.freshName hx)
    have heqs := arms_freeOver (fun arm harm => ih arm harm (harms arm harm)) hgarms henv hvt hx
      htarms
    exact ⟨hx, Equation.freeOver_append.2 ⟨hve, heqs⟩⟩
  | define => exact fun h => absurd h gives_blame
  | missing => exact fun h => absurd h gives_fail

end Infer

end LetPoly
