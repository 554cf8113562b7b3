import LetPoly.Proofs.Placement
import LetPoly.Proofs.SessionNames

/-! # What inference complains about

A run of inference fails for a reason, and which reasons there can be is read off the
parts of the computation (`Infer.Raises`).  Where the definitions of an expression are
well placed there are few (`Infer.Fault`): a name without a type is one that the expression
refers to and that the environment does not hold, and of the forms that may stand where
they are not allowed only a list pattern in a definition is left
(`Infer.generate_raises`).
-/

namespace LetPoly

/-- Unification fails because two types are of different forms or because one would have to
contain itself. -/
theorem unify_error {es : List Equation} {err : TypeError} (h : unify es = .error err) :
    (∃ l r, err = .mismatch l r) ∨ ∃ x t, err = .infinite x t := by
  have hrest {p : String × Ty} {r : Except TypeError Solution} (h : r.map (p :: ·) = .error err) :
      r = .error err := by
    cases r with
    | ok => cases h
    | error => exact h
  fun_induction unify es with
  | case1 => cases h
  | case2 | case7 | case8 | case9 => rename_i ih; exact ih h
  | case3 rest x u =>
    cases h
    exact .inr ⟨x, u, rfl⟩
  | case5 rest u x =>
    cases h
    exact .inr ⟨x, u, rfl⟩
  | case4 | case6 => rename_i ih; exact ih (hrest h)
  | case10 rest l r =>
    cases h
    exact .inl ⟨l, r, rfl⟩

namespace Infer

/-! ## The failures of a computation -/

/-- **Every failure of the computation is as `P` says.** -/
def Raises {α : Type} (P : TypeError → Prop) (x : Infer α) : Prop :=
  ∀ st c st', x.run.run st = (.error c, st') → P c.error

section
variable {α β : Type} {P : TypeError → Prop}

theorem raises_pure (a : α) : Raises P (pure a : Infer α) := by
  intro st c st' h
  cases h

theorem raises_fail {e : TypeError} (h : P e) : Raises P (fail e : Infer α) := by
  intro st c st' hrun
  cases hrun
  exact h

theorem raises_blame (d : Expr) {e : TypeError} (h : P e) : Raises P (blame d e : Infer α) := by
  intro st c st' hrun
  cases hrun
  exact h

theorem raises_freshName : Raises P freshName := by
  intro st c st' h
  cases h

theorem raises_freshNames (n : Nat) : Raises P (freshNames n) := by
  intro st c st' h
  cases h

theorem raises_tell (e : Event) : Raises P (tell e) := by
  intro st c st' h
  cases h

theorem raises_solve (hmismatch : ∀ l r, P (.mismatch l r)) (hinfinite : ∀ x t, P (.infinite x t))
    (eqs : List Equation) : Raises P (solve eqs) := by
  rw [solve]
  cases h : unify eqs with
  | ok s => exact raises_pure s
  | error e =>
    refine raises_fail ?_
    obtain ⟨l, r, rfl⟩ | ⟨x, t, rfl⟩ := unify_error h
    · exact hmismatch l r
    · exact hinfinite x t

theorem Raises.blaming {x : Infer α} (h : Raises P x) (d : Expr) : Raises P (blaming d x) := by
  intro st c st' hrun
  rw [run_blaming] at hrun
  rcases hx : x.run.run st with ⟨c' | a, st₁⟩
  · rw [hx] at hrun
    cases hrun
    exact h st c' _ hx
  · rw [hx] at hrun
    cases hrun

/-- The second computation runs only on what the first one gives. -/
theorem Raises.bind {x : Infer α} {f : α → Infer β} (hx : Raises P x)
    (hf : ∀ st a st', Gives x st a st' → Raises P (f a)) : Raises P (x >>= f) := by
  intro st c st' hrun
  rw [run_bind] at hrun
  rcases hr : x.run.run st with ⟨d | a, st₁⟩
  · rw [hr] at hrun
    cases hrun
    exact hx st _ _ hr
  · rw [hr] at hrun
    have hgives : Gives x st a st₁ := by
      rw [Gives, outcome, hr]
      rfl
    exact hf st a st₁ hgives st₁ c st' hrun

theorem raises_fresh : Raises P fresh := raises_freshName.bind fun _ _ _ _ => raises_pure _

theorem raises_instantiate (t : Ty) : Raises P (instantiate t) := by
  fun_induction instantiate t with
  | case1 b t ih => exact raises_freshName.bind fun _ x _ _ => ih x
  | case2 t _ => exact raises_pure t

theorem raises_ascribe (t : Ty) (a : Option Ty) : Raises P (ascribe t a) := by
  cases a with
  | none => exact raises_pure _
  | some a => exact (raises_instantiate a).bind fun _ _ _ _ => raises_pure _

end

/-! ## Faults -/

/-- **What can be wrong with an expression whose definitions are well placed.**  The names
without a type are as `missing` says. -/
inductive Fault (missing : String → Prop) : TypeError → Prop
  | unbound {x : String} (h : missing x) : Fault missing (.unbound x)
  | mismatch (l r : Ty) : Fault missing (.mismatch l r)
  | infinite (x : String) (t : Ty) : Fault missing (.infinite x t)
  | definedPattern (p : Pat) : Fault missing (.disallowed (.definedPattern p))
  | unknownOperator (op : Op) : Fault missing (.unknownOperator op)
  | emptyExpression : Fault missing .emptyExpression
  | emptyPattern : Fault missing .emptyPattern

theorem Fault.mono {missing missing' : String → Prop} {e : TypeError} (h : Fault missing e)
    (himp : ∀ x, missing x → missing' x) : Fault missing' e := by
  cases h with
  | unbound hx => exact .unbound (himp _ hx)
  | mismatch l r => exact .mismatch l r
  | infinite x t => exact .infinite x t
  | definedPattern p => exact .definedPattern p
  | unknownOperator op => exact .unknownOperator op
  | emptyExpression => exact .emptyExpression
  | emptyPattern => exact .emptyPattern

theorem Raises.mono {α : Type} {missing missing' : String → Prop} {x : Infer α}
    (h : Raises (Fault missing) x) (himp : ∀ y, missing y → missing' y) :
    Raises (Fault missing') x :=
  fun st c st' hrun => (h st c st' hrun).mono himp

section
variable {missing : String → Prop}

theorem raises_pattern (p : Pat) : Raises (Fault missing) (pattern p) := by
  induction p with
  | number | string | boolean | unit => exact raises_pure _
  | wildcard | ident | nil => exact raises_fresh.bind fun _ _ _ _ => raises_pure _
  | cons h t ihh iht => exact ihh.bind fun _ _ _ _ => iht.bind fun _ _ _ _ => raises_pure _
  | missing => exact raises_fail .emptyPattern

theorem raises_generalize (eqs : List Equation) (env : TypeEnv) (t : Ty) :
    Raises (Fault missing) (generalize eqs env t) :=
  (raises_solve .mismatch .infinite eqs).bind fun _ _ _ _ => (raises_freshNames _).bind
    fun _ _ _ _ => (raises_tell _).bind fun _ _ _ _ => raises_pure _

/-- A definition fails as its value does, because it defines a list pattern, or because
its equations have no solution. -/
theorem raises_bindWith (env : TypeEnv) (d : Definition) {value : Infer (Ty × List Equation)}
    (h : Raises (Fault missing) value) : Raises (Fault missing) (bindWith env d value) := by
  cases hp : d.pat.isList with
  | true =>
    rw [bindWith_list env d value hp]
    exact raises_blame _ (.definedPattern _)
  | false =>
    rw [bindWith_eq env d value hp]
    exact h.bind fun _ _ _ _ => (raises_ascribe _ _).bind fun _ _ _ _ =>
      ((raises_generalize _ _ _).blaming _).bind fun _ _ _ _ => raises_pure _

end

/-! ## Expressions -/

/-- A name that an expression refers to has no type. -/
def Lacks (env : TypeEnv) (names : List String) (x : String) : Prop :=
  x ∈ names ∧ env.get? x = none

theorem Lacks.mono {env : TypeEnv} {xs ys : List String} (h : ∀ x ∈ xs, x ∈ ys) (x : String)
    (hx : Lacks env xs x) : Lacks env ys x :=
  ⟨h x hx.1, hx.2⟩

/-- What a body lacks under the names of a pattern, it lacks outside of it. -/
theorem Lacks.outside {env env' : TypeEnv} {p : Pat} {xs : List String}
    (h : ∀ x, (env'.get? x).isSome ↔ x ∈ p.names ∨ (env.get? x).isSome) (x : String)
    (hx : Lacks env' xs x) : Lacks env (xs.filter (· ∉ p.names)) x := by
  have hnone : ¬(x ∈ p.names ∨ (env.get? x).isSome) := by
    rw [← h x, hx.2]
    simp
  rw [not_or, Option.not_isSome_iff_eq_none] at hnone
  exact ⟨List.mem_filter.2 ⟨hx.1, by simpa using hnone.1⟩, hnone.2⟩

/-- Every failure of inference on the expression is a fault. -/
def RaisesFaults (e : Expr) : Prop :=
  ∀ ⦃env : TypeEnv⦄, e.Placed → Raises (Fault (Lacks env e.free)) (generate env e)

/-- A body with the names of its pattern. -/
theorem RaisesFaults.under {b : Expr} (hb : RaisesFaults b) (hplaced : b.Placed)
    (env : TypeEnv) {p : Pat} {pt : PatternType} {st st' : State}
    (hp : Gives (pattern p) st pt st') :
    Raises (Fault (Lacks env (b.free.filter (· ∉ p.names))))
      (generate (pt.bindings.union env) b) := by
  refine (hb hplaced).mono (Lacks.outside fun x => ?_)
  rw [TypeEnv.isSome_get?_union, isSome_get?_pattern hp]

theorem raises_arms {arms : List (Pat × Expr)} (ih : ∀ arm ∈ arms, RaisesFaults arm.2)
    (hplaced : ∀ arm ∈ arms, arm.2.Placed) (whole : Expr) (env : TypeEnv) (value result : Ty) :
    Raises (Fault (Lacks env (Expr.freeArms arms)))
      (generateArms whole env value result arms) := by
  induction arms with
  | nil => exact raises_pure _
  | cons arm arms iharms =>
    have hfirst {pt : PatternType} {st st' : State} (hp : Gives (pattern arm.1) st pt st') :=
      (ih arm List.mem_cons_self).under (hplaced arm List.mem_cons_self) env hp
    have hrest := iharms (fun a ha => ih a (List.mem_cons_of_mem _ ha))
      fun a ha => hplaced a (List.mem_cons_of_mem _ ha)
    rw [generateArms_cons]
    refine ((raises_pattern _).blaming _).bind fun _ pt _ hp => ?_
    refine ((hfirst (gives_blaming.1 hp)).mono (Lacks.mono fun x hx => ?_)).bind
      fun _ _ _ _ => ?_
    · exact List.mem_append_left _ hx
    refine (hrest.mono (Lacks.mono fun x hx => ?_)).bind fun _ _ _ _ => raises_pure _
    exact List.mem_append_right _ hx

theorem raises_block {ss : List Expr} (ih : ∀ s ∈ ss, RaisesFaults s)
    (ihd : ∀ k p a v, .define k p a v ∈ ss → RaisesFaults v) (hplaced : (Expr.block ss).Placed)
    (whole : Expr) (env : TypeEnv) :
    Raises (Fault (Lacks env (Expr.freeStmts ss))) (generateBlock whole env ss) := by
  induction ss generalizing env with
  | nil => exact absurd hplaced Expr.not_placed_block_nil
  | cons s ss ihss =>
    have ihss := ihss (fun e he => ih e (List.mem_cons_of_mem _ he))
      fun k p a v he => ihd k p a v (List.mem_cons_of_mem _ he)
    cases ss with
    | nil =>
      have hs := Expr.placed_block_last.1 hplaced
      rw [generateBlock_last whole env hs.not_definition]
      refine (ih s List.mem_cons_self hs).mono (Lacks.mono fun x hx => ?_)
      rw [Expr.freeStmts_stmt hs.not_definition]
      exact List.mem_append_left _ hx
    | cons s' ss =>
      cases hs : s.isDefinition with
      | true =>
        obtain ⟨k, p, a, v, rfl⟩ := Expr.isDefinition_iff.1 hs
        obtain ⟨hv, hrest⟩ := Expr.placed_block_define.1 hplaced
        rw [generateBlock_define, Expr.freeStmts_define]
        refine (raises_bindWith env _ ((ihd k p a v List.mem_cons_self hv).mono
          (Lacks.mono fun x hx => ?_))).bind fun st d st' hd => ?_
        · exact List.mem_append_left _ hx
        refine ((ihss hrest d.env).mono fun x hx => ?_).bind fun _ _ _ _ => raises_pure _
        -- the environment after the definition has the names of its pattern
        cases hp : p.isList with
        | true =>
          rw [bindWith_list env _ _ hp] at hd
          exact absurd hd gives_blame
        | false =>
          rw [bindWith_eq env _ _ hp] at hd
          simp only [gives_bind, gives_pure] at hd
          obtain ⟨_, _, -, _, _, -, σ, _, -, rfl, -⟩ := hd
          exact (Lacks.outside (isSome_get?_assume env hp σ) x hx).imp_left
            fun h => List.mem_append_right _ h
      | false =>
        obtain ⟨hplace, hrest⟩ := (Expr.placed_block_stmt hs).1 hplaced
        rw [generateBlock_stmt whole env hs, Expr.freeStmts_stmt hs]
        refine ((ih s List.mem_cons_self hplace).mono (Lacks.mono fun x hx => ?_)).bind
          fun _ _ _ _ => (ihss hrest env).mono (Lacks.mono fun x hx => ?_)
        · exact List.mem_append_left _ hx
        · exact List.mem_append_right _ hx

/-- **Inference fails on a well-placed expression for want of a name that it refers to, or
for another fault.** -/
theorem generate_raises (e : Expr) : RaisesFaults e := by
  induction e using Expr.induction with
  | number | string | boolean | unit => exact fun _ _ => raises_pure _
  | nil => exact fun _ _ => raises_fresh.bind fun _ _ _ _ => raises_pure _
  | ident x =>
    intro env _
    rw [generate_ident]
    cases hx : env.get? x with
    | some σ => exact (raises_instantiate σ).bind fun _ _ _ _ => raises_pure _
    | none => exact raises_blame _ (.unbound ⟨List.mem_cons_self, hx⟩)
  | binary op l r ihl ihr =>
    intro env h
    obtain ⟨hl, hr⟩ := Expr.placed_binary.1 h
    rw [generate_binary]
    refine ((ihl hl).mono (Lacks.mono fun x hx => List.mem_append_left _ hx)).bind
      fun _ _ _ _ => ((ihr hr).mono (Lacks.mono fun x hx => List.mem_append_right _ hx)).bind
        fun _ _ _ _ => ?_
    cases operation? op with
    | some types => exact raises_pure _
    | none => exact raises_blame _ (.unknownOperator op)
  | cons u v ihu ihv =>
    intro env h
    obtain ⟨hu, hv⟩ := Expr.placed_cons.1 h
    rw [generate_cons]
    exact ((ihu hu).mono (Lacks.mono fun x hx => List.mem_append_left _ hx)).bind
      fun _ _ _ _ => ((ihv hv).mono (Lacks.mono fun x hx => List.mem_append_right _ hx)).bind
        fun _ _ _ _ => raises_pure _
  | cond c y n ihc ihy ihn =>
    intro env h
    obtain ⟨hc, hy, hn⟩ := Expr.placed_cond.1 h
    have hfree : (Expr.cond c y n).free = c.free ++ (y.free ++ n.free) := by
      rw [Expr.free, List.append_assoc]
    rw [generate_cond, hfree]
    exact ((ihc hc).mono (Lacks.mono fun x hx => List.mem_append_left _ hx)).bind
      fun _ _ _ _ => ((ihy hy).mono (Lacks.mono fun x hx =>
          List.mem_append_right _ (List.mem_append_left _ hx))).bind
        fun _ _ _ _ => ((ihn hn).mono (Lacks.mono fun x hx =>
            List.mem_append_right _ (List.mem_append_right _ hx))).bind
          fun _ _ _ _ => raises_pure _
  | lambda p a b ihb =>
    intro env h
    rw [generate_lambda]
    exact ((raises_pattern p).blaming _).bind fun _ _ _ hp =>
      (ihb.under (Expr.placed_lambda.1 h) _ (gives_blaming.1 hp)).bind fun _ _ _ _ =>
        (raises_ascribe _ a).bind fun _ _ _ _ => raises_pure _
  | app f a ihf iha =>
    intro env h
    obtain ⟨hf, ha⟩ := Expr.placed_app.1 h
    rw [generate_app]
    exact ((ihf hf).mono (Lacks.mono fun x hx => List.mem_append_left _ hx)).bind
      fun _ _ _ _ => ((iha ha).mono (Lacks.mono fun x hx => List.mem_append_right _ hx)).bind
        fun _ _ _ _ => raises_fresh.bind fun _ _ _ _ => raises_pure _
  | block ss ih ihd => exact fun env h => raises_block ih ihd h _ env
  | select v arms ihv iharms =>
    intro env h
    obtain ⟨hv, harms⟩ := Expr.placed_select.1 h
    rw [generate_select]
    exact ((ihv hv).mono (Lacks.mono fun x hx => List.mem_append_left _ hx)).bind
      fun _ _ _ _ => raises_fresh.bind fun _ _ _ _ =>
        ((raises_arms iharms harms _ env _ _).mono
          (Lacks.mono fun x hx => List.mem_append_right _ hx)).bind
          fun _ _ _ _ => raises_pure _
  | define => exact fun _ h => absurd h Expr.not_placed_define
  | missing => exact fun _ _ => raises_fail .emptyExpression

end Infer

namespace Context

/-- A computation on an expression fails in a context as it does by itself. -/
theorem runOn_raises {α : Type} {P : TypeError → Prop} {x : Infer α} (hx : Infer.Raises P x)
    {ctx : Context} {whole : Expr} {err : TypeError} (h : (ctx.runOn whole x).1 = .error err) :
    P err := by
  rw [(ctx.runOn_run whole x).1] at h
  rcases hr : x.run.run ⟨ctx.supply, ctx.log⟩ with ⟨c | a, st⟩
  · rw [hr] at h
    cases h
    exact hx _ c st hr
  · rw [hr] at h
    cases h

/-- **What inference of a well-placed expression fails for**, in every context and
environment. -/
theorem infer_faults {ctx : Context} {env : TypeEnv} {e : Expr} (he : e.Placed)
    {err : TypeError} (h : (ctx.infer env e).1 = .error err) :
    Infer.Fault (Infer.Lacks env e.free) err := by
  have hraises : Infer.Raises (Infer.Fault (Infer.Lacks env e.free)) (Infer.infer env e) :=
    (Infer.generate_raises e he).bind fun _ _ _ _ =>
      (Infer.raises_solve .mismatch .infinite _).bind fun _ _ _ _ =>
        (Infer.raises_tell _).bind fun _ _ _ _ => Infer.raises_pure _
  cases e with
  | missing =>
    cases h
    exact .emptyExpression
  | _ => exact runOn_raises hraises h

end Context

end LetPoly
