import LetPoly.Proofs.Typing

/-! # Constraint generation, opened

What a run of `generate` did, for each kind of expression: which runs it is made of
and which type and equations it put together (`gives_binary` and its like).  These
are equivalences, and later proofs use them in both directions and never unfold
`generate`.  A definition of a block is one step, and the rest of the block is a
block again (`gives_block_define`).
-/

namespace LetPoly

/-- A list pattern. -/
def Pat.isList : Pat → Bool
  | .cons .. | .nil => true
  | _ => false

namespace Infer

/-! ## Definitions -/

/-- The equation that an ascription adds. -/
def ascribe (t : Ty) : Option Ty → Infer (List Equation)
  | some a => do return [⟨t, ← instantiate a⟩]
  | none => pure []

/-- The equation that a literal pattern of a definition adds. -/
def literal (p : Pat) (t : Ty) : List Equation :=
  match p with
  | .number _ => [⟨.int, t⟩]
  | .string _ => [⟨.string, t⟩]
  | .boolean _ => [⟨.bool, t⟩]
  | .unit => [⟨.unit, t⟩]
  | .wildcard | .ident _ | .cons .. | .nil | .missing => []

/-- The environment after a definition with this scheme. -/
def assume (env : TypeEnv) (p : Pat) (σ : Ty) : TypeEnv :=
  match p with
  | .ident x => env.set x σ
  | _ => env

theorem bindWith_eq (env : TypeEnv) (d : Definition) (value : Infer (Ty × List Equation))
    (hp : d.pat.isList = false) :
    bindWith env d value = do
      let (t, eqs) ← value
      let ascribed ← ascribe t d.ascription
      let scheme ← blaming d.expr (generalize (eqs ++ ascribed ++ literal d.pat t) env t)
      return ⟨assume env d.pat scheme, eqs ++ ascribed ++ literal d.pat t, scheme⟩ := by
  rcases d with ⟨k, p, a, v⟩
  cases p <;> cases a <;>
    simp [bindWith, Pat.isList, ascribe, literal, assume, Pat.isLiteral, pattern] at hp ⊢

theorem bindWith_list (env : TypeEnv) (d : Definition) (value : Infer (Ty × List Equation))
    (hp : d.pat.isList) :
    bindWith env d value = blame d.expr (.disallowed (.definedPattern d.pat)) := by
  rcases d with ⟨k, p, a, v⟩
  cases p <;> simp [Pat.isList] at hp <;> rfl

/-! ## The equations of `generate` -/

theorem generate_nil (env : TypeEnv) :
    generate env .nil = fresh >>= fun t => pure (.list t, []) := rfl

theorem generate_ident (env : TypeEnv) (x : String) :
    generate env (.ident x) = (match env.get? x with
      | some scheme => instantiate scheme >>= fun t => pure (t, [])
      | none => blame (.ident x) (.unbound x)) := rfl

theorem generate_binary (env : TypeEnv) (op : Op) (l r : Expr) :
    generate env (.binary op l r) = (do
      let (lt, leqs) ← generate env l
      let (rt, reqs) ← generate env r
      match operation? op with
      | some (operand, result) =>
        return (result, leqs ++ reqs ++ [⟨lt, operand⟩, ⟨rt, operand⟩])
      | none => blame (.binary op l r) (.unknownOperator op)) := rfl

theorem generate_cons (env : TypeEnv) (h u : Expr) :
    generate env (.cons h u) = do
      let (ht, heqs) ← generate env h
      let (ut, ueqs) ← generate env u
      return (.list ht, heqs ++ ueqs ++ [⟨ut, .list ht⟩]) := rfl

theorem generate_cond (env : TypeEnv) (c y n : Expr) :
    generate env (.cond c y n) = do
      let (ct, ceqs) ← generate env c
      let (yt, yeqs) ← generate env y
      let (nt, neqs) ← generate env n
      return (yt, ceqs ++ yeqs ++ neqs ++ [⟨ct, .bool⟩, ⟨yt, nt⟩]) := rfl

theorem generate_lambda (env : TypeEnv) (p : Pat) (a : Option Ty) (b : Expr) :
    generate env (.lambda p a b) = do
      let pt ← blaming (.lambda p a b) (pattern p)
      let (bt, beqs) ← generate (pt.bindings.union env) b
      let ascribed ← ascribe pt.type a
      return (.arrow pt.type bt, pt.equations ++ beqs ++ ascribed) := by
  cases a with
  | none => rfl
  | some a =>
    simp only [ascribe, bind_assoc, pure_bind]
    rfl

theorem generate_app (env : TypeEnv) (f a : Expr) :
    generate env (.app f a) = do
      let (ft, feqs) ← generate env f
      let (at_, aeqs) ← generate env a
      let result ← fresh
      return (result, feqs ++ aeqs ++ [⟨ft, .arrow at_ result⟩]) := rfl

theorem generate_block (env : TypeEnv) (ss : List Expr) :
    generate env (.block ss) = generateBlock (.block ss) env ss := rfl

theorem generate_select (env : TypeEnv) (v : Expr) (arms : List (Pat × Expr)) :
    generate env (.select v arms) = do
      let (vt, veqs) ← generate env v
      let result ← fresh
      let eqs ← generateArms (.select v arms) env vt result arms
      return (result, veqs ++ eqs) := rfl

theorem generateArms_cons (whole : Expr) (env : TypeEnv) (value result : Ty) (arm : Pat × Expr)
    (arms : List (Pat × Expr)) :
    generateArms whole env value result (arm :: arms) = do
      let pt ← blaming whole (pattern arm.1)
      let (bt, beqs) ← generate (pt.bindings.union env) arm.2
      let eqs ← generateArms whole env value result arms
      return pt.equations ++ beqs ++ [⟨pt.type, value⟩, ⟨bt, result⟩] ++ eqs := rfl

theorem generateBlock_define (whole : Expr) (env : TypeEnv) (k : Binder) (p : Pat)
    (a : Option Ty) (v s : Expr) (ss : List Expr) :
    generateBlock whole env (.define k p a v :: s :: ss) = do
      let d ← bindWith env ⟨k, p, a, v⟩ (generate env v)
      let (t, eqs) ← generateBlock whole d.env (s :: ss)
      return (t, d.equations ++ eqs) := rfl

theorem generateBlock_stmt (whole : Expr) (env : TypeEnv) {e : Expr} (he : e.isDefinition = false)
    (s : Expr) (ss : List Expr) :
    generateBlock whole env (e :: s :: ss) =
      generate env e >>= fun _ => generateBlock whole env (s :: ss) := by
  cases e with
  | define => cases he
  | _ => rfl

theorem generateBlock_last (whole : Expr) (env : TypeEnv) {e : Expr}
    (he : e.isDefinition = false) : generateBlock whole env [e] = generate env e := by
  cases e with
  | define => cases he
  | _ => rfl

/-- A single statement is generated as it stands; if it is a definition, both fail. -/
theorem outcome_generateBlock_last (whole : Expr) (env : TypeEnv) (e : Expr) (st : State) :
    outcome (generateBlock whole env [e]) st = outcome (generate env e) st := by
  cases e <;> rfl

/-! ## Every run is made of steps -/

theorem built_ascribe (t : Ty) (a : Option Ty) : Built (ascribe t a) := by
  cases a with
  | none => exact .pure _
  | some a => exact .bind (built_instantiate a) fun _ => .pure _

theorem built_pattern (p : Pat) : Built (pattern p) := by
  induction p with
  | number | string | boolean | unit => exact .pure _
  | wildcard | ident | nil => exact .bind built_fresh fun _ => .pure _
  | cons h t ihh iht => exact .bind ihh fun _ => .bind iht fun _ => .pure _
  | missing => exact .fail _

theorem built_bindWith (env : TypeEnv) (d : Definition) {value : Infer (Ty × List Equation)}
    (h : Built value) : Built (bindWith env d value) := by
  cases hp : d.pat.isList with
  | true =>
    rw [bindWith_list env d value hp]
    exact .blame _ _
  | false =>
    rw [bindWith_eq env d value hp]
    exact .bind h fun (_, _) => .bind (built_ascribe _ _) fun _ =>
      .bind (.blaming _ (built_generalize _ _ _)) fun _ => .pure _

theorem built_generateArms {arms : List (Pat × Expr)}
    (h : ∀ arm ∈ arms, ∀ env, Built (generate env arm.2)) (whole : Expr) (env : TypeEnv)
    (value result : Ty) : Built (generateArms whole env value result arms) := by
  induction arms with
  | nil => exact .pure _
  | cons arm arms ih =>
    rw [generateArms_cons]
    exact .bind (.blaming _ (built_pattern _)) fun _ => .bind (h arm (by simp) _) fun (_, _) =>
      .bind (ih fun arm' hmem => h arm' (List.mem_cons_of_mem _ hmem)) fun _ => .pure _

theorem built_generateBlock {ss : List Expr} (h : ∀ s ∈ ss, ∀ env, Built (generate env s))
    (hd : ∀ k p a v, .define k p a v ∈ ss → ∀ env, Built (generate env v)) (whole : Expr)
    (env : TypeEnv) : Built (generateBlock whole env ss) := by
  induction ss generalizing env with
  | nil => exact .blame _ _
  | cons s ss ih =>
    have ih := ih (fun s' hmem => h s' (List.mem_cons_of_mem _ hmem))
      fun k p a v hmem => hd k p a v (List.mem_cons_of_mem _ hmem)
    cases hs : s.isDefinition with
    | true =>
      obtain ⟨k, p, a, v, rfl⟩ := Expr.isDefinition_iff.1 hs
      cases ss with
      | nil => exact .blame _ _
      | cons s' ss =>
        rw [generateBlock_define]
        exact .bind (built_bindWith env _ (hd k p a v (by simp) env)) fun d =>
          .bind (ih d.env) fun (_, _) => .pure _
    | false =>
      cases ss with
      | nil =>
        rw [generateBlock_last whole env hs]
        exact h s (by simp) env
      | cons s' ss =>
        rw [generateBlock_stmt whole env hs]
        exact .bind (h s (by simp) env) fun _ => ih env

theorem built_generate (env : TypeEnv) (e : Expr) : Built (generate env e) := by
  induction e using Expr.induction generalizing env with
  | number | string | boolean | unit => exact .pure _
  | nil => exact .bind built_fresh fun _ => .pure _
  | ident x =>
    rw [generate_ident]
    split
    · exact .bind (built_instantiate _) fun _ => .pure _
    · exact .blame _ _
  | binary op l r ihl ihr =>
    rw [generate_binary]
    refine .bind (ihl env) fun (_, _) => .bind (ihr env) fun (_, _) => ?_
    cases operation? op with
    | none => exact .blame _ _
    | some _ => exact .pure _
  | cons h t ihh iht =>
    rw [generate_cons]
    exact .bind (ihh env) fun (_, _) => .bind (iht env) fun (_, _) => .pure _
  | cond c y n ihc ihy ihn =>
    rw [generate_cond]
    exact .bind (ihc env) fun (_, _) => .bind (ihy env) fun (_, _) =>
      .bind (ihn env) fun (_, _) => .pure _
  | lambda p a b ih =>
    rw [generate_lambda]
    exact .bind (.blaming _ (built_pattern p)) fun _ => .bind (ih _) fun (_, _) =>
      .bind (built_ascribe _ a) fun _ => .pure _
  | app f a ihf iha =>
    rw [generate_app]
    exact .bind (ihf env) fun (_, _) => .bind (iha env) fun (_, _) => .bind built_fresh fun _ =>
      .pure _
  | block ss ih ihd =>
    rw [generate_block]
    exact built_generateBlock ih ihd _ env
  | select v arms ihv iharms =>
    rw [generate_select]
    exact .bind (ihv env) fun (_, _) => .bind built_fresh fun _ =>
      .bind (built_generateArms iharms _ env _ _) fun _ => .pure _
  | define k p a v => exact .blame _ _
  | missing => exact .fail _

theorem steady_ascribe (t : Ty) (a : Option Ty) : Steady (ascribe t a) :=
  (built_ascribe t a).steady

theorem steady_pattern (p : Pat) : Steady (pattern p) := (built_pattern p).steady

theorem steady_generate (env : TypeEnv) (e : Expr) : Steady (generate env e) :=
  (built_generate env e).steady

theorem steady_generateArms (whole : Expr) (env : TypeEnv) (value result : Ty)
    (arms : List (Pat × Expr)) : Steady (generateArms whole env value result arms) :=
  (built_generateArms (fun _ _ env => built_generate env _) whole env value result).steady

theorem steady_generateBlock (whole : Expr) (env : TypeEnv) (ss : List Expr) :
    Steady (generateBlock whole env ss) :=
  (built_generateBlock (fun _ _ env => built_generate env _)
    (fun _ _ _ _ _ env => built_generate env _) whole env).steady

/-! ## What a run did -/

theorem operation?_eq_some {op : Op} {a c : Ty} : operation? op = some (a, c) ↔
    (op.isArithmetic ∧ a = .int ∧ c = .int) ∨ (op.isRelational ∧ a = .int ∧ c = .bool) ∨
      (op.isLogical ∧ a = .bool ∧ c = .bool) := by
  cases op <;>
    simp [operation?, Op.isArithmetic, Op.isRelational, Op.isLogical, eq_comm (b := a),
      eq_comm (b := c)]

section Gives
variable {env : TypeEnv} {st st' : State} {t : Ty} {E : List Equation}

theorem gives_nil : Gives (generate env .nil) st (t, E) st' ↔
    ∃ x, Gives freshName st x st' ∧ t = .list (.var x) ∧ E = [] := by
  rw [generate_nil]
  simp only [gives_bind, gives_fresh, gives_pure, Prod.mk.injEq]
  constructor
  · rintro ⟨_, _, ⟨x, hx, rfl⟩, ⟨rfl, rfl⟩, rfl⟩
    exact ⟨x, hx, rfl, rfl⟩
  · rintro ⟨x, hx, rfl, rfl⟩
    exact ⟨_, _, ⟨x, hx, rfl⟩, ⟨rfl, rfl⟩, rfl⟩

theorem gives_ident {x : String} : Gives (generate env (.ident x)) st (t, E) st' ↔
    ∃ σ, env.get? x = some σ ∧ Gives (instantiate σ) st t st' ∧ E = [] := by
  rw [generate_ident]
  cases env.get? x with
  | none => simp
  | some σ =>
    simp only [gives_bind, gives_pure, Prod.mk.injEq, Option.some.injEq]
    constructor
    · rintro ⟨_, _, h, ⟨rfl, rfl⟩, rfl⟩
      exact ⟨σ, rfl, h, rfl⟩
    · rintro ⟨_, rfl, h, rfl⟩
      exact ⟨_, _, h, ⟨rfl, rfl⟩, rfl⟩

theorem gives_binary {op : Op} {l r : Expr} :
    Gives (generate env (.binary op l r)) st (t, E) st' ↔
      ∃ lt leqs st₁ rt reqs operand, Gives (generate env l) st (lt, leqs) st₁ ∧
        Gives (generate env r) st₁ (rt, reqs) st' ∧ operation? op = some (operand, t) ∧
        E = leqs ++ reqs ++ [⟨lt, operand⟩, ⟨rt, operand⟩] := by
  rw [generate_binary]
  simp only [gives_bind, Prod.exists]
  constructor
  · rintro ⟨lt, leqs, st₁, hl, rt, reqs, st₂, hr, h⟩
    cases hop : operation? op with
    | none => simp [hop] at h
    | some types =>
      simp only [hop, gives_pure, Prod.mk.injEq] at h
      obtain ⟨⟨rfl, rfl⟩, rfl⟩ := h
      exact ⟨lt, leqs, st₁, rt, reqs, types.1, hl, hr, rfl, rfl⟩
  · rintro ⟨lt, leqs, st₁, rt, reqs, operand, hl, hr, hop, rfl⟩
    exact ⟨lt, leqs, st₁, hl, rt, reqs, st', hr, by simp [hop]⟩

theorem gives_cons {h u : Expr} : Gives (generate env (.cons h u)) st (t, E) st' ↔
    ∃ ht heqs st₁ ut ueqs, Gives (generate env h) st (ht, heqs) st₁ ∧
      Gives (generate env u) st₁ (ut, ueqs) st' ∧ t = .list ht ∧
      E = heqs ++ ueqs ++ [⟨ut, .list ht⟩] := by
  rw [generate_cons]
  simp only [gives_bind, Prod.exists, gives_pure, Prod.mk.injEq]
  constructor
  · rintro ⟨ht, heqs, st₁, hh, ut, ueqs, _, hu, ⟨rfl, rfl⟩, rfl⟩
    exact ⟨ht, heqs, st₁, ut, ueqs, hh, hu, rfl, rfl⟩
  · rintro ⟨ht, heqs, st₁, ut, ueqs, hh, hu, rfl, rfl⟩
    exact ⟨_, _, _, hh, _, _, _, hu, ⟨rfl, rfl⟩, rfl⟩

theorem gives_cond {c y n : Expr} : Gives (generate env (.cond c y n)) st (t, E) st' ↔
    ∃ ct ceqs st₁ yeqs st₂ nt neqs, Gives (generate env c) st (ct, ceqs) st₁ ∧
      Gives (generate env y) st₁ (t, yeqs) st₂ ∧ Gives (generate env n) st₂ (nt, neqs) st' ∧
      E = ceqs ++ yeqs ++ neqs ++ [⟨ct, .bool⟩, ⟨t, nt⟩] := by
  rw [generate_cond]
  simp only [gives_bind, Prod.exists, gives_pure, Prod.mk.injEq]
  constructor
  · rintro ⟨ct, ceqs, st₁, hc, yt, yeqs, st₂, hy, nt, neqs, _, hn, ⟨rfl, rfl⟩, rfl⟩
    exact ⟨ct, ceqs, st₁, yeqs, st₂, nt, neqs, hc, hy, hn, rfl⟩
  · rintro ⟨ct, ceqs, st₁, yeqs, st₂, nt, neqs, hc, hy, hn, rfl⟩
    exact ⟨_, _, _, hc, _, _, _, hy, _, _, _, hn, ⟨rfl, rfl⟩, rfl⟩

theorem gives_lambda {p : Pat} {a : Option Ty} {b : Expr} :
    Gives (generate env (.lambda p a b)) st (t, E) st' ↔
      ∃ pt st₁ bt beqs st₂ aeqs, Gives (pattern p) st pt st₁ ∧
        Gives (generate (pt.bindings.union env) b) st₁ (bt, beqs) st₂ ∧
        Gives (ascribe pt.type a) st₂ aeqs st' ∧ t = .arrow pt.type bt ∧
        E = pt.equations ++ beqs ++ aeqs := by
  rw [generate_lambda]
  simp only [gives_bind, Prod.exists, gives_blaming, gives_pure, Prod.mk.injEq]
  constructor
  · rintro ⟨pt, st₁, hp, bt, beqs, st₂, hb, aeqs, _, ha, ⟨rfl, rfl⟩, rfl⟩
    exact ⟨pt, st₁, bt, beqs, st₂, aeqs, hp, hb, ha, rfl, rfl⟩
  · rintro ⟨pt, st₁, bt, beqs, st₂, aeqs, hp, hb, ha, rfl, rfl⟩
    exact ⟨_, _, hp, _, _, _, hb, _, _, ha, ⟨rfl, rfl⟩, rfl⟩

theorem gives_app {f a : Expr} : Gives (generate env (.app f a)) st (t, E) st' ↔
    ∃ ft feqs st₁ at_ aeqs st₂ x, Gives (generate env f) st (ft, feqs) st₁ ∧
      Gives (generate env a) st₁ (at_, aeqs) st₂ ∧ Gives freshName st₂ x st' ∧ t = .var x ∧
      E = feqs ++ aeqs ++ [⟨ft, .arrow at_ t⟩] := by
  rw [generate_app]
  simp only [gives_bind, Prod.exists, gives_fresh, gives_pure, Prod.mk.injEq]
  constructor
  · rintro ⟨ft, feqs, st₁, hf, at_, aeqs, st₂, ha, _, _, ⟨x, hx, rfl⟩, ⟨rfl, rfl⟩, rfl⟩
    exact ⟨ft, feqs, st₁, at_, aeqs, st₂, x, hf, ha, hx, rfl, rfl⟩
  · rintro ⟨ft, feqs, st₁, at_, aeqs, st₂, x, hf, ha, hx, rfl, rfl⟩
    exact ⟨_, _, _, hf, _, _, _, ha, _, _, ⟨x, hx, rfl⟩, ⟨rfl, rfl⟩, rfl⟩

theorem gives_select {v : Expr} {arms : List (Pat × Expr)} :
    Gives (generate env (.select v arms)) st (t, E) st' ↔
      ∃ vt veqs st₁ x st₂ eqs, Gives (generate env v) st (vt, veqs) st₁ ∧
        Gives freshName st₁ x st₂ ∧ t = .var x ∧
        Gives (generateArms (.select v arms) env vt t arms) st₂ eqs st' ∧ E = veqs ++ eqs := by
  rw [generate_select]
  simp only [gives_bind, Prod.exists, gives_fresh, gives_pure, Prod.mk.injEq]
  constructor
  · rintro ⟨vt, veqs, st₁, hv, _, st₂, ⟨x, hx, rfl⟩, eqs, _, harms, ⟨rfl, rfl⟩, rfl⟩
    exact ⟨vt, veqs, st₁, x, st₂, eqs, hv, hx, rfl, harms, rfl⟩
  · rintro ⟨vt, veqs, st₁, x, st₂, eqs, hv, hx, rfl, harms, rfl⟩
    exact ⟨_, _, _, hv, _, _, ⟨x, hx, rfl⟩, _, _, harms, ⟨rfl, rfl⟩, rfl⟩

theorem gives_arm {whole : Expr} {value result : Ty} {arm : Pat × Expr}
    {arms : List (Pat × Expr)} :
    Gives (generateArms whole env value result (arm :: arms)) st E st' ↔
      ∃ pt st₁ bt beqs st₂ eqs, Gives (pattern arm.1) st pt st₁ ∧
        Gives (generate (pt.bindings.union env) arm.2) st₁ (bt, beqs) st₂ ∧
        Gives (generateArms whole env value result arms) st₂ eqs st' ∧
        E = pt.equations ++ beqs ++ [⟨pt.type, value⟩, ⟨bt, result⟩] ++ eqs := by
  rw [generateArms_cons]
  simp only [gives_bind, Prod.exists, gives_blaming, gives_pure]
  constructor
  · rintro ⟨pt, st₁, hp, bt, beqs, st₂, hb, eqs, _, harms, rfl, rfl⟩
    exact ⟨pt, st₁, bt, beqs, st₂, eqs, hp, hb, harms, rfl⟩
  · rintro ⟨pt, st₁, bt, beqs, st₂, eqs, hp, hb, harms, rfl⟩
    exact ⟨_, _, hp, _, _, _, hb, _, _, harms, rfl, rfl⟩

/-- Blocks differ in whom a failure is blamed on only. -/
theorem outcome_generateBlock (whole : Expr) (env : TypeEnv) (ss : List Expr) (st : State) :
    outcome (generateBlock whole env ss) st = outcome (generate env (.block ss)) st := by
  suffices key : ∀ whole', outcome (generateBlock whole env ss) st =
      outcome (generateBlock whole' env ss) st by
    exact key _
  intro whole'
  induction ss generalizing env st with
  | nil => rfl
  | cons s ss ih =>
    cases ss with
    | nil => rw [outcome_generateBlock_last, outcome_generateBlock_last]
    | cons s' ss =>
      cases hs : s.isDefinition with
      | true =>
        obtain ⟨k, p, a, v, rfl⟩ := Expr.isDefinition_iff.1 hs
        rw [generateBlock_define, generateBlock_define]
        simp only [outcome_bind, ih]
      | false =>
        rw [generateBlock_stmt whole env hs, generateBlock_stmt whole' env hs]
        simp only [outcome_bind, ih]

theorem outcome_block_last (env : TypeEnv) (e : Expr) (st : State) :
    outcome (generate env (.block [e])) st = outcome (generate env e) st := by
  rw [generate_block, outcome_generateBlock_last]

theorem gives_block_define {k : Binder} {p : Pat} {a : Option Ty} {v s : Expr} {ss : List Expr} :
    Gives (generate env (.block (.define k p a v :: s :: ss))) st (t, E) st' ↔
      p.isList = false ∧ ∃ vt veqs st₁ aeqs st₂ σ st₃ eqs,
        Gives (generate env v) st (vt, veqs) st₁ ∧ Gives (ascribe vt a) st₁ aeqs st₂ ∧
        Gives (generalize (veqs ++ aeqs ++ literal p vt) env vt) st₂ σ st₃ ∧
        Gives (generate (assume env p σ) (.block (s :: ss))) st₃ (t, eqs) st' ∧
        E = veqs ++ aeqs ++ literal p vt ++ eqs := by
  have hrest : ∀ env' r st₁ st₂, Gives (generateBlock (.block (.define k p a v :: s :: ss)) env'
      (s :: ss)) st₁ r st₂ ↔ Gives (generate env' (.block (s :: ss))) st₁ r st₂ := by
    intro env' r st₁ st₂
    rw [Gives, outcome_generateBlock, Gives]
  rw [generate_block, generateBlock_define]
  cases hp : p.isList with
  | true =>
    rw [bindWith_list env _ _ hp]
    simp only [gives_bind, gives_blame, Bool.true_eq_false, false_and, exists_false]
  | false =>
    rw [bindWith_eq env _ _ hp]
    simp only [gives_bind, Prod.exists, gives_blaming, gives_pure, Prod.mk.injEq, hrest, true_and]
    constructor
    · rintro ⟨_, st₃, ⟨vt, veqs, st₁, hv, aeqs, st₂, ha, σ, _, hσ, rfl, rfl⟩, _, eqs, _, hss,
        ⟨rfl, rfl⟩, rfl⟩
      exact ⟨vt, veqs, st₁, aeqs, st₂, σ, _, eqs, hv, ha, hσ, hss, rfl⟩
    · rintro ⟨vt, veqs, st₁, aeqs, st₂, σ, st₃, eqs, hv, ha, hσ, hss, rfl⟩
      exact ⟨_, _, ⟨_, _, _, hv, _, _, ha, _, _, hσ, rfl, rfl⟩, _, _, _, hss, ⟨rfl, rfl⟩, rfl⟩

/-- Of a statement that is not a definition, only the variables that it takes matter. -/
theorem gives_block_stmt {e s : Expr} {ss : List Expr} (he : e.isDefinition = false) :
    Gives (generate env (.block (e :: s :: ss))) st (t, E) st' ↔
      ∃ r st₁, Gives (generate env e) st r st₁ ∧
        Gives (generate env (.block (s :: ss))) st₁ (t, E) st' := by
  rw [generate_block, generateBlock_stmt _ _ he, gives_bind]
  simp only [Gives, outcome_generateBlock]

end Gives

/-! ## Room for the parts of a run -/

section Fits
variable {b : Nat} {env : TypeEnv} {st : State}

theorem Fits.binary {op : Op} {l r : Expr} (h : Fits b (generate env (.binary op l r)) st) :
    Fits b (generate env l) st ∧
      ∀ {lt leqs st₁}, Gives (generate env l) st (lt, leqs) st₁ →
        Fits b (generate env r) st₁ := by
  rw [generate_binary] at h
  cases hop : operation? op with
  | none =>
    simp only [hop] at h
    exact ⟨h.first fun _ => (steady_generate _ _).bind fun _ => steady_blame _ _,
      fun hl => (h.rest hl).first fun _ => steady_blame _ _⟩
  | some _ =>
    simp only [hop] at h
    exact ⟨h.first fun _ => (steady_generate _ _).bind fun _ => steady_pure _,
      fun hl => (h.rest hl).first fun _ => steady_pure _⟩

theorem Fits.cons {u t : Expr} (h : Fits b (generate env (.cons u t)) st) :
    Fits b (generate env u) st ∧
      ∀ {a st₁}, Gives (generate env u) st a st₁ → Fits b (generate env t) st₁ := by
  rw [generate_cons] at h
  exact ⟨h.first fun (_, _) => (steady_generate _ _).bind fun (_, _) => steady_pure _,
    fun hu => (h.rest hu).first fun (_, _) => steady_pure _⟩

theorem Fits.cond {c y n : Expr} (h : Fits b (generate env (.cond c y n)) st) :
    Fits b (generate env c) st ∧
      ∀ {a st₁}, Gives (generate env c) st a st₁ → Fits b (generate env y) st₁ ∧
        ∀ {a' st₂}, Gives (generate env y) st₁ a' st₂ → Fits b (generate env n) st₂ := by
  rw [generate_cond] at h
  refine ⟨h.first fun (_, _) => (steady_generate _ _).bind fun (_, _) =>
    (steady_generate _ _).bind fun (_, _) => steady_pure _, fun hc => ?_⟩
  exact ⟨(h.rest hc).first fun (_, _) => (steady_generate _ _).bind fun (_, _) => steady_pure _,
    fun hy => ((h.rest hc).rest hy).first fun (_, _) => steady_pure _⟩

theorem Fits.lambda {p : Pat} {a : Option Ty} {e : Expr}
    (h : Fits b (generate env (.lambda p a e)) st) :
    Fits b (pattern p) st ∧ ∀ {pt st₁}, Gives (pattern p) st pt st₁ →
      Fits b (generate (pt.bindings.union env) e) st₁ := by
  rw [generate_lambda] at h
  refine ⟨?_, fun hp => ?_⟩
  · have hfirst := h.first fun _ => (steady_generate _ _).bind fun (_, _) =>
      (steady_ascribe _ _).bind fun _ => steady_pure _
    rwa [Fits, outcome_blaming] at hfirst
  · exact (h.rest (gives_blaming.2 hp)).first fun (_, _) =>
      (steady_ascribe _ _).bind fun _ => steady_pure _

theorem Fits.app {f e : Expr} (h : Fits b (generate env (.app f e)) st) :
    Fits b (generate env f) st ∧
      ∀ {a st₁}, Gives (generate env f) st a st₁ → Fits b (generate env e) st₁ ∧
        ∀ {a' st₂}, Gives (generate env e) st₁ a' st₂ → Fits b freshName st₂ := by
  rw [generate_app] at h
  refine ⟨h.first fun (_, _) => (steady_generate _ _).bind fun (_, _) =>
    steady_fresh.bind fun _ => steady_pure _, fun hf => ?_⟩
  exact ⟨(h.rest hf).first fun (_, _) => steady_fresh.bind fun _ => steady_pure _,
    fun he => ((h.rest hf).rest he).first fun _ => steady_pure _⟩

theorem Fits.select {v : Expr} {arms : List (Pat × Expr)}
    (h : Fits b (generate env (.select v arms)) st) :
    Fits b (generate env v) st ∧
      ∀ {vt veqs st₁}, Gives (generate env v) st (vt, veqs) st₁ → Fits b freshName st₁ ∧
        ∀ {x st₂}, Gives freshName st₁ x st₂ →
          Fits b (generateArms (.select v arms) env vt (.var x) arms) st₂ := by
  have harms : ∀ vt result, Steady (generateArms (.select v arms) env vt result arms) :=
    fun vt result => steady_generateArms _ _ _ _ _
  rw [generate_select] at h
  refine ⟨h.first fun (_, _) => steady_fresh.bind fun _ => (harms _ _).bind fun _ => steady_pure _,
    fun hv => ?_⟩
  exact ⟨(h.rest hv).first fun _ => (harms _ _).bind fun _ => steady_pure _,
    fun hx => ((h.rest hv).rest (gives_fresh.2 ⟨_, hx, rfl⟩)).first fun _ => steady_pure _⟩

theorem Fits.arm {whole : Expr} {value result : Ty} {arm : Pat × Expr}
    {arms : List (Pat × Expr)}
    (h : Fits b (generateArms whole env value result (arm :: arms)) st) :
    Fits b (pattern arm.1) st ∧ ∀ {pt st₁}, Gives (pattern arm.1) st pt st₁ →
      Fits b (generate (pt.bindings.union env) arm.2) st₁ ∧
        ∀ {a st₂}, Gives (generate (pt.bindings.union env) arm.2) st₁ a st₂ →
          Fits b (generateArms whole env value result arms) st₂ := by
  have harms : Steady (generateArms whole env value result arms) :=
    steady_generateArms _ _ _ _ _
  rw [generateArms_cons] at h
  refine ⟨?_, fun hp => ⟨?_, fun ha => ?_⟩⟩
  · have hfirst := h.first fun _ => (steady_generate _ _).bind fun (_, _) =>
      harms.bind fun _ => steady_pure _
    rwa [Fits, outcome_blaming] at hfirst
  · exact (h.rest (gives_blaming.2 hp)).first fun (_, _) => harms.bind fun _ => steady_pure _
  · exact ((h.rest (gives_blaming.2 hp)).rest ha).first fun _ => steady_pure _

theorem Fits.block_define {k : Binder} {p : Pat} {a : Option Ty} {v s : Expr} {ss : List Expr}
    (hp : p.isList = false) (h : Fits b (generate env (.block (.define k p a v :: s :: ss))) st) :
    Fits b (generate env v) st ∧
      ∀ {vt veqs st₁}, Gives (generate env v) st (vt, veqs) st₁ → ∀ {aeqs st₂},
        Gives (ascribe vt a) st₁ aeqs st₂ →
          Fits b (generalize (veqs ++ aeqs ++ literal p vt) env vt) st₂ ∧
            ∀ {σ st₃}, Gives (generalize (veqs ++ aeqs ++ literal p vt) env vt) st₂ σ st₃ →
              Fits b (generate (assume env p σ) (.block (s :: ss))) st₃ := by
  have hblock : ∀ env', Steady (generateBlock (.block (.define k p a v :: s :: ss)) env'
      (s :: ss)) := fun env' =>
    steady_generateBlock _ _ _
  rw [generate_block, generateBlock_define] at h
  have hbind := h.first fun _ => (hblock _).bind fun _ => steady_pure _
  rw [bindWith_eq env _ _ hp] at hbind
  refine ⟨hbind.first fun _ => (steady_ascribe _ _).bind fun _ =>
    ((steady_generalize _ _ _).blaming _).bind fun _ => steady_pure _, ?_⟩
  intro vt veqs st₁ hv aeqs st₂ ha
  refine ⟨?_, ?_⟩
  · have hfirst := ((hbind.rest hv).rest ha).first fun _ => steady_pure _
    rwa [Fits, outcome_blaming] at hfirst
  · intro σ st₃ hσ
    have hdone : Gives (bindWith env ⟨k, p, a, v⟩ (generate env v)) st
        ⟨assume env p σ, veqs ++ aeqs ++ literal p vt, σ⟩ st₃ := by
      rw [bindWith_eq env _ _ hp]
      simp only [gives_bind, gives_blaming, gives_pure]
      exact ⟨_, _, hv, _, _, ha, _, _, hσ, rfl, rfl⟩
    have hfirst := (h.rest hdone).first fun _ => steady_pure _
    rwa [Fits, outcome_generateBlock] at hfirst

theorem Fits.block_stmt {e s : Expr} {ss : List Expr}
    (he : e.isDefinition = false) (h : Fits b (generate env (.block (e :: s :: ss))) st) :
    Fits b (generate env e) st ∧ ∀ {r st₁}, Gives (generate env e) st r st₁ →
      Fits b (generate env (.block (s :: ss))) st₁ := by
  rw [generate_block, generateBlock_stmt _ _ he] at h
  refine ⟨h.first fun _ => steady_generateBlock _ _ _, fun {r st₁} hr => ?_⟩
  have hrest := h.rest hr
  rwa [Fits, outcome_generateBlock] at hrest

end Fits

/-! ## Inference -/

theorem gives_infer {env : TypeEnv} {e : Expr} {st st' : State} {t : Ty} :
    Gives (infer env e) st t st' ↔ ∃ vt E st₁ s, Gives (generate env e) st (vt, E) st₁ ∧
      unify E = .ok s ∧ t = s.resolve vt ∧
      st' = { st₁ with log := st₁.log ++ [.inferred E.length s.length] } := by
  rw [infer]
  simp only [gives_bind, Prod.exists, gives_solve, gives_pure]
  constructor
  · rintro ⟨vt, E, st₁, hgen, s, _, ⟨hs, rfl⟩, _, _, htell, rfl, rfl⟩
    rw [Gives, outcome_tell, Prod.mk.injEq] at htell
    exact ⟨vt, E, st₁, s, hgen, hs, rfl, htell.2.symm⟩
  · rintro ⟨vt, E, st₁, s, hgen, hs, rfl, rfl⟩
    exact ⟨vt, E, st₁, hgen, s, st₁, ⟨hs, rfl⟩, (), _, outcome_tell _ _, rfl, rfl⟩

theorem gives_define {env env' : TypeEnv} {d : Definition} {st st' : State} {t : Ty}
    (h : Gives (define env d) st (env', t) st') : d.pat.isList = false ∧
    ∃ vt veqs st₁ aeqs st₂ σ s, Gives (generate env d.value) st (vt, veqs) st₁ ∧
      Gives (ascribe vt d.ascription) st₁ aeqs st₂ ∧
      Gives (generalize (veqs ++ aeqs ++ literal d.pat vt) env vt) st₂ σ st' ∧
      unify (veqs ++ aeqs ++ literal d.pat vt) = .ok s ∧ t = s.resolve σ ∧
      env' = ((assume env d.pat σ).map s.resolve).withNext st'.supply.next := by
  have heq : define env d = bindWith env d (generate env d.value) >>= fun b =>
      solve b.equations >>= fun s => get >>= fun st =>
        pure ((b.env.map s.resolve).withNext st.supply.next, s.resolve b.scheme) := rfl
  rw [heq] at h
  cases hp : d.pat.isList with
  | true =>
    rw [bindWith_list env _ _ hp] at h
    simp only [gives_bind, gives_blame, false_and, exists_false] at h
  | false =>
    rw [bindWith_eq env _ _ hp] at h
    simp only [gives_bind, Prod.exists, gives_blaming, gives_pure, gives_solve] at h
    obtain ⟨_, _, ⟨vt, veqs, st₁, hv, aeqs, st₂, ha, σ, _, hσ, rfl, rfl⟩, s, _, ⟨hs, rfl⟩, _, _,
      hget, h, rfl⟩ := h
    rw [Gives, show outcome get _ = (some _, _) from rfl, Prod.mk.injEq] at hget
    obtain ⟨hget, rfl⟩ := hget
    cases hget
    cases h
    exact ⟨rfl, vt, veqs, st₁, aeqs, st₂, σ, s, hv, ha, hσ, hs, rfl, rfl⟩

end Infer

namespace Context

/-- The state in which inference starts. -/
def initial (ctx : Context) (env : TypeEnv) : Infer.State := ⟨(ctx.start env).supply, ctx.log⟩

theorem initial_empty_from (ctx : Context) : (ctx.initial .empty).From 1 := rfl

/-- What is run on an expression is run from the state in which the context stands. -/
theorem runOn_run {α : Type} (ctx : Context) (whole : Expr) (x : Infer α) :
    (ctx.runOn whole x).1 =
        (x.run.run ⟨ctx.supply, ctx.log⟩).1.mapError Infer.Complaint.error ∧
      (ctx.runOn whole x).2.supply = (x.run.run ⟨ctx.supply, ctx.log⟩).2.supply := by
  have hrun : ctx.run x =
      ((x.run.run ⟨ctx.supply, ctx.log⟩).1,
        { ctx with
          supply := (x.run.run ⟨ctx.supply, ctx.log⟩).2.supply
          log := (x.run.run ⟨ctx.supply, ctx.log⟩).2.log }) := rfl
  rw [runOn, hrun]
  rcases x.run.run ⟨ctx.supply, ctx.log⟩ with ⟨r, st⟩
  cases r with
  | ok a => exact ⟨rfl, rfl⟩
  | error c =>
    refine ⟨rfl, ?_⟩
    simp only [complain]
    cases ctx.error <;> rfl

theorem runOn_outcome {α : Type} (ctx : Context) (env : TypeEnv) (e : Expr) (x : Infer α) :
    ((ctx.start env).runOn e x).1.toOption = (Infer.outcome x (ctx.initial env)).1 ∧
      ((ctx.start env).runOn e x).2.supply = (Infer.outcome x (ctx.initial env)).2.supply := by
  obtain ⟨hresult, hsupply⟩ := (ctx.start env).runOn_run e x
  refine ⟨?_, hsupply⟩
  rw [hresult]
  show ((x.run.run (ctx.initial env)).1.mapError _).toOption = _
  rw [Infer.outcome]
  cases (x.run.run (ctx.initial env)).1 <;> rfl

theorem infer_eq (ctx : Context) (env : TypeEnv) {e : Expr} (he : e ≠ .missing) :
    ctx.infer env e = (ctx.start env).runOn e (Infer.infer env e) := by
  cases e with
  | missing => exact absurd rfl he
  | _ => rfl

theorem infer_outcome (ctx : Context) (env : TypeEnv) {e : Expr} (he : e ≠ .missing) :
    (ctx.infer env e).1.toOption = (Infer.outcome (Infer.infer env e) (ctx.initial env)).1 ∧
      (ctx.infer env e).2.supply =
        (Infer.outcome (Infer.infer env e) (ctx.initial env)).2.supply := by
  rw [ctx.infer_eq env he]
  exact runOn_outcome ctx env e _

theorem define_outcome (ctx : Context) (env : TypeEnv) (d : Definition) :
    (ctx.define env (some d)).1.toOption =
        (Infer.outcome (Infer.define env d) (ctx.initial env)).1 ∧
      (ctx.define env (some d)).2.supply =
        (Infer.outcome (Infer.define env d) (ctx.initial env)).2.supply :=
  ctx.runOn_outcome env d.expr _

theorem gives_of_infer {ctx ctx' : Context} {env : TypeEnv} {e : Expr} {t : Ty}
    (h : ctx.infer env e = (.ok t, ctx')) : ∃ st', Infer.Gives (Infer.infer env e)
      (ctx.initial env) t st' ∧ ctx'.supply = st'.supply := by
  have he : e ≠ .missing := by
    rintro rfl
    cases h
  obtain ⟨hresult, hsupply⟩ := ctx.infer_outcome env he
  rw [h] at hresult hsupply
  exact ⟨_, Prod.ext hresult.symm rfl, hsupply⟩

theorem gives_of_define {ctx ctx' : Context} {env env' : TypeEnv} {d : Definition} {t : Ty}
    (h : ctx.define env (some d) = (.ok (env', t), ctx')) : ∃ st', Infer.Gives (Infer.define env d)
      (ctx.initial env) (env', t) st' ∧ ctx'.supply = st'.supply := by
  obtain ⟨hresult, hsupply⟩ := ctx.define_outcome env d
  rw [h] at hresult hsupply
  exact ⟨_, Prod.ext hresult.symm rfl, hsupply⟩

/-- What goes on in a context is run from the state in which the context stands. -/
theorem runPlain_outcome {α : Type} (ctx : Context) (x : Infer α) :
    (ctx.runPlain x).1.toOption = (Infer.outcome x ⟨ctx.supply, ctx.log⟩).1 := by
  have hrun : ctx.run x =
      ((x.run.run ⟨ctx.supply, ctx.log⟩).1,
        { ctx with
          supply := (x.run.run ⟨ctx.supply, ctx.log⟩).2.supply
          log := (x.run.run ⟨ctx.supply, ctx.log⟩).2.log }) := rfl
  rw [runPlain, hrun, Infer.outcome]
  rcases x.run.run ⟨ctx.supply, ctx.log⟩ with ⟨r, st⟩
  cases r <;> rfl

theorem gives_of_pattern {ctx ctx' : Context} {p : Pat} {pt : Infer.PatternType}
    (h : ctx.pattern p = (.ok pt, ctx')) :
    ∃ st', Infer.Gives (Infer.pattern p) ⟨ctx.supply, ctx.log⟩ pt st' := by
  have hresult := ctx.runPlain_outcome (Infer.pattern p)
  rw [show ctx.runPlain (Infer.pattern p) = _ from h] at hresult
  exact ⟨_, Prod.ext hresult.symm rfl⟩

end Context

end LetPoly
