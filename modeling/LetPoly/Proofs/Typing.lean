import LetPoly.Proofs.Schemes
import LetPoly.Proofs.Shape

/-! # The declarative type system

The types of an expression by rules, one for each kind of expression, with no fresh
variables and no equations: wherever inference takes a variable and leaves the rest
to the equations, a rule takes any monotype that fits.  Identifiers take any instance
of their scheme; the value of a definition has some type, which is generalised over
any variables not free in the environment.  What is free in a hidden binding does not
count.

The statements of a block before the last are definitions here.  Ascriptions only
restrict the types of an expression, and the rules pass over them.
-/

namespace LetPoly

namespace TypeEnv

theorem get?_set_self (env : TypeEnv) (x : String) (t : Ty) : (env.set x t).get? x = some t := by
  simp [get?, set]

theorem get?_set_of_ne (env : TypeEnv) {x y : String} (t : Ty) (h : y ≠ x) :
    (env.set x t).get? y = env.get? y := by
  simp [get?, set, List.lookup_cons, beq_false_of_ne h]

theorem get?_union (a b : TypeEnv) (x : String) :
    (a.union b).get? x = (a.get? x).or (b.get? x) := by
  simp [get?, union, List.lookup_append]

theorem mem_of_get? {env : TypeEnv} {x : String} {t : Ty} (h : env.get? x = some t) :
    (x, t) ∈ env.bindings := by
  obtain ⟨l, r, heq, _⟩ := List.lookup_eq_some_iff.1 h
  rw [heq]
  simp

/-- The variable is free in a scheme that is not hidden. -/
def Free (env : TypeEnv) (x : String) : Prop :=
  ∃ z σ, env.get? z = some σ ∧ x ∈ σ.freeOccurrences

theorem Free.mem_freeVars {env : TypeEnv} {x : String} (h : env.Free x) : x ∈ env.freeVars := by
  obtain ⟨z, σ, hz, hx⟩ := h
  exact List.mem_flatMap.2 ⟨(z, σ), mem_of_get? hz, List.mem_eraseDups.2 hx⟩

end TypeEnv

/-- **The types of the values that a pattern takes, and those of its names.** -/
inductive Pat.HasType : Pat → Ty → TypeEnv → Prop
  | number {n : Int64} : HasType (.number n) .int {}
  | string {s : String} : HasType (.string s) .string {}
  | boolean {b : Bool} : HasType (.boolean b) .bool {}
  | unit : HasType .unit .unit {}
  | wildcard {τ : Ty} (hτ : τ.Mono) : HasType .wildcard τ {}
  | ident {x : String} {τ : Ty} (hτ : τ.Mono) : HasType (.ident x) τ (TypeEnv.set {} x τ)
  | nil {τ : Ty} (hτ : τ.Mono) : HasType .nil (.list τ) {}
  | cons {p q : Pat} {τ : Ty} {Δ Δ' : TypeEnv} (hp : HasType p τ Δ) (hq : HasType q (.list τ) Δ') :
    HasType (.cons p q) (.list τ) (Δ.union Δ')

/-- **The types of an expression.** -/
inductive HasType : TypeEnv → Expr → Ty → Prop
  | number {Γ : TypeEnv} {n : Int64} : HasType Γ (.number n) .int
  | string {Γ : TypeEnv} {s : String} : HasType Γ (.string s) .string
  | boolean {Γ : TypeEnv} {b : Bool} : HasType Γ (.boolean b) .bool
  | unit {Γ : TypeEnv} : HasType Γ .unit .unit
  | nil {Γ : TypeEnv} {τ : Ty} (hτ : τ.Mono) : HasType Γ .nil (.list τ)
  | ident {Γ : TypeEnv} {x : String} {σ τ : Ty} (hx : Γ.get? x = some σ)
    (hi : σ.Instance .var τ) (hτ : τ.Mono) : HasType Γ (.ident x) τ
  | arithmetic {Γ : TypeEnv} {op : Op} {l r : Expr} (hop : op.isArithmetic)
    (hl : HasType Γ l .int) (hr : HasType Γ r .int) : HasType Γ (.binary op l r) .int
  | relational {Γ : TypeEnv} {op : Op} {l r : Expr} (hop : op.isRelational)
    (hl : HasType Γ l .int) (hr : HasType Γ r .int) : HasType Γ (.binary op l r) .bool
  | logical {Γ : TypeEnv} {op : Op} {l r : Expr} (hop : op.isLogical)
    (hl : HasType Γ l .bool) (hr : HasType Γ r .bool) : HasType Γ (.binary op l r) .bool
  | cons {Γ : TypeEnv} {h t : Expr} {τ : Ty} (hh : HasType Γ h τ) (ht : HasType Γ t (.list τ)) :
    HasType Γ (.cons h t) (.list τ)
  | cond {Γ : TypeEnv} {c y n : Expr} {τ : Ty} (hc : HasType Γ c .bool) (hy : HasType Γ y τ)
    (hn : HasType Γ n τ) : HasType Γ (.cond c y n) τ
  | lambda {Γ Δ : TypeEnv} {p : Pat} {a : Option Ty} {b : Expr} {σ τ : Ty}
    (hp : p.HasType σ Δ) (hb : HasType (Δ.union Γ) b τ) : HasType Γ (.lambda p a b) (.arrow σ τ)
  | app {Γ : TypeEnv} {f a : Expr} {σ τ : Ty} (hf : HasType Γ f (.arrow σ τ))
    (ha : HasType Γ a σ) : HasType Γ (.app f a) τ
  /-- The last statement of a block. -/
  | last {Γ : TypeEnv} {e : Expr} {τ : Ty} (he : HasType Γ e τ) : HasType Γ (.block [e]) τ
  /-- A definition of a name. -/
  | define {Γ : TypeEnv} {k : Binder} {x : String} {a : Option Ty} {v : Expr} {ss : List Expr}
    {ys : List String} {σ τ : Ty} (hv : HasType Γ v σ) (hys : ∀ y ∈ ys, ¬Γ.Free y)
    (hss : HasType (Γ.set x (Ty.bindAll ys σ)) (.block ss) τ) :
    HasType Γ (.block (.define k (.ident x) a v :: ss)) τ
  /-- A definition that names nothing. -/
  | discard {Γ Δ : TypeEnv} {k : Binder} {p : Pat} {a : Option Ty} {v : Expr} {ss : List Expr}
    {σ τ : Ty} (hp : p = .wildcard ∨ p.isLiteral) (hpσ : p.HasType σ Δ) (hv : HasType Γ v σ)
    (hss : HasType Γ (.block ss) τ) : HasType Γ (.block (.define k p a v :: ss)) τ
  | select {Γ : TypeEnv} {v : Expr} {arms : List (Pat × Expr)} {Δ : Pat × Expr → TypeEnv}
    {σ τ : Ty} (hv : HasType Γ v σ) (hp : ∀ arm ∈ arms, arm.1.HasType σ (Δ arm))
    (hb : ∀ arm ∈ arms, HasType ((Δ arm).union Γ) arm.2 τ) (hτ : τ.Mono) :
    HasType Γ (.select v arms) τ

theorem Pat.HasType.mono {p : Pat} {τ : Ty} {Δ : TypeEnv} (h : p.HasType τ Δ) : τ.Mono := by
  induction h with
  | number | string | boolean | unit => trivial
  | wildcard hτ | ident hτ | nil hτ => exact hτ
  | cons _ _ _ ih => exact ih

/-- The rules derive monotypes only. -/
theorem HasType.mono {Γ : TypeEnv} {e : Expr} {τ : Ty} (h : HasType Γ e τ) : τ.Mono := by
  induction h with
  | number | string | boolean | unit | arithmetic | relational | logical => trivial
  | nil hτ | ident _ _ hτ | select _ _ _ hτ => exact hτ
  | cons _ _ _ ih => exact ih
  | cond _ _ _ _ ih => exact ih
  | lambda hp _ ih => exact ⟨hp.mono, ih⟩
  | app _ _ ih => exact ih.2
  | last _ ih => exact ih
  | define _ _ _ _ ih => exact ih
  | discard _ _ _ _ _ ih => exact ih

/-- The types of the names may be found case by case. -/
theorem HasType.select_of_exists {Γ : TypeEnv} {v : Expr} {arms : List (Pat × Expr)} {σ τ : Ty}
    (hv : HasType Γ v σ)
    (harms : ∀ arm ∈ arms, ∃ Δ, arm.1.HasType σ Δ ∧ HasType (Δ.union Γ) arm.2 τ) (hτ : τ.Mono) :
    HasType Γ (.select v arms) τ := by
  have hex : ∀ arm : Pat × Expr, ∃ Δ : TypeEnv, arm ∈ arms →
      arm.1.HasType σ Δ ∧ HasType (Δ.union Γ) arm.2 τ := by
    intro arm
    by_cases harm : arm ∈ arms
    · obtain ⟨Δ, hΔ⟩ := harms arm harm
      exact ⟨Δ, fun _ => hΔ⟩
    · exact ⟨{}, fun hmem => absurd hmem harm⟩
  obtain ⟨Δ, hΔ⟩ := Classical.axiomOfChoice hex
  exact .select hv (fun arm harm => (hΔ arm harm).1) (fun arm harm => (hΔ arm harm).2) hτ

end LetPoly
