import LetPoly.Proofs.Evaluation
import LetPoly.Proofs.Soundness

/-! # Well-typed programs

A type is read as a set of values (`Value.Inhabits`), by recursion on the type: a
function inhabits an arrow where every call of it with an inhabitant of the argument
type ends in an inhabitant of the result type.  Variables have no inhabitants of their
own; what is said of an expression is said for every assignment of types to them.

The fundamental lemma, `HasType.ends`, goes by induction on the derivation of a type:
in an environment whose values inhabit all instances of their schemes (`Realizes`), the
evaluation ends in an inhabitant.  A definition is the case where instances matter.  Its
value is evaluated once, and what is known of the run for each assignment of the
generalised variables is known of that one value (`ends_forall`); the environment of
the definition does not notice which assignment it is, as none of these variables is
free in it.
-/

namespace LetPoly

/-- A monotype without variables. -/
def Ty.Ground (t : Ty) : Prop := t.Over fun _ => False

/-- Instances of a scheme become instances under any assignment. -/
theorem Ty.Instance.apply {θ η : Assignment} {σ τ : Ty} (h : σ.Instance θ τ) (hη : η.IsMono) :
    σ.Instance (fun x => (θ x).apply η) (τ.apply η) := by
  induction σ generalizing θ with
  | poly b t ih =>
    obtain ⟨u, hu, h⟩ := h
    -- what the bound variable is given is assigned to as well
    refine ⟨u.apply η, hu.apply hη, ?_⟩
    have heq : Assignment.set (fun x => (θ x).apply η) b (u.apply η) =
        fun x => (θ.set b u x).apply η := by
      funext x
      by_cases hx : x = b <;> simp [Assignment.set, hx]
    rw [heq]
    exact ih h
  | _ =>
    rw [show τ = _ from h, Ty.apply_apply]
    exact rfl

namespace Value

/-! ## The values of a type -/

/-- **The values of a type.** -/
def Inhabits : Ty → Value → Prop
  | .const c, .int _ => c = "Int"
  | .const c, .bool _ => c = "Bool"
  | .const c, .string _ => c = "String"
  | .const c, .unit => c = "Unit"
  | .list t, .list vs => ∀ v ∈ vs, Inhabits t v
  | .arrow a r, .closure p b ρ =>
    ∀ v, Inhabits a v → Ends (Inhabits r) fun n => apply n (.closure p b ρ) v
  | _, _ => False

theorem inhabits_int {v : Value} : Inhabits .int v ↔ ∃ n, v = .int n := by
  cases v <;> simp [Inhabits, Ty.int]

theorem inhabits_bool {v : Value} : Inhabits .bool v ↔ ∃ b, v = .bool b := by
  cases v <;> simp [Inhabits, Ty.bool]

theorem inhabits_list {t : Ty} {v : Value} :
    Inhabits (.list t) v ↔ ∃ vs, v = .list vs ∧ ∀ w ∈ vs, Inhabits t w := by
  cases v <;> simp [Inhabits]

/-- An inhabitant of an arrow may be called. -/
theorem Inhabits.apply {a r : Ty} {f v : Value} (hf : Inhabits (.arrow a r) f)
    (hv : Inhabits a v) : Ends (Inhabits r) fun n => Value.apply n f v := by
  cases f with
  | closure => exact hf v hv
  | _ => exact hf.elim

theorem ends_value {e : Expr} {ρ : Env} {v : Value} {P : Value → Prop}
    (he : ∀ n, eval (n + 1) ρ e = .ok v) (hv : P v) : Ends P fun n => eval n ρ e := by
  refine .of_succ ?_
  simp only [he]
  exact ends_const hv

/-! ## Operations -/

theorem within_operate_arithmetic {op : Op} (hop : op.isArithmetic) (m n : Int64) :
    Within (Inhabits .int) (operate op (.int m) (.int n)) := by
  cases op with
  | plus | minus | times => exact rfl
  | divide =>
    show Within _ (if n = 0 then _ else _)
    split
    · exact .divisionByZero
    · exact rfl
  | _ => cases hop

theorem within_operate_relational {op : Op} (hop : op.isRelational) (m n : Int64) :
    Within (Inhabits .bool) (operate op (.int m) (.int n)) := by
  cases op with
  | less | lessEq | greater | greaterEq | equal | notEqual => exact rfl
  | _ => cases hop

theorem ends_operation {op : Op} {l r : Expr} {ρ : Env} {τ : Ty} (hop : op.isLogical = false)
    (hl : Ends (Inhabits .int) fun n => eval n ρ l)
    (hr : Ends (Inhabits .int) fun n => eval n ρ r)
    (h : ∀ m n, Within (Inhabits τ) (operate op (.int m) (.int n))) :
    Ends (Inhabits τ) fun n => eval n ρ (.binary op l r) := by
  refine .of_succ ?_
  simp only [eval_operation _ _ hop]
  refine hl.bind fun lv hlv => hr.bind fun rv hrv => ?_
  obtain ⟨m, rfl⟩ := inhabits_int.1 hlv
  obtain ⟨n, rfl⟩ := inhabits_int.1 hrv
  exact ends_const (h m n)

theorem ends_logical {op : Op} {l r : Expr} {ρ : Env} (hop : op.isLogical)
    (hl : Ends (Inhabits .bool) fun n => eval n ρ l)
    (hr : Ends (Inhabits .bool) fun n => eval n ρ r) :
    Ends (Inhabits .bool) fun n => eval n ρ (.binary op l r) := by
  refine .of_succ ?_
  simp only [eval_logical _ _ hop]
  refine hl.bind fun lv hlv => ?_
  obtain ⟨b, rfl⟩ := inhabits_bool.1 hlv
  by_cases hb : decides op b
  · simp only [hb, if_true]
    exact ends_const hlv
  · simp only [hb]
    refine hr.bind fun rv hrv => ?_
    obtain ⟨c, rfl⟩ := inhabits_bool.1 hrv
    exact ends_const hrv

/-! ## Lists, conditions, calls and cases -/

theorem ends_cons {h t : Expr} {ρ : Env} {τ : Ty} (hh : Ends (Inhabits τ) fun n => eval n ρ h)
    (ht : Ends (Inhabits (.list τ)) fun n => eval n ρ t) :
    Ends (Inhabits (.list τ)) fun n => eval n ρ (.cons h t) := by
  refine .of_succ ?_
  simp only [eval_cons]
  refine hh.bind fun hv hhv => ht.bind fun tv htv => ?_
  obtain ⟨vs, rfl, hvs⟩ := inhabits_list.1 htv
  exact ends_const (inhabits_list.2 ⟨hv :: vs, rfl, List.forall_mem_cons.2 ⟨hhv, hvs⟩⟩)

theorem ends_cond {c y n : Expr} {ρ : Env} {τ : Ty} (hc : Ends (Inhabits .bool) fun k => eval k ρ c)
    (hy : Ends (Inhabits τ) fun k => eval k ρ y) (hn : Ends (Inhabits τ) fun k => eval k ρ n) :
    Ends (Inhabits τ) fun k => eval k ρ (.cond c y n) := by
  refine .of_succ ?_
  simp only [eval_cond]
  refine hc.bind fun cv hcv => ?_
  obtain ⟨b, rfl⟩ := inhabits_bool.1 hcv
  cases b with
  | false => exact hn
  | true => exact hy

theorem ends_app {f a : Expr} {ρ : Env} {σ τ : Ty}
    (hf : Ends (Inhabits (.arrow σ τ)) fun n => eval n ρ f)
    (ha : Ends (Inhabits σ) fun n => eval n ρ a) :
    Ends (Inhabits τ) fun n => eval n ρ (.app f a) := by
  refine .of_succ ?_
  simp only [eval_app]
  exact hf.bind fun fv hfv => ha.bind fun av hav => hfv.apply hav

/-- A function inhabits an arrow where its body ends in every environment of a call. -/
theorem inhabits_closure {p : Pat} {b : Expr} {ρ : Env} {σ τ : Ty}
    (h : ∀ v ρ', Inhabits σ v → bind p v ρ = (ρ', true) → Ends (Inhabits τ) fun n => eval n ρ' b) :
    Inhabits (.arrow σ τ) (.closure p b ρ) := by
  intro v hv
  refine (ends_enter p b ρ v).bind ?_
  rintro ⟨ρ', body⟩ ⟨hbind, rfl⟩
  exact h v ρ' hv hbind

theorem ends_select {v : Expr} {arms : List (Pat × Expr)} {ρ : Env} {σ τ : Ty}
    (hv : Ends (Inhabits σ) fun n => eval n ρ v)
    (harms : ∀ arm ∈ arms, ∀ w ρ', Inhabits σ w → bind arm.1 w ρ = (ρ', true) →
      Ends (Inhabits τ) fun n => eval n ρ' arm.2) :
    Ends (Inhabits τ) fun n => eval n ρ (.select v arms) := by
  refine .of_succ ?_
  simp only [eval_select]
  refine hv.bind fun w hw => ?_
  cases hch : chosen? w ρ arms with
  | none => exact ends_const (RuntimeError.Partial.noCase w)
  | some called =>
    obtain ⟨p, hp, hbind⟩ := chosen?_eq_some hch
    exact harms _ hp w called.1 hw hbind

/-- A definition at the head of a block: the statements after it are evaluated in every
environment that it may leave. -/
theorem ends_block_define {k : Binder} {p : Pat} {a : Option Ty} {v : Expr} {ss : List Expr}
    {ρ : Env} {P : Value → Prop} {τ : Ty} (hss : ss ≠ []) (hv : Ends P fun n => eval n ρ v)
    (h : ∀ w ρ', P w → bind p w ρ = (ρ', true) →
      Ends (Inhabits τ) fun n => eval n ρ' (.block ss)) :
    Ends (Inhabits τ) fun n => eval n ρ (.block (.define k p a v :: ss)) := by
  obtain ⟨s, rest, rfl⟩ := List.exists_cons_of_ne_nil hss
  refine .of_succ ?_
  simp only [eval_block_define]
  exact hv.bind fun w hw => (ends_bindValue p w ρ).bind fun ρ' hbind => (h w ρ' hw hbind).succ

end Value

/-! ## Environments -/

/-- **The values of an environment inhabit all instances of their schemes.** -/
def Realizes (η : Assignment) (Γ : TypeEnv) (ρ : Env) : Prop :=
  ∀ x σ, Γ.get? x = some σ →
    σ.Prenex ∧ ∃ v, ρ.get? x = some v ∧ ∀ τ, σ.Instance η τ → Value.Inhabits τ v

theorem realizes_empty (η : Assignment) (ρ : Env) : Realizes η .empty ρ := by
  intro x σ h
  cases h

/-- Only the types of free variables count. -/
theorem Realizes.congr {η η' : Assignment} {Γ : TypeEnv} {ρ : Env} (h : Realizes η Γ ρ)
    (hη : ∀ x, Γ.Free x → η' x = η x) : Realizes η' Γ ρ := by
  intro x σ hx
  obtain ⟨hσ, v, hv, hi⟩ := h x σ hx
  exact ⟨hσ, v, hv, fun τ hτ => hi τ (hσ.instance_congr (fun y hy => hη y ⟨x, σ, hx, hy⟩) hτ)⟩

theorem Realizes.set {η : Assignment} {Γ : TypeEnv} {ρ : Env} (h : Realizes η Γ ρ) {σ : Ty}
    {v : Value} (hσ : σ.Prenex) (hv : ∀ τ, σ.Instance η τ → Value.Inhabits τ v) (x : String) :
    Realizes η (Γ.set x σ) (ρ.insert x v) := by
  intro y τ hy
  by_cases hyx : y = x
  · subst hyx
    rw [TypeEnv.get?_set_self, Option.some.injEq] at hy
    subst hy
    exact ⟨hσ, v, SortedMap.get?_insert_self ρ y v, hv⟩
  · rw [TypeEnv.get?_set_of_ne _ _ hyx] at hy
    rw [SortedMap.get?_insert_of_ne _ _ hyx]
    exact h y τ hy

theorem Pat.HasType.isSome_get? {p : Pat} {τ : Ty} {Δ : TypeEnv} (h : p.HasType τ Δ) (x : String) :
    (Δ.get? x).isSome ↔ x ∈ p.names := by
  induction h with
  | number | string | boolean | unit | wildcard | nil => simp [TypeEnv.get?, Pat.names]
  | @ident y =>
    by_cases hx : x = y
    · simp [hx, TypeEnv.get?_set_self, Pat.names]
    · rw [TypeEnv.get?_set_of_ne _ _ hx]
      simp [hx, TypeEnv.get?, Pat.names]
  | cons _ _ ihp ihq =>
    rw [TypeEnv.get?_union, Option.isSome_or, Bool.or_eq_true, ihp, ihq, Pat.names, List.mem_append]

/-- The names of a pattern are given inhabitants of their types.  A name that occurred
twice would have the type of its first place and the value of its last. -/
theorem Pat.HasType.bind {p : Pat} {τ : Ty} {Δ : TypeEnv} (h : p.HasType τ Δ) {η : Assignment}
    {v : Value} {ρ ρ' : Env} (hnodup : p.names.Nodup) (hv : Value.Inhabits (τ.apply η) v)
    (hb : Value.bind p v ρ = (ρ', true)) {x : String} {σ : Ty} (hx : Δ.get? x = some σ) :
    σ.Mono ∧ ∃ w, ρ'.get? x = some w ∧ Value.Inhabits (σ.apply η) w := by
  induction h generalizing v ρ ρ' with
  | number | string | boolean | unit | wildcard | nil => cases hx
  | @ident y τ hτ =>
    cases hb
    by_cases hxy : x = y
    · subst hxy
      rw [TypeEnv.get?_set_self, Option.some.injEq] at hx
      subst hx
      exact ⟨hτ, v, SortedMap.get?_insert_self ρ x v, hv⟩
    · rw [TypeEnv.get?_set_of_ne _ _ hxy] at hx
      cases hx
  | @cons p q τ Δ Δ' hp hq ihp ihq =>
    obtain ⟨w, ws, ρ₁, rfl, hbp, hbq⟩ := Value.bind_cons_eq_true hb
    obtain ⟨_, heq, hws⟩ := Value.inhabits_list.1 hv
    cases heq
    obtain ⟨hw, hws⟩ := List.forall_mem_cons.1 hws
    obtain ⟨hnp, hnq, hdisj⟩ := List.nodup_append.1 hnodup
    rw [TypeEnv.get?_union] at hx
    cases hΔ : Δ.get? x with
    | some σ' =>
      rw [hΔ, Option.some_or, Option.some.injEq] at hx
      subst hx
      obtain ⟨hσ, u, hu, hi⟩ := ihp hnp hw hbp hΔ
      -- the tail is matched after the head, and would take the name over
      have hxp : x ∈ p.names := (hp.isSome_get? x).1 (by simp [hΔ])
      have hkeep := Value.get?_bind (fun hxq => hdisj x hxp x hxq rfl) (.list ws) ρ₁
      rw [hbq] at hkeep
      exact ⟨hσ, u, by rw [hkeep, hu], hi⟩
    | none =>
      rw [hΔ, Option.none_or] at hx
      exact ihq hnq (Value.inhabits_list.2 ⟨ws, rfl, hws⟩) hbq hx

/-- The environment in which a value was matched. -/
theorem Realizes.union {η : Assignment} {Γ Δ : TypeEnv} {ρ ρ' : Env} (h : Realizes η Γ ρ) {p : Pat}
    {τ : Ty} (hp : p.HasType τ Δ) (hnodup : p.names.Nodup) {v : Value}
    (hv : Value.Inhabits (τ.apply η) v) (hb : Value.bind p v ρ = (ρ', true)) :
    Realizes η (Δ.union Γ) ρ' := by
  intro x σ hx
  rw [TypeEnv.get?_union] at hx
  cases hΔ : Δ.get? x with
  | some σ' =>
    rw [hΔ, Option.some_or, Option.some.injEq] at hx
    subst hx
    obtain ⟨hσ, w, hw, hi⟩ := hp.bind hnodup hv hb hΔ
    refine ⟨.mono hσ, w, hw, fun τ hτ => ?_⟩
    rwa [hσ.instance_iff.1 hτ]
  | none =>
    rw [hΔ, Option.none_or] at hx
    have hxp : x ∉ p.names := fun hmem => by
      have := (hp.isSome_get? x).2 hmem
      simp [hΔ] at this
    have hkeep := Value.get?_bind hxp v ρ
    rw [hb] at hkeep
    rw [hkeep]
    exact h x σ hx

/-! ## The fundamental lemma -/

theorem HasType.not_isDefinition {Γ : TypeEnv} {e : Expr} {τ : Ty} (h : HasType Γ e τ) :
    e.isDefinition = false := by
  cases h <;> rfl

theorem HasType.block_ne_nil {Γ : TypeEnv} {ss : List Expr} {τ : Ty} (h : HasType Γ (.block ss) τ) :
    ss ≠ [] := by
  rintro rfl
  cases h

/-- The value of a definition inhabits every instance of its scheme. -/
theorem inhabits_bindAll {ys : List String} {σ : Ty} (hσ : σ.Mono) {η : Assignment} {v : Value}
    (h : ∀ δ : { δ : Assignment // δ.IsMono },
      Value.Inhabits (σ.apply (η.override ys δ.1)) v) (τ : Ty)
    (hτ : (Ty.bindAll ys σ).Instance η τ) : Value.Inhabits τ v := by
  obtain ⟨δ, hδ, hi⟩ := Ty.instance_bindAll.1 hτ
  rw [hσ.instance_iff.1 hi]
  exact h ⟨δ, hδ⟩

/-- **A typed expression ends in an inhabitant of its type**, for every assignment of
types to variables. -/
theorem HasType.ends {Γ : TypeEnv} {e : Expr} {τ : Ty} (h : HasType Γ e τ) {A : Ty → Prop}
    (he : e.Plain A) {η : Assignment} (hη : η.IsMono) {ρ : Env} (hρ : Realizes η Γ ρ) :
    Ends (Value.Inhabits (τ.apply η)) fun n => Value.eval n ρ e := by
  induction h generalizing η ρ with
  | number | string | boolean | unit => exact Value.ends_value (fun _ => rfl) rfl
  | nil => exact Value.ends_value (fun _ => rfl) (Value.inhabits_list.2 ⟨[], rfl, by simp⟩)
  | @ident Γ x σ τ hx hi =>
    obtain ⟨-, v, hv, hinst⟩ := hρ x σ hx
    exact Value.ends_value (fun n => Value.eval_ident n ρ hv) (hinst _ (hi.apply hη))
  | @arithmetic Γ op l r hop _ _ ihl ihr =>
    have hlog : op.isLogical = false := by cases op <;> first | rfl | cases hop
    exact Value.ends_operation hlog (ihl he.binary.1 hη hρ) (ihr he.binary.2 hη hρ)
      (Value.within_operate_arithmetic hop)
  | @relational Γ op l r hop _ _ ihl ihr =>
    have hlog : op.isLogical = false := by cases op <;> first | rfl | cases hop
    exact Value.ends_operation hlog (ihl he.binary.1 hη hρ) (ihr he.binary.2 hη hρ)
      (Value.within_operate_relational hop)
  | logical hop _ _ ihl ihr =>
    exact Value.ends_logical hop (ihl he.binary.1 hη hρ) (ihr he.binary.2 hη hρ)
  | cons _ _ ihh iht => exact Value.ends_cons (ihh he.cons.1 hη hρ) (iht he.cons.2 hη hρ)
  | cond _ _ _ ihc ihy ihn =>
    obtain ⟨hc, hy, hn⟩ := he.cond
    exact Value.ends_cond (ihc hc hη hρ) (ihy hy hη hρ) (ihn hn hη hρ)
  | @lambda Γ Δ p a b σ τ hp _ ih =>
    obtain ⟨hnodup, -, hb⟩ := he.lambda
    refine Value.ends_value (fun _ => rfl) (Value.inhabits_closure fun v ρ' hv hbind => ?_)
    exact ih hb hη (hρ.union hp hnodup hv hbind)
  | app _ _ ihf iha => exact Value.ends_app (ihf he.app.1 hη hρ) (iha he.app.2 hη hρ)
  | last hlast ih =>
    refine .of_succ ?_
    simp only [Value.eval_block_last _ _ hlast.not_isDefinition]
    exact ih (he.stmt List.mem_cons_self) hη hρ
  | @define Γ k x a v ss ys σ τ hv hys hss ihv ihss =>
    obtain ⟨s, rest, rfl⟩ := List.exists_cons_of_ne_nil hss.block_ne_nil
    obtain ⟨-, -, hev⟩ := (he.stmt List.mem_cons_self).define
    -- the environment is the same for every assignment of the generalised variables
    have hval : ∀ δ : { δ : Assignment // δ.IsMono },
        Ends (Value.Inhabits (σ.apply (η.override ys δ.1))) fun n => Value.eval n ρ v := by
      intro δ
      refine ihv hev (hη.override ys δ.2) (hρ.congr fun y hy => ?_)
      exact Assignment.override_of_not_mem fun hmem => hys y hmem hy
    have : Nonempty { δ : Assignment // δ.IsMono } := ⟨⟨.var, Assignment.isMono_var⟩⟩
    refine Value.ends_block_define hss.block_ne_nil (ends_forall hval) fun w ρ' hw hbind => ?_
    cases hbind
    exact ihss he.block_cons.2 hη
      (hρ.set (hv.mono.bindAll ys).1 (inhabits_bindAll hv.mono hw) x)
  | @discard Γ Δ k p a v ss σ τ hp _ hv hss ihv ihss =>
    obtain ⟨s, rest, rfl⟩ := List.exists_cons_of_ne_nil hss.block_ne_nil
    obtain ⟨-, -, hev⟩ := (he.stmt List.mem_cons_self).define
    refine Value.ends_block_define hss.block_ne_nil (ihv hev hη hρ) fun w ρ' _ hbind => ?_
    refine ihss he.block_cons.2 hη fun x σ hx => ?_
    have hxp : x ∉ p.names := by
      rcases hp with rfl | hp
      · simp [Pat.names]
      · cases p <;> simp_all [Pat.names, Pat.isLiteral]
    have hkeep := Value.get?_bind hxp w ρ
    rw [hbind] at hkeep
    rw [hkeep]
    exact hρ x σ hx
  | select _ hp _ _ ihv ihb =>
    obtain ⟨hev, harms⟩ := he.select
    refine Value.ends_select (ihv hev hη hρ) fun arm harm w ρ' hw hbind => ?_
    obtain ⟨hnodup, hb⟩ := harms arm harm
    exact ihb arm harm hb hη (hρ.union (hp arm harm) hnodup hw hbind)

/-- **Well-typed programs are safe, and they end.**  An expression of which a type is
inferred has a result at every large enough bound.  It is one value, which inhabits all
ground instances of the type, or a failure that types do not rule out; the others, that
a name is unbound or that an operation is given values of the wrong kind, do not
occur. -/
theorem infer_safe (ctx ctx' : Context) (e : Expr) (t : Ty)
    (he : e.Plain (Ty.Ascribable fun x => ∀ k, x ≠ Text.Decimal.natural k))
    (h : ctx.infer .empty e = (.ok t, ctx')) (hcount : ctx'.supply.count < Supply.capacity) :
    (∃ v, Settles (fun n => Value.eval n [] e) (.ok v) ∧
      ∀ θ : Assignment, (∀ x, (θ x).Ground) → Value.Inhabits (t.apply θ) v) ∨
    ∃ err, Settles (fun n => Value.eval n [] e) (.error err) ∧ err.Partial ∧
      (err.message = "Division by zero" ∨
      (∃ v : Value, err.message = "No case matches " ++ v.text) ∨
      (∃ (v : Value) (p : Pat),
        err.message = "Argument " ++ v.text ++ " does not match parameter " ++ p.text) ∨
      ∃ (v : Value) (p : Pat),
        err.message = "Value " ++ v.text ++ " does not match pattern " ++ p.text) := by
  have hty : HasType .empty e t := by
    have hall := (infer_hasType (fun x hx k _ => hx k) he h hcount).2
    simpa using hall .var Assignment.isMono_var
  have hends : ∀ θ : { θ : Assignment // ∀ x, (θ x).Ground },
      Ends (Value.Inhabits (t.apply θ.1)) fun n => Value.eval n [] e := fun θ =>
    hty.ends he (fun x => (θ.2 x).mono) (realizes_empty _ _)
  have : Nonempty { θ : Assignment // ∀ x, (θ x).Ground } :=
    ⟨⟨fun _ => .int, fun _ => by simp [Ty.Ground]⟩⟩
  obtain ⟨r, hr, hwithin⟩ := ends_forall hends
  cases r with
  | ok v => exact .inl ⟨v, hr, fun θ hθ => hwithin ⟨θ, hθ⟩⟩
  | error err => exact .inr ⟨err, hr, hwithin, hwithin.message_eq⟩

/-- A function on lists that refuses the empty one, and gives the head of the others
through the identity. -/
theorem infer_safe_head :
    let e : Expr := .block [
      .define .val (.ident "id") none (.lambda (.ident "x") none (.ident "x")),
      .lambda (.cons (.ident "h") .wildcard) none
        (.lambda (.ident "n") (some .int) (.app (.ident "id") (.ident "h")))]
    e.Plain (Ty.Ascribable fun x => ∀ k, x ≠ Text.Decimal.natural k) ∧
      (Context.infer {} .empty e).1 = .ok (.arrow (.list (.var "7")) (.arrow .int (.var "7"))) ∧
      (Context.infer {} .empty e).2.supply.count = 7 ∧
      ∃ v, Settles (fun n => Value.eval n [] e) (.ok v) ∧
        Value.Inhabits (.arrow (.list .bool) (.arrow .int .bool)) v := by
  intro e
  have he : e.Plain (Ty.Ascribable fun x => ∀ k, x ≠ Text.Decimal.natural k) := by
    have he : e.Plain (· = .int) := by decide
    refine he.imp ?_
    rintro _ rfl
    exact ⟨.mono trivial, by simp [Ty.int, Ty.binders, Ty.occurrences]⟩
  have h : (Context.infer {} .empty e).1 =
      .ok (.arrow (.list (.var "7")) (.arrow .int (.var "7"))) := by
    cbv
    simp only [Infer.instantiate]
    cbv
  have hcount : (Context.infer {} .empty e).2.supply.count = 7 := by
    cbv
    simp only [Infer.instantiate]
    cbv
  have hval : Settles (fun n => Value.eval n [] e) (Value.eval 2 [] e) := by
    refine ⟨2, fun m hm => ?_⟩
    obtain ⟨k, rfl⟩ : ∃ k, m = k + 2 := ⟨m - 2, by omega⟩
    rfl
  refine ⟨he, h, hcount, ?_⟩
  rcases infer_safe {} _ e _ he (Prod.ext h rfl) (by rw [hcount]; decide) with
    ⟨v, hv, hi⟩ | ⟨err, herr, -⟩
  · exact ⟨v, hv, hi (fun _ => .bool) fun _ => by simp [Ty.Ground]⟩
  · cases hval.unique herr

-- each of the four failures is met by a program of type `Int`
example :
    let cases : List (Expr × RuntimeError) :=
      [(.binary .divide (.number 1) (.number 0), .divisionByZero),
        (.select (.number 1) [(.number 2, .number 3)], .noCase (.int 1)),
        (.app (.lambda (.number 2) none (.number 3)) (.number 1),
          .refusedArgument (.int 1) (.number 2)),
        (.block [.define .val (.number 2) none (.number 1), .number 3],
          .refusedValue (.int 1) (.number 2))]
    (cases.map fun c => (Context.infer {} .empty c.1).1) = cases.map (fun _ => .ok .int) ∧
      (cases.map fun c => Value.eval 3 [] c.1) = cases.map (fun c => .error c.2) := by
  cbv

end LetPoly
