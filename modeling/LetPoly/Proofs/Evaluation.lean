import LetPoly.Proofs.Typing
import LetPoly.Value.Eval

/-! # Runs of the evaluator

Evaluation is bounded, and what it gives may depend on the bound only by being
`exhausted`.  A run **ends** where, from some bound on, it always gives the same
result (`Settles`); where the result is a value, it satisfies a condition, and where
it is a failure, it is one of the four that types do not rule out (`Partial`).

`Ends` is closed under sequencing (`Ends.bind`) and does not see the one step of depth
that every expression takes (`Ends.of_succ`).  With the equations of the evaluator at
the end of this module, the evaluation of an expression ends because those of its parts
do, and no later proof counts depths.
-/

namespace LetPoly

/-- **The failures that types do not rule out**: a division by zero, and a pattern that
takes only some of the values of its type. -/
inductive RuntimeError.Partial : RuntimeError → Prop
  | divisionByZero : Partial .divisionByZero
  | noCase (v : Value) : Partial (.noCase v)
  | refusedArgument (v : Value) (p : Pat) : Partial (.refusedArgument v p)
  | refusedValue (v : Value) (p : Pat) : Partial (.refusedValue v p)

/-- What is reported of these failures. -/
theorem RuntimeError.Partial.message_eq {err : RuntimeError} (h : err.Partial) :
    err.message = "Division by zero" ∨
    (∃ v : Value, err.message = "No case matches " ++ v.text) ∨
    (∃ (v : Value) (p : Pat),
      err.message = "Argument " ++ v.text ++ " does not match parameter " ++ p.text) ∨
    ∃ (v : Value) (p : Pat),
      err.message = "Value " ++ v.text ++ " does not match pattern " ++ p.text := by
  cases h with
  | divisionByZero => exact .inl rfl
  | noCase v => exact .inr (.inl ⟨v, rfl⟩)
  | refusedArgument v p => exact .inr (.inr (.inl ⟨v, p, rfl⟩))
  | refusedValue v p => exact .inr (.inr (.inr ⟨v, p, rfl⟩))

/-! ## Runs that end -/

section
variable {α β : Type}

/-- **The result of a run**: what it gives from some bound on. -/
def Settles (run : Nat → Except RuntimeError α) (r : Except RuntimeError α) : Prop :=
  ∃ n, ∀ m, n ≤ m → run m = r

theorem Settles.unique {run : Nat → Except RuntimeError α} {r s : Except RuntimeError α}
    (hr : Settles run r) (hs : Settles run s) : r = s := by
  obtain ⟨n, hn⟩ := hr
  obtain ⟨k, hk⟩ := hs
  rw [← hn (n + k) (by omega), hk (n + k) (by omega)]

/-- A value as it should be, or a failure that types do not rule out. -/
def Within (P : α → Prop) : Except RuntimeError α → Prop
  | .ok v => P v
  | .error err => err.Partial

/-- **The run ends**, in a value as it should be or in a failure that types do not rule
out. -/
def Ends (P : α → Prop) (run : Nat → Except RuntimeError α) : Prop :=
  ∃ r, Settles run r ∧ Within P r

variable {P : α → Prop} {Q : β → Prop} {run : Nat → Except RuntimeError α}

theorem ends_const {r : Except RuntimeError α} (h : Within P r) : Ends P fun _ => r :=
  ⟨r, ⟨0, fun _ _ => rfl⟩, h⟩

theorem Ends.succ (h : Ends P run) : Ends P fun n => run (n + 1) := by
  obtain ⟨r, ⟨n, hn⟩, hr⟩ := h
  exact ⟨r, ⟨n, fun m hm => hn (m + 1) (by omega)⟩, hr⟩

theorem Ends.of_succ (h : Ends P fun n => run (n + 1)) : Ends P run := by
  obtain ⟨r, ⟨n, hn⟩, hr⟩ := h
  refine ⟨r, ⟨n + 1, fun m hm => ?_⟩, hr⟩
  obtain ⟨k, rfl⟩ : ∃ k, m = k + 1 := ⟨m - 1, by omega⟩
  exact hn k (by omega)

theorem Ends.bind {next : Nat → α → Except RuntimeError β} (h : Ends P run)
    (hnext : ∀ v, P v → Ends Q fun n => next n v) : Ends Q fun n => run n >>= next n := by
  obtain ⟨r, ⟨n, hn⟩, hr⟩ := h
  cases r with
  | error err =>
    refine ⟨.error err, ⟨n, fun m hm => ?_⟩, hr⟩
    simp only [hn m hm]
    rfl
  | ok v =>
    obtain ⟨s, ⟨k, hk⟩, hs⟩ := hnext v hr
    refine ⟨s, ⟨n + k, fun m hm => ?_⟩, hs⟩
    simp only [hn m (by omega)]
    exact hk m (by omega)

/-- A run has one result, whatever is known of it. -/
theorem ends_forall {ι : Type} [Nonempty ι] {P : ι → α → Prop} (h : ∀ i, Ends (P i) run) :
    Ends (fun v => ∀ i, P i v) run := by
  obtain ⟨i⟩ := ‹Nonempty ι›
  obtain ⟨r, hr, hi⟩ := h i
  refine ⟨r, hr, ?_⟩
  cases r with
  | error err => exact hi
  | ok v =>
    -- for another index the run is the same one, and so is its result
    intro j
    obtain ⟨s, hs, hj⟩ := h j
    rwa [← hr.unique hs] at hj

end

namespace Value

/-! ## Patterns -/

theorem bind_cons_eq_true {p q : Pat} {v : Value} {ρ ρ' : Env}
    (h : bind (.cons p q) v ρ = (ρ', true)) :
    ∃ w ws ρ₁, v = .list (w :: ws) ∧ bind p w ρ = (ρ₁, true) ∧
      bind q (.list ws) ρ₁ = (ρ', true) := by
  match v, h with
  | .list (w :: ws), h =>
    rw [bind] at h
    generalize hw : bind p w ρ = first at h
    obtain ⟨ρ₁, ok⟩ := first
    cases ok with
    | false => cases h
    | true => exact ⟨w, ws, ρ₁, rfl, hw, h⟩

/-- Names that are not in the pattern keep their values. -/
theorem get?_bind {p : Pat} {x : String} (hx : x ∉ p.names) (v : Value) (ρ : Env) :
    (bind p v ρ).1.get? x = ρ.get? x := by
  fun_induction bind p v ρ with
  | case2 y v ρ => exact SortedMap.get?_insert_of_ne _ _ (by simpa [Pat.names] using hx)
  | case8 p q v vs ρ ρ₁ hp ihp ihq =>
    rw [Pat.names, List.mem_append, not_or] at hx
    have ihp := ihp hx.1
    rw [hp] at ihp
    rw [ihq hx.2, ihp]
  | case9 p q v vs ρ ρ₁ ok hp hok ihp =>
    rw [Pat.names, List.mem_append, not_or] at hx
    have ihp := ihp hx.1
    rwa [hp] at ihp
  | _ => rfl

theorem get?_evalDefinition {n : Nat} {ρ ρ' : Env} {d : Definition} {v : Value}
    (h : evalDefinition n ρ d = .ok (ρ', v)) {x : String} (hx : x ∉ d.pat.names) :
    ρ'.get? x = ρ.get? x := by
  rw [evalDefinition] at h
  cases hv : eval n ρ d.value with
  | error e =>
    rw [hv] at h
    cases h
  | ok w =>
    have hkeep := get?_bind hx w ρ
    have hbound : (bindValue d.pat w ρ).map (·, w) = .ok (ρ', v) := by
      rw [← h, hv]
      rfl
    rw [bindValue] at hbound
    generalize bind d.pat w ρ = r at hkeep hbound
    obtain ⟨ρ₁, _ | _⟩ := r
    · cases hbound
    · cases hbound
      exact hkeep

theorem chosen?_eq_some {v : Value} {ρ ρ' : Env} {arms : List (Pat × Expr)} {b : Expr}
    (h : chosen? v ρ arms = some (ρ', b)) :
    ∃ p, (p, b) ∈ arms ∧ bind p v ρ = (ρ', true) := by
  fun_induction chosen? v ρ arms with
  | case1 => cases h
  | case2 p b' arms ρ₁ hb =>
    cases h
    exact ⟨p, List.mem_cons_self, hb⟩
  | case3 p b' arms ρ₁ hb ih =>
    obtain ⟨q, hq, hbq⟩ := ih h
    exact ⟨q, List.mem_cons_of_mem _ hq, hbq⟩

/-- The value of a definition is taken apart, or refused. -/
theorem ends_bindValue (p : Pat) (v : Value) (ρ : Env) :
    Ends (fun ρ' => bind p v ρ = (ρ', true)) fun _ => bindValue p v ρ := by
  refine ends_const ?_
  rw [bindValue]
  split
  next ρ' h => exact h
  next => exact .refusedValue v p

/-- The argument of a function is taken apart, or refused. -/
theorem ends_enter (p : Pat) (b : Expr) (ρ : Env) (v : Value) :
    Ends (fun called => bind p v ρ = (called.1, true) ∧ called.2 = b) fun _ =>
      enter (.closure p b ρ) v := by
  refine ends_const ?_
  rw [enter]
  split
  next ρ' h => exact ⟨h, rfl⟩
  next => exact .refusedArgument v p

/-! ## The equations of the evaluator -/

section
variable (n : Nat) (ρ : Env)

theorem eval_ident {x : String} {v : Value} (h : ρ.get? x = some v) :
    eval (n + 1) ρ (.ident x) = .ok v := by
  rw [eval, h]

theorem eval_operation {op : Op} (hop : op.isLogical = false) (l r : Expr) :
    eval (n + 1) ρ (.binary op l r) = (do
      let lv ← eval n ρ l
      let rv ← eval n ρ r
      operate op lv rv) := by
  rw [eval, hop]
  rfl

theorem eval_logical {op : Op} (hop : op.isLogical) (l r : Expr) :
    eval (n + 1) ρ (.binary op l r) = (do
      let lv ← eval n ρ l
      match lv with
      | .bool b =>
        if decides op b then
          return lv
        else
          match ← eval n ρ r with
          | .bool c => return .bool c
          | rv => throw (.notRightBool op rv)
      | _ => throw (.notLeftBool op lv)) := by
  rw [eval, hop]
  rfl

theorem eval_cons (h t : Expr) :
    eval (n + 1) ρ (.cons h t) = (do
      let hv ← eval n ρ h
      let tv ← eval n ρ t
      cell hv tv) := rfl

theorem eval_cond (c y no : Expr) :
    eval (n + 1) ρ (.cond c y no) = (do
      match ← eval n ρ c with
      | .bool b => if b then eval n ρ y else eval n ρ no
      | v => throw (.notTest v)) := rfl

theorem eval_app (f a : Expr) :
    eval (n + 1) ρ (.app f a) = (do
      let fv ← eval n ρ f
      let av ← eval n ρ a
      apply n fv av) := rfl

theorem eval_select (v : Expr) (arms : List (Pat × Expr)) :
    eval (n + 1) ρ (.select v arms) = (do
      let w ← eval n ρ v
      match chosen? w ρ arms with
      | some (ρ', b) => eval n ρ' b
      | none => throw (.noCase w)) := rfl

theorem eval_block_last {e : Expr} (he : e.isDefinition = false) :
    eval (n + 1) ρ (.block [e]) = eval n ρ e := by
  cases e with
  | define => cases he
  | _ => rfl

/-- The statements of a block stand beside each other: those after a definition are
evaluated at its depth. -/
theorem eval_block_define (k : Binder) (p : Pat) (a : Option Ty) (v s : Expr) (ss : List Expr) :
    eval (n + 1) ρ (.block (.define k p a v :: s :: ss)) = (do
      let w ← eval n ρ v
      let ρ' ← bindValue p w ρ
      eval (n + 1) ρ' (.block (s :: ss))) := by
  simp only [eval, leadUp, bind_assoc]

end

end Value

end LetPoly
