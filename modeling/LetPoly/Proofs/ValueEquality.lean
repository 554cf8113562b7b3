import LetPoly.Value.Eval

/-! # When values are equal

A value stands inside another if it is that value, or stands inside an element of that list
(`Value.Part`).  Comparison goes through two lists side by side, compares the elements
and stops where one of the lists ends.  What comes out is that two values are the same for the
comparison exactly if they are the same value and no function stands inside it
(`Value.equal_iff`): a function is refused wherever the comparison meets it, and all that it
does not meet is equal already.

Hence the comparison is symmetric and transitive, but reflexive only on the values without
functions (`Value.equal_exact`).
-/

namespace LetPoly.Value

/-! ## What stands inside a value -/

/-- The value stands inside another, at any depth. -/
inductive Part (u : Value) : Value → Prop
  | self : Part u u
  | element {v : Value} {vs : List Value} (hv : v ∈ vs) (h : Part u v) : Part u (.list vs)

/-- **No function stands inside the value.** -/
def ClosureFree (v : Value) : Prop := ∀ p b ρ, ¬Part (.closure p b ρ) v

theorem closureFree_list {vs : List Value} : ClosureFree (.list vs) ↔ ∀ v ∈ vs, v.ClosureFree := by
  constructor
  · intro h v hv p b ρ hpart
    exact h p b ρ (.element hv hpart)
  · rintro h p b ρ (_ | ⟨hv, hpart⟩)
    exact h _ hv p b ρ hpart

theorem not_closureFree_closure (p : Pat) (b : Expr) (ρ : Env) : ¬ClosureFree (.closure p b ρ) :=
  fun h => h p b ρ .self

/-- What is neither a list nor a function has nothing inside but itself. -/
theorem closureFree_of_single {v : Value} (hlist : ∀ vs, v ≠ .list vs)
    (hclosure : ∀ p b ρ, v ≠ .closure p b ρ) : v.ClosureFree := by
  rintro p b ρ (_ | _)
  · exact hclosure p b ρ rfl
  · exact hlist _ rfl

/-! ## Comparison -/

/-- A single value is the same as itself and as nothing else. -/
theorem equal_single {a : Value} (b : Value) (hlist : ∀ vs, a ≠ .list vs)
    (hclosure : ∀ p b ρ, a ≠ .closure p b ρ) : a.equal b = true ↔ a = b := by
  cases a with
  | list vs => exact absurd rfl (hlist vs)
  | closure p b ρ => exact absurd rfl (hclosure p b ρ)
  | _ => cases b <;> simp [equal]

mutual
/-- **Values are the same for the comparison if they are the same and have no function inside.** -/
theorem equal_iff (a b : Value) : a.equal b = true ↔ a = b ∧ a.ClosureFree := by
  cases a with
  | list vs =>
    cases b with
    | list ws => rw [equal, equalLists_iff, list.injEq, closureFree_list]
    | _ => simp [equal]
  | closure p e ρ => simp [equal, not_closureFree_closure]
  | int | bool | string | unit =>
    rw [equal_single b (by simp) (by simp)]
    exact (and_iff_left (closureFree_of_single (by simp) (by simp))).symm

theorem equalLists_iff (vs ws : List Value) :
    equalLists vs ws = true ↔ vs = ws ∧ ∀ v ∈ vs, v.ClosureFree := by
  cases vs with
  | nil => cases ws <;> simp [equalLists]
  | cons v vs =>
    cases ws with
    | nil => simp [equalLists]
    | cons w ws =>
      rw [equalLists, Bool.and_eq_true, equal_iff v w, equalLists_iff vs ws, List.cons.injEq,
        List.forall_mem_cons]
      exact and_and_and_comm
end

theorem equal_self_iff (a : Value) : a.equal a = true ↔ a.ClosureFree := by
  rw [equal_iff, eq_self, true_and]

/-- Whether a function stands inside a value is found by comparing the value with itself. -/
instance (v : Value) : Decidable v.ClosureFree := decidable_of_iff _ (equal_self_iff v)

theorem equal_comm (a b : Value) : a.equal b = b.equal a := by
  rw [Bool.eq_iff_iff, equal_iff, equal_iff]
  constructor <;> rintro ⟨rfl, hfree⟩ <;> exact ⟨rfl, hfree⟩

theorem equal_trans {a b c : Value} (hab : a.equal b = true) (hbc : b.equal c = true) :
    a.equal c = true := by
  obtain ⟨rfl, -⟩ := (equal_iff a b).1 hab
  exact hbc

/-- **The comparison of values is structural and excludes functions.**  Two values are the same
for it if and only if they are the same value and no function stands inside it, at whatever
depth; so it is symmetric and transitive, and reflexive exactly on the values without functions.
The operators `==` and `!=` answer with it. -/
theorem equal_exact :
    (∀ a b : Value, a.equal b = true ↔ a = b ∧ a.ClosureFree) ∧
    (∀ a b : Value, a.equal b = b.equal a) ∧
    (∀ a b c : Value, a.equal b = true → b.equal c = true → a.equal c = true) ∧
    (∀ a : Value, a.equal a = true ↔ a.ClosureFree) ∧
    ∀ a b : Value,
      (operate .equal a b = .ok (.bool true) ↔ a = b ∧ a.ClosureFree) ∧
      (operate .notEqual a b = .ok (.bool true) ↔ ¬(a = b ∧ a.ClosureFree)) := by
  refine ⟨equal_iff, equal_comm, fun a b c => equal_trans, equal_self_iff, fun a b => ?_⟩
  simp only [← equal_iff]
  simp [operate]

/-- Lists inside a list, one of them empty, and a list with a function two levels down. -/
theorem equal_exact_nested :
    let a : Value := .list [.list [.int 1, .string "x"], .list [], .unit]
    let b : Value := .list [.list [.int 1], .list [.closure (.ident "x") (.ident "x") []]]
    a.ClosureFree ∧ a.equal a = true ∧ ¬b.ClosureFree ∧ b.equal b = false := by
  intro a b
  have hb : ¬b.ClosureFree := by decide
  refine ⟨by decide, equal_exact.2.2.1 a a a (by decide) (by decide), hb, ?_⟩
  exact Bool.eq_false_iff.2 fun h => hb ((equal_exact.2.2.2.1 b).1 h)

end LetPoly.Value
