import LetPoly.Proofs.TypeSafety

/-! # The types and the values of a pattern's names

Inference and evaluation both go through a pattern, and both give its names something:
inference a type, evaluation a part of the value that is matched.  Of a name that occurs
more than once, inference takes the first place and evaluation the last one.

What a place is given depends on its **depth** only, the number of lists that it is an
element of: the tail of a list is a list of the same type.  Inference says how deep the
type of a name stands in the type of the pattern (`pattern_type`), and evaluation how
deep its value stands in the matched value (`bind_value`).  **The value has the type**
where the first and the last place are equally deep (`bind_agrees`).  Where they are not,
it need not have it (`bind_repeated_name`).
-/

namespace LetPoly

/-! ## The places of a name -/

namespace Pat

/-- The depths of the places of a name, from left to right. -/
def depths (x : String) : Pat → List Nat
  | .ident y => if x = y then [0] else []
  | .cons h t => (h.depths x).map (· + 1) ++ t.depths x
  | .number _ | .string _ | .boolean _ | .unit | .wildcard | .nil | .missing => []

theorem depths_eq_nil {x : String} {p : Pat} : p.depths x = [] ↔ x ∉ p.names := by
  induction p with
  | ident y => simp [depths, names]
  | cons h t ihh iht => simp [depths, names, ihh, iht]
  | _ => simp [depths, names]

/-- **A level pattern**: of a name that occurs more than once, the first and the last
place are equally deep. -/
def Level (p : Pat) : Prop := ∀ x ∈ p.names, (p.depths x).head? = (p.depths x).getLast?

instance (p : Pat) : Decidable p.Level := inferInstanceAs (Decidable (∀ _ ∈ _, _))

end Pat

/-- The type of lists of lists, to some depth, of a type. -/
def Ty.nested : Nat → Ty → Ty
  | 0, t => t
  | d + 1, t => .list (t.nested d)

/-! ## Types -/

namespace Infer

/-- The type of a name stands in the type of the pattern as deep as its first place. -/
theorem pattern_type {p : Pat} {st st' : State} {pt : PatternType}
    (h : Gives (pattern p) st pt st') {θ : Assignment} (hθ : θ.Solves pt.equations) {x : String}
    {d : Nat} (hd : (p.depths x).head? = some d) :
    ∃ σ, pt.bindings.get? x = some σ ∧ pt.type.apply θ = (σ.apply θ).nested d := by
  induction p generalizing st st' pt d with
  | ident y =>
    obtain ⟨t, _, -, h⟩ := gives_bind.1 h
    obtain ⟨rfl, -⟩ := gives_pure.1 h
    by_cases hx : x = y
    · subst hx
      simp only [Pat.depths, if_true, List.head?_cons, Option.some.injEq] at hd
      subst hd
      exact ⟨t, TypeEnv.get?_set_self _ _ _, rfl⟩
    · simp [Pat.depths, hx] at hd
  | cons p q ihp ihq =>
    obtain ⟨ht, _, tt, hp, hq, rfl⟩ := gives_pattern_cons.1 h
    simp only [Assignment.solves_append, Assignment.solves_cons, Assignment.solves_nil,
      and_true] at hθ
    obtain ⟨⟨hθp, hθq⟩, htail⟩ := hθ
    cases hdp : (p.depths x).head? with
    | some d' =>
      obtain ⟨σ, hσ, htype⟩ := ihp hp hθp hdp
      obtain rfl : d' + 1 = d := by simpa [Pat.depths, List.head?_append, hdp] using hd
      exact ⟨σ, by simp [TypeEnv.get?_union, hσ], by simp [Ty.nested, htype]⟩
    | none =>
      have hxp : x ∉ p.names := Pat.depths_eq_nil.1 (List.head?_eq_none_iff.1 hdp)
      have hnone := Option.not_isSome_iff_eq_none.1 ((isSome_get?_pattern hp x).not.2 hxp)
      obtain ⟨σ, hσ, htype⟩ := ihq hq hθq (by simpa [Pat.depths, List.head?_append, hdp] using hd)
      -- the equation of the pattern says that the tail has the type of the whole
      exact ⟨σ, by simp [TypeEnv.get?_union, hσ, hnone], htail.trans htype⟩
  | _ => cases hd

end Infer

/-! ## Values -/

namespace Value

theorem Inhabits.tail {τ : Ty} {v : Value} {vs : List Value} (h : Inhabits τ (.list (v :: vs))) :
    Inhabits τ (.list vs) := by
  cases τ with
  | list => exact fun w hw => h w (List.mem_cons_of_mem _ hw)
  | _ => exact h.elim

/-- The value of a name stands in the matched value as deep as its last place. -/
theorem bind_value {p : Pat} {v : Value} {ρ ρ' : Env} (h : bind p v ρ = (ρ', true)) {x : String}
    {d : Nat} (hd : (p.depths x).getLast? = some d) :
    ∃ w, ρ'.get? x = some w ∧ ∀ τ : Ty, Inhabits (τ.nested d) v → Inhabits τ w := by
  induction p generalizing v ρ ρ' d with
  | ident y =>
    cases h
    by_cases hx : x = y
    · subst hx
      simp only [Pat.depths, if_true, List.getLast?_singleton, Option.some.injEq] at hd
      subst hd
      exact ⟨v, SortedMap.get?_insert_self ρ x v, fun _ => id⟩
    · simp [Pat.depths, hx] at hd
  | cons p q ihp ihq =>
    obtain ⟨w, ws, ρ₁, rfl, hp, hq⟩ := bind_cons_eq_true h
    cases hdq : (q.depths x).getLast? with
    | some d' =>
      obtain ⟨u, hu, htype⟩ := ihq hq hdq
      obtain rfl : d' = d := by simpa [Pat.depths, List.getLast?_append, hdq] using hd
      exact ⟨u, hu, fun τ hτ => htype τ hτ.tail⟩
    | none =>
      -- the tail is matched after the head, and leaves the name alone
      have hxq : x ∉ q.names := Pat.depths_eq_nil.1 (List.getLast?_eq_none_iff.1 hdq)
      have hkeep := get?_bind hxq (.list ws) ρ₁
      rw [hq] at hkeep
      obtain ⟨d', hdp, rfl⟩ : ∃ d', (p.depths x).getLast? = some d' ∧ d' + 1 = d := by
        simpa [Pat.depths, List.getLast?_append, hdq] using hd
      obtain ⟨u, hu, htype⟩ := ihp hp hdp
      exact ⟨u, hkeep.trans hu, fun τ hτ => htype τ (hτ w List.mem_cons_self)⟩
  | _ => cases hd

end Value

/-! ## Both -/

/-- **The value that a name is bound to has the type that the name is given**, in every
level pattern, for every assignment that solves the pattern's equations and every value
that has the type of the pattern; names outside of the pattern keep their values. -/
theorem bind_agrees (ctx ctx' : Context) (p : Pat) (pt : Infer.PatternType) (θ : Assignment)
    (v : Value) (ρ ρ' : Env) (hp : p.Level) (h : ctx.pattern p = (.ok pt, ctx'))
    (hθ : θ.Solves pt.equations) (hv : Value.Inhabits (pt.type.apply θ) v)
    (hb : Value.bind p v ρ = (ρ', true)) :
    (∀ x ∈ p.names, ∃ σ w, pt.bindings.get? x = some σ ∧ ρ'.get? x = some w ∧
      Value.Inhabits (σ.apply θ) w) ∧
    ∀ x, x ∉ p.names → ρ'.get? x = ρ.get? x := by
  obtain ⟨st', hgives⟩ := Context.gives_of_pattern h
  refine ⟨fun x hx => ?_, fun x hx => ?_⟩
  · obtain ⟨d, hd⟩ : ∃ d, (p.depths x).head? = some d := by
      rw [← Option.isSome_iff_exists, List.isSome_head?]
      simpa [Pat.depths_eq_nil] using hx
    obtain ⟨σ, hσ, htype⟩ := Infer.pattern_type hgives hθ hd
    obtain ⟨w, hw, hvalue⟩ := Value.bind_value hb ((hp x hx).symm.trans hd)
    exact ⟨σ, w, hσ, hw, hvalue _ (htype ▸ hv)⟩
  · have hkeep := Value.get?_bind hx v ρ
    rwa [hb] at hkeep

/-- The first two elements of a list under one name. -/
theorem bind_agrees_elements :
    let p : Pat := .cons (.ident "x") (.cons (.ident "x") (.ident "rest"))
    let pt : Infer.PatternType := ⟨.list (.var "1"),
      [⟨.list (.var "2"), .var "3"⟩, ⟨.list (.var "1"), .list (.var "2")⟩],
      ⟨1, [("x", .var "1"), ("x", .var "2"), ("rest", .var "3")]⟩⟩
    let θ : Assignment := fun y => if y = "3" then .list .int else .int
    let v : Value := .list [.int 1, .int 2, .int 3]
    let ρ : Env := [("rest", .list [.int 3]), ("x", .int 2), ("y", .unit)]
    p.Level ∧ (Context.pattern {} p).1 = .ok pt ∧ θ.Solves pt.equations ∧
      Value.Inhabits (pt.type.apply θ) v ∧ Value.bind p v [("y", .unit)] = (ρ, true) ∧
      ∃ σ w, pt.bindings.get? "x" = some σ ∧ ρ.get? "x" = some w ∧
        Value.Inhabits (σ.apply θ) w := by
  intro p pt θ v ρ
  have hp : p.Level := by decide
  have h : (Context.pattern {} p).1 = .ok pt := by cbv
  have hθ : θ.Solves pt.equations := by simp [pt, θ]
  have hv : Value.Inhabits (pt.type.apply θ) v := by
    simp [pt, θ, v, Value.Inhabits, Ty.int]
  have hb : Value.bind p v [("y", .unit)] = (ρ, true) := by cbv
  have hagrees := bind_agrees {} _ p pt θ v _ ρ hp (Prod.ext h rfl) hθ hv hb
  exact ⟨hp, h, hθ, hv, hb, hagrees.1 "x" (by decide)⟩

/-- The head and the tail of a list under one name: its type is that of the head and its
value is the tail. -/
theorem bind_repeated_name :
    let p : Pat := .cons (.ident "x") (.ident "x")
    let pt : Infer.PatternType := ⟨.list (.var "1"), [⟨.list (.var "1"), .var "2"⟩],
      ⟨1, [("x", .var "1"), ("x", .var "2")]⟩⟩
    let θ : Assignment := fun y => if y = "2" then .list .int else .int
    let v : Value := .list [.int 1]
    (Context.pattern {} p).1 = .ok pt ∧ (∀ y, (θ y).Ground) ∧ θ.Solves pt.equations ∧
      Value.Inhabits (pt.type.apply θ) v ∧ Value.bind p v [] = ([("x", .list [])], true) ∧
      pt.bindings.get? "x" = some (.var "1") ∧
      ¬Value.Inhabits ((Ty.var "1").apply θ) (.list []) := by
  intro p pt θ v
  refine ⟨by cbv, fun y => ?_, by simp [pt, θ], by simp [pt, θ, v, Value.Inhabits, Ty.int], by cbv,
    rfl, by simp [θ, Value.Inhabits, Ty.int]⟩
  by_cases hy : y = "2" <;> simp [θ, hy, Ty.Ground]

end LetPoly
