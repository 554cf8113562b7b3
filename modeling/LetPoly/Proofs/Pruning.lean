import LetPoly.Proofs.References

/-! # Pruning keeps the result

Pruning drops the statements that the last one of a program does not depend on.  The kept
statements are run in another environment than before: names of dropped definitions have
no value in it, or the value that an earlier definition of the same name has left.  Still
they come to the same, because of what the analysis says about the names that they refer
to.

The two runs go side by side, one with all statements and one with those that are kept.
Before each statement their environments are **linked** (`Linked`): a name that has a value
in the first has been bound by a statement of the program, and if the last such statement
is kept, the two values are alike.  A kept statement refers to names that are bound by kept
statements, for these are its successors in the graph; hence it has alike values in both
runs.  A dropped one is taken by the first run alone, and what it defines is not spoken of
any more.  So every kept statement has the same value in both runs, up to likeness
(`evalProgram_keep`), and values that are alike have the same text.
-/

namespace LetPoly

/-! ## Programs -/

namespace Value

/-- The environment after a statement, and its value. -/
def evalStatement (bound : Nat) (env : Env) (e : Expr) : Except RuntimeError (Env × Value) :=
  match e.definition? with
  | some d => evalDefinition bound env d
  | none => do
    let v ← eval bound env e
    return (env, v)

/-- **The values of the statements of a program**, each in the environment after those
before it. -/
def evalProgram (bound : Nat) : Env → List Expr → Except RuntimeError (List Value)
  | _, [] => .ok []
  | env, e :: es => do
    let (env, v) ← evalStatement bound env e
    let vs ← evalProgram bound env es
    return v :: vs

section
variable {n : Nat} {ρ ρ' : Env} {e : Expr}

/-- A statement looks up the names that it refers to. -/
theorem evalStatement_tracks {closed : Prop} {N : String → Prop}
    (href : Env.Alike closed (· ∈ e.references) ρ ρ')
    (hρ : Env.Alike closed (fun x => N x ∧ x ∉ e.defines) ρ ρ') :
    Tracks closed (fun r r' => Env.Alike closed N r.1 r'.1 ∧ r.2.Alike closed r'.2)
      (evalStatement n ρ e) (evalStatement n ρ' e) := by
  cases e with
  | define k p a v => exact evalDefinition_tracks n href hρ
  | _ =>
    exact (eval_tracks n href).bind fun _ _ hv =>
      tracks_ok ⟨hρ.mono fun x hx => ⟨hx, List.not_mem_nil⟩, hv⟩

/-- A statement changes the values of the names that it defines only. -/
theorem get?_evalStatement {v : Value} (h : evalStatement n ρ e = .ok (ρ', v)) {x : String}
    (hx : x ∉ e.defines) : ρ'.get? x = ρ.get? x := by
  cases hd : e.isDefinition with
  | true =>
    obtain ⟨k, p, a, u, rfl⟩ := Expr.isDefinition_iff.1 hd
    exact get?_evalDefinition h hx
  | false =>
    have hnone : e.definition? = none := by simpa [Expr.isDefinition] using hd
    rw [evalStatement, hnone] at h
    cases hv : eval n ρ e with
    | error err =>
      rw [hv] at h
      cases h
    | ok w =>
      rw [hv] at h
      cases h
      rfl

theorem evalProgram_cons {es : List Expr} {vs : List Value} :
    evalProgram n ρ (e :: es) = .ok vs ↔ ∃ ρ₁ v us, evalStatement n ρ e = .ok (ρ₁, v) ∧
      evalProgram n ρ₁ es = .ok us ∧ vs = v :: us := by
  have hrun : evalProgram n ρ (e :: es) = evalStatement n ρ e >>= fun r =>
      evalProgram n r.1 es >>= fun us => .ok (r.2 :: us) := rfl
  rw [hrun]
  constructor
  · intro h
    rcases hstep : evalStatement n ρ e with err | ⟨ρ₁, v⟩
    · rw [hstep] at h
      cases h
    · rw [hstep] at h
      change (evalProgram n ρ₁ es >>= fun us => .ok (v :: us)) = .ok vs at h
      rcases hrest : evalProgram n ρ₁ es with err | us
      · rw [hrest] at h
        cases h
      · rw [hrest] at h
        cases h
        exact ⟨ρ₁, v, us, rfl, hrest, rfl⟩
  · rintro ⟨ρ₁, v, us, hstep, hrest, rfl⟩
    rw [hstep]
    change (evalProgram n ρ₁ es >>= fun us => .ok (v :: us)) = _
    rw [hrest]
    rfl

end

end Value

/-! ## The statements that are kept -/

/-- The elements of a list whose places, counted from `index` on, are live. -/
def keep {α : Type} (live : Nat → Bool) (index : Nat) : List α → List α
  | [] => []
  | x :: xs => if live index then x :: keep live (index + 1) xs else keep live (index + 1) xs

section
variable {α : Type} {live : Nat → Bool}

theorem filterMap_zip_range' (xs : List α) (index : Nat) :
    ((xs.zip ((List.range' index xs.length).map live)).filterMap fun (x, kept) =>
      if kept then some x else none) = keep live index xs := by
  induction xs generalizing index with
  | nil => rfl
  | cons x xs ih =>
    rw [List.length_cons, List.range'_succ, List.map_cons, List.zip_cons_cons, keep, ← ih]
    cases live index <;> rfl

theorem keep_append (xs ys : List α) (index : Nat) :
    keep live index (xs ++ ys) = keep live index xs ++ keep live (index + xs.length) ys := by
  induction xs generalizing index with
  | nil => rfl
  | cons x xs ih =>
    rw [List.cons_append, keep, keep, ih, List.length_cons, Nat.add_right_comm, Nat.add_assoc]
    split <;> rfl

/-- If the last place is live, the last element is kept, and is the last that is. -/
theorem getLast?_keep {xs : List α} {x : α} (hx : xs.getLast? = some x)
    (hlive : live (xs.length - 1)) : (keep live 0 xs).getLast? = some x := by
  obtain ⟨ys, rfl⟩ := List.getLast?_eq_some_iff.1 hx
  rw [List.length_append, List.length_singleton, Nat.add_sub_cancel] at hlive
  rw [keep_append, Nat.zero_add, keep, if_pos hlive, keep, List.getLast?_append,
    List.getLast?_singleton, Option.some_or]

end

/-! ## Two runs side by side -/

open Dependency

/-- **The environments of the two runs before a statement.**  Names have values that
statements gave them, and where such a statement is live the values are alike. -/
structure Linked (live : Nat → Bool) (a : Dependency) (ρ ρ' : Env) : Prop where
  bound : ∀ x, (ρ.get? x).isSome → ∃ j, a.scopes.get? x = some (.statement j)
  alike : Env.Alike False (fun x => ∃ j, a.scopes.get? x = some (.statement j) ∧ live j) ρ ρ'

section
variable {live : Nat → Bool} {index n : Nat} {a : Dependency} {e : Expr} {ρ ρ' ρ₁ ρ₁' : Env}

theorem linked_empty (live : Nat → Bool) (n : Nat) : Linked live { graph := .empty n } [] [] where
  bound x hx := by cases hx
  alike := ⟨False.elim, fun x u _ hu => by cases hu⟩

theorem Linked.bound_step (h : Linked live a ρ ρ') {v : Value}
    (heval : Value.evalStatement n ρ e = .ok (ρ₁, v)) (x : String) (hx : (ρ₁.get? x).isSome) :
    ∃ j, (statement index a e).scopes.get? x = some (.statement j) := by
  rw [(statement_reads index a e).1]
  by_cases hxe : x ∈ e.defines
  · exact ⟨index, if_pos hxe⟩
  · rw [if_neg hxe]
    rw [Value.get?_evalStatement heval hxe] at hx
    exact h.bound x hx

/-- A statement that is live is taken by both runs, with alike values. -/
theorem Linked.live_step (h : Linked live a ρ ρ') (index : Nat)
    (href : ∀ x ∈ e.references, ∀ j, a.scopes.get? x = some (.statement j) → live j) {v : Value}
    (heval : Value.evalStatement n ρ e = .ok (ρ₁, v)) :
    ∃ ρ₁' w, Value.evalStatement n ρ' e = .ok (ρ₁', w) ∧ v.Alike False w ∧
      Linked live (statement index a e) ρ₁ ρ₁' := by
  have hread : Env.Alike False (· ∈ e.references) ρ ρ' := by
    refine ⟨False.elim, fun x u hx hu => ?_⟩
    obtain ⟨j, hj⟩ := h.bound x (by rw [hu]; rfl)
    exact h.alike.alike x u ⟨j, hj, href x hx j hj⟩ hu
  have hothers : Env.Alike False (fun x => (∃ j, (statement index a e).scopes.get? x =
      some (.statement j) ∧ live j) ∧ x ∉ e.defines) ρ ρ' := by
    refine h.alike.mono fun x hx => ?_
    obtain ⟨⟨j, hj, hlive⟩, hxe⟩ := hx
    rw [(statement_reads index a e).1, if_neg hxe] at hj
    exact ⟨j, hj, hlive⟩
  have htracks := Value.evalStatement_tracks (n := n) hread hothers
  rw [heval] at htracks
  obtain ⟨⟨ρ₁', w⟩, heval', halike, hvw⟩ := htracks
  exact ⟨ρ₁', w, heval', hvw, h.bound_step heval, halike⟩

/-- A statement that is not live is taken by the first run alone. -/
theorem Linked.dead_step (h : Linked live a ρ ρ') (hdead : live index = false) {v : Value}
    (heval : Value.evalStatement n ρ e = .ok (ρ₁, v)) :
    Linked live (statement index a e) ρ₁ ρ' := by
  refine ⟨h.bound_step heval, False.elim, fun x u hx hu => ?_⟩
  obtain ⟨j, hj, hlive⟩ := hx
  rw [(statement_reads index a e).1] at hj
  split at hj
  · -- bound by this very statement, which is not live
    cases hj
    rw [hdead] at hlive
    cases hlive
  · rename_i hxe
    rw [Value.get?_evalStatement heval hxe] at hu
    exact h.alike.alike x u ⟨j, hj, hlive⟩ hu

end

/-- **Every kept statement has the same value in both runs**, up to likeness, if what a kept
statement refers to is kept. -/
theorem evalProgram_keep {live : Nat → Bool} {n : Nat} {es : List Expr} :
    ∀ {index : Nat} {a : Dependency} {ρ ρ' : Env} {vs : List Value}, Ready index a →
      index + es.length = a.graph.length → (statements a index es).2 = none →
      (∀ u w, live u → w ∈ (statements a index es).1.graph.successors u → live w) →
      Linked live a ρ ρ' → Value.evalProgram n ρ es = .ok vs →
      vs.length = es.length ∧ ∃ ws, Value.evalProgram n ρ' (keep live index es) = .ok ws ∧
        List.Forall₂ (Value.Alike False) (keep live index vs) ws := by
  induction es with
  | nil =>
    intro index a ρ ρ' vs _ _ _ _ _ hrun
    cases hrun
    exact ⟨rfl, [], rfl, .nil⟩
  | cons e es ih =>
    intro index a ρ ρ' vs hready hlen haccepted hlive hlinked hrun
    -- the graph is that of the whole program, and is the same for the rest of it
    obtain ⟨ρ₁, v, us, hstep, hrest, rfl⟩ := Value.evalProgram_cons.1 hrun
    have hrefers := statements_refers hready hlen haccepted
    rw [List.length_cons] at hlen
    have hindex : index < a.graph.length := by omega
    have hsize := (statement_edges hindex e).1
    rw [statements_cons haccepted] at hlive hrefers haccepted
    have hready := hready.statement hindex e
    rw [keep, keep]
    cases hkept : live index with
    | true =>
      obtain ⟨ρ₁', w, hstep', hvw, hlinked⟩ := hlinked.live_step index
        (fun x hx j hj => hlive index j hkept (hrefers x hx j hj)) hstep
      obtain ⟨hlength, ws, hrest', hws⟩ := ih hready (by omega) haccepted hlive hlinked hrest
      exact ⟨congrArg (· + 1) hlength, w :: ws,
        Value.evalProgram_cons.2 ⟨ρ₁', w, ws, hstep', hrest', rfl⟩, .cons hvw hws⟩
    | false =>
      have hlinked := hlinked.dead_step hkept hstep
      obtain ⟨hlength, hrest'⟩ := ih hready (by omega) haccepted hlive hlinked hrest
      exact ⟨congrArg (· + 1) hlength, hrest'⟩

/-! ## Pruned programs -/

/-- The last elements of related lists are related. -/
theorem getLast?_of_forall₂ {α : Type} {R : α → α → Prop} {xs ys : List α} {x : α}
    (h : List.Forall₂ R xs ys) (hx : xs.getLast? = some x) :
    ∃ y, ys.getLast? = some y ∧ R x y := by
  rw [List.getLast?_eq_head?_reverse] at hx ⊢
  have hrev := List.forall₂_reverse_iff.2 h
  generalize xs.reverse = xs at hrev hx
  generalize ys.reverse = ys at hrev ⊢
  cases hrev with
  | nil => cases hx
  | cons hxy _ =>
    cases hx
    exact ⟨_, rfl, hxy⟩

/-- The statement depends on that with this index, directly or through others. -/
def Dependency.needs (a : Dependency) (root index : Nat) : Bool :=
  index ∈ (a.graph.traverse [root]).entered

/-- **What is known of a program that is accepted.**  Its last statement is needed, and so is
what a needed statement refers to. -/
theorem analyze_needs {program : List Expr} {last : Expr} (hlast : program.getLast? = some last)
    (haccepted : (analyze {} program).2 = none) :
    (analyze {} program).1.graph.length = program.length ∧
      (analyze {} program).1.needs (program.length - 1) (program.length - 1) ∧
      ∀ u w, (analyze {} program).1.needs (program.length - 1) u →
        w ∈ (analyze {} program).1.graph.successors u →
        (analyze {} program).1.needs (program.length - 1) w := by
  obtain ⟨-, hsize, hwithin⟩ :=
    statements_edges (ready_empty program.length) (by simp) haccepted
  rw [Graph.length_empty] at hsize
  have hroot : program.length - 1 < (analyze {} program).1.graph.length := by
    have hpos := List.length_pos_of_mem (List.mem_of_getLast? hlast)
    have hlen : (analyze {} program).1.graph.length = program.length := hsize
    omega
  obtain ⟨hentered, hclosed⟩ :=
    Graph.traverse_closed hwithin (List.forall_mem_singleton.2 hroot)
  exact ⟨hsize, decide_eq_true (hentered _ List.mem_cons_self),
    fun u w hu hw => decide_eq_true (hclosed u (of_decide_eq_true hu) w hw)⟩

/-- What is kept of a program that does not end with a definition. -/
theorem prune_eq_keep {program : List Expr} {last : Expr} (hlast : program.getLast? = some last)
    (hdef : last.isDefinition = false) (haccepted : (analyze {} program).2 = none) :
    prune program = .ok (keep ((analyze {} program).1.needs (program.length - 1)) 0 program) := by
  obtain ⟨hsize, -⟩ := analyze_needs hlast haccepted
  rw [prune, hlast]
  generalize analyze {} program = r at haccepted hsize ⊢
  obtain ⟨a, error⟩ := r
  obtain rfl : error = none := haccepted
  have hlive : a.live (program.length - 1) =
      (List.range' 0 program.length).map (a.needs (program.length - 1)) := by
    rw [← List.range_eq_range', ← hsize]
    rfl
  simp only [hdef, Bool.false_eq_true, if_false, hlive, filterMap_zip_range']

/-- **Pruning keeps the result.**  If a program that is accepted and does not end with a
definition runs to an end, so does the pruned program, within the same bound, and its last
value has the same text. -/
theorem prune_keeps_result (n : Nat) (program : List Expr) (last : Expr) (vs : List Value)
    (v : Value) (hlast : program.getLast? = some last) (hdef : last.isDefinition = false)
    (haccepted : (analyze {} program).2 = none)
    (hrun : Value.evalProgram n [] program = .ok vs) (hv : vs.getLast? = some v) :
    ∃ kept ws w, prune program = .ok kept ∧ Value.evalProgram n [] kept = .ok ws ∧
      ws.getLast? = some w ∧ w.text = v.text := by
  obtain ⟨-, hroot, hneeds⟩ := analyze_needs hlast haccepted
  obtain ⟨hlength, ws, hrun', hws⟩ := evalProgram_keep (ready_empty program.length)
    (by simp) haccepted hneeds (linked_empty _ program.length) hrun
  obtain ⟨w, hw, hvw⟩ := getLast?_of_forall₂ hws (getLast?_keep hv (hlength ▸ hroot))
  exact ⟨_, ws, w, prune_eq_keep hlast hdef haccepted, hrun', hw, hvw.text_eq.symm⟩

/-- A function goes on to refer to the definition that it was made after, also where a later
one of the same name is dropped, and a parameter of that name is no reference. -/
theorem prune_keeps_result_redefined :
    let val (x : String) (e : Expr) : Expr := .define .val (.ident x) none e
    let fn (x : String) (e : Expr) : Expr := .lambda (.ident x) none e
    let one := val "x" (.number 1)
    let f := val "f" (fn "y" (.binary .plus (.ident "x") (.ident "y")))
    let g := val "g" (fn "x" (.app (.ident "f") (.ident "x")))
    let call := Expr.app (.ident "g") (.number 10)
    let program := [one, f, val "x" (.number 2), g, val "z" (.ident "x"), call]
    program.getLast? = some call ∧ call.isDefinition = false ∧ (analyze {} program).2 = none ∧
      prune program = .ok [one, f, g, call] ∧
      (Value.evalProgram 9 [] program).map (·.getLast?) = .ok (some (.int 11)) ∧
      ∃ ws w, Value.evalProgram 9 [] [one, f, g, call] = .ok ws ∧ ws.getLast? = some w ∧
        w.text = "11" := by
  intro val fn one f g call program
  have haccepted : (analyze {} program).2 = none := by cbv
  have hprune : prune program = .ok [one, f, g, call] := by cbv
  obtain ⟨vs, hrun, hv⟩ : ∃ vs, Value.evalProgram 9 [] program = .ok vs ∧
      vs.getLast? = some (.int 11) := ⟨_, rfl, rfl⟩
  obtain ⟨kept, ws, w, hkept, hruns, hw, htext⟩ := prune_keeps_result 9 program call vs (.int 11)
    rfl rfl haccepted hrun hv
  cases hprune.symm.trans hkept
  exact ⟨rfl, rfl, haccepted, hprune, by rw [hrun, Except.map, hv], ws, w, hruns, hw, htext⟩
end LetPoly
