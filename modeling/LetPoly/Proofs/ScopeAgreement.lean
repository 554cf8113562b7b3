import LetPoly.Proofs.Complaints
import LetPoly.Proofs.References

/-! # What is bound

Three parts of the language decide what a name refers to: the analysis of dependencies,
which overwrites the bindings of one map and puts them back; inference, which extends a list
and looks for the latest entry; and evaluation, whose functions keep the environment in
which they were made.  Each agrees with `Expr.free`, the names that an expression refers to
and does not bind itself.  The analysis reports exactly these
(`Dependency.mem_free_analyze`), inference complains of none but these and accepts an
expression only if all of them have a type, and evaluation looks up no others outside.
-/

namespace LetPoly

namespace Dependency

/-- The names without a binding that references add. -/
theorem mem_foldl_note {index : Nat} {origin : String → Option Origin} {xs : List String}
    {notes : Graph × List String} {x : String} :
    x ∈ (xs.foldl (note index origin) notes).2 ↔ x ∈ notes.2 ∨ x ∈ xs ∧ origin x = none := by
  induction xs generalizing notes with
  | nil => simp
  | cons y xs ih =>
    have hnote : x ∈ (note index origin notes y).2 ↔ x ∈ notes.2 ∨ x = y ∧ origin x = none := by
      rw [note]
      cases hy : origin y with
      | some o =>
        have hne : ¬(x = y ∧ origin x = none) := by
          rintro ⟨rfl, hx⟩
          rw [hx] at hy
          cases hy
        cases o <;> exact (or_iff_left hne).symm
      | none =>
        by_cases hmem : y ∈ notes.2
        · rw [if_pos hmem]
          refine (or_iff_left_of_imp ?_).symm
          rintro ⟨rfl, -⟩
          exact hmem
        · rw [if_neg hmem, List.mem_append, List.mem_singleton]
          refine or_congr_right ⟨?_, And.left⟩
          rintro rfl
          exact ⟨rfl, hy⟩
    rw [List.foldl_cons, ih, hnote, List.mem_cons, or_and_right, or_assoc]

/-- **The analysis of an expression reports the names that it refers to.** -/
theorem mem_free_analyze {e : Expr} (he : e.Placed) :
    (analyze {} [e]).2 = none ∧ ∀ x, x ∈ (analyze {} [e]).1.free ↔ x ∈ e.free := by
  have hvalid : e.validate = .ok () := (Expr.validate_eq_ok he.not_definition).2 he
  have hrefs : e.references = e.free := by
    cases e with
    | define => exact absurd he Expr.not_placed_define
    | _ => rfl
  have hanalyze : analyze {} [e] = (statement 0 { graph := .empty 1 } e, none) := by
    show statements { graph := .empty 1 } 0 [e] = _
    rw [statements, hvalid]
    rfl
  rw [hanalyze]
  refine ⟨rfl, fun x => ?_⟩
  have hfree := congrArg Prod.snd (statement_reads 0 { graph := .empty 1 } e).2
  have hunbound : SortedMap.get? ([] : SortedMap Origin) x = none := rfl
  rw [show (statement 0 { graph := .empty 1 } e).free = _ from hfree, mem_foldl_note, hrefs]
  simp [hunbound]

end Dependency

/-- An expression that inference accepts without assumptions refers to no name. -/
theorem Context.free_eq_nil_of_infer {ctx : Context} {e : Expr} {t : Ty}
    (h : (ctx.infer .empty e).1 = .ok t) : e.free = [] := by
  obtain ⟨st', hgives, -⟩ := gives_of_infer (Prod.ext h rfl)
  obtain ⟨vt, E, st₁, sol, hgen, -, -, -⟩ := Infer.gives_infer.1 hgives
  refine List.eq_nil_iff_forall_not_mem.2 fun x hx => ?_
  have hsome := Infer.looksUp e hgen x hx
  simp [TypeEnv.get?, TypeEnv.empty] at hsome

/-- **The analysis, inference and evaluation agree on what is bound.**  The analysis of a
valid expression succeeds.  If it reports no free name, inference without assumptions does
not complain of an unbound name and evaluation in the empty environment does not miss one,
with any bound on its depth; if it reports a name, inference does not succeed. -/
theorem scopes_agree (e : Expr) (hvalid : e.validate = .ok ()) (he : e.isDefinition = false) :
    (Dependency.analyze {} [e]).2 = none ∧
      ((Dependency.analyze {} [e]).1.free = [] →
        (∀ (ctx : Context) x, (ctx.infer .empty e).1 ≠ .error (.unbound x)) ∧
          ∀ n x, Value.eval n [] e ≠ .error (.unbound x)) ∧
      ((Dependency.analyze {} [e]).1.free ≠ [] →
        ∀ (ctx : Context) t, (ctx.infer .empty e).1 ≠ .ok t) := by
  have hplaced : e.Placed := (Expr.validate_eq_ok he).1 hvalid
  obtain ⟨haccepted, hfree⟩ := Dependency.mem_free_analyze hplaced
  refine ⟨haccepted, fun hnone => ⟨fun ctx x herror => ?_, fun n x => ?_⟩,
    fun hsome ctx t hok => ?_⟩
  · have hfault := Context.infer_faults hplaced herror
    cases hfault with
    | unbound hx =>
      have hmem := (hfree x).2 hx.1
      rw [hnone] at hmem
      cases hmem
  · refine Env.closed_empty.eval_ne_unbound (fun y hy => ?_) n x
    have hmem := (hfree y).2 hy
    rw [hnone] at hmem
    cases hmem
  · obtain ⟨x, hx⟩ := List.exists_mem_of_ne_nil _ hsome
    have hmem := (hfree x).1 hx
    rw [Context.free_eq_nil_of_infer hok] at hmem
    cases hmem

/-- A function that is called after the block in which it was made has ended, and a case
that uses the name of another one. -/
theorem scopes_agree_blocks :
    let k : Expr := .block [.define .val (.ident "x") none (.number 1),
      .lambda (.ident "y") none (.binary .plus (.ident "x") (.ident "y"))]
    let closed : Expr := .app k (.number 2)
    let opened : Expr := .select .nil [(.cons (.ident "x") .wildcard, .ident "x"),
      (.nil, .ident "x")]
    closed.validate = .ok () ∧ (Dependency.analyze {} [closed]).1.free = [] ∧
      (∀ n x, Value.eval n [] closed ≠ .error (.unbound x)) ∧
      opened.validate = .ok () ∧ (Dependency.analyze {} [opened]).1.free = ["x"] ∧
      ∀ (ctx : Context) t, (ctx.infer .empty opened).1 ≠ .ok t := by
  intro k closed opened
  have hclosed : (Dependency.analyze {} [closed]).1.free = [] := by cbv
  have hopened : (Dependency.analyze {} [opened]).1.free = ["x"] := by cbv
  exact ⟨rfl, hclosed, ((scopes_agree closed rfl rfl).2.1 hclosed).2, rfl, hopened,
    (scopes_agree opened rfl rfl).2.2 (by simp [hopened])⟩

end LetPoly
