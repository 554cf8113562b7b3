import LetPoly.Expr.Placement
import LetPoly.Proofs.Shape

/-! # Well-placed definitions

What it means for each form of expression that the check of placements finds nothing
wrong (`Expr.Placed`).  A block is taken one statement at a time, as inference,
evaluation and compilation take it: a definition or another statement in front of a block
gives a block again (`Expr.placed_block_define`, `Expr.placed_block_stmt`), and the last
statement is an expression (`Expr.placed_block_last`).
-/

namespace LetPoly.Expr

/-- **The expression is well placed**: it is not a definition, and all definitions inside
it stand where they may. -/
def Placed (e : Expr) : Prop := e.place false = .ok ()

theorem then_eq_ok {x y : Except Misplacement Unit} :
    (x >>= fun _ => y) = .ok () ↔ x = .ok () ∧ y = .ok () := by
  cases x with
  | error m => simp [bind, Except.bind]
  | ok u => simp [bind, Except.bind]

/-- Whether a definition may stand somewhere matters to definitions only. -/
theorem place_of_not_definition {e : Expr} (he : e.isDefinition = false) (statement : Bool) :
    e.place statement = e.place false := by
  cases e with
  | define => cases he
  | _ => rfl

theorem not_placed_define {k : Binder} {p : Pat} {a : Option Ty} {v : Expr} :
    ¬(define k p a v).Placed := by
  intro h
  cases h

theorem Placed.not_definition {e : Expr} (h : e.Placed) : e.isDefinition = false := by
  cases e with
  | define => exact absurd h not_placed_define
  | _ => rfl

/-- The whole tree may be a definition; a tree that is none is valid where it is well
placed. -/
theorem validate_eq_ok {e : Expr} (he : e.isDefinition = false) :
    e.validate = .ok () ↔ e.Placed := by
  rw [validate, place_of_not_definition he, Placed]

theorem placed_binary {op : Op} {l r : Expr} :
    (binary op l r).Placed ↔ l.Placed ∧ r.Placed := then_eq_ok

theorem placed_cons {u t : Expr} : (cons u t).Placed ↔ u.Placed ∧ t.Placed := then_eq_ok

theorem placed_cond {c y n : Expr} : (cond c y n).Placed ↔ c.Placed ∧ y.Placed ∧ n.Placed :=
  then_eq_ok.trans (and_congr_right' then_eq_ok)

theorem placed_lambda {p : Pat} {a : Option Ty} {b : Expr} :
    (lambda p a b).Placed ↔ b.Placed := Iff.rfl

theorem placed_app {f a : Expr} : (app f a).Placed ↔ f.Placed ∧ a.Placed := then_eq_ok

theorem placed_select {v : Expr} {arms : List (Pat × Expr)} :
    (select v arms).Placed ↔ v.Placed ∧ ∀ arm ∈ arms, arm.2.Placed := by
  have harms : placeArms arms = .ok () ↔ ∀ arm ∈ arms, arm.2.Placed := by
    induction arms with
    | nil => exact iff_of_true rfl (by simp)
    | cons arm arms ih =>
      rw [List.forall_mem_cons]
      exact then_eq_ok.trans (and_congr_right' ih)
  exact then_eq_ok.trans (and_congr_right' harms)

/-! ## Blocks -/

/-- The statement of a block is well placed; it may be a definition. -/
theorem place_true_eq_ok {e : Expr} :
    e.place true = .ok () ↔ e.Placed ∨ ∃ k p a v, e = .define k p a v ∧ v.Placed := by
  cases he : e.isDefinition with
  | true =>
    obtain ⟨k, p, a, v, rfl⟩ := isDefinition_iff.1 he
    have hplace : (define k p a v).place true = v.place false := rfl
    rw [hplace, or_iff_right not_placed_define]
    constructor
    · exact fun h => ⟨k, p, a, v, rfl, h⟩
    · rintro ⟨_, _, _, _, heq, h⟩
      cases heq
      exact h
  | false =>
    rw [place_of_not_definition he, Placed, or_iff_left]
    rintro ⟨_, _, _, _, rfl, -⟩
    cases he

theorem placeStmts_eq_ok {ss : List Expr} :
    placeStmts ss = .ok () ↔ ∀ s ∈ ss, s.place true = .ok () := by
  induction ss with
  | nil => exact iff_of_true rfl (by simp)
  | cons s ss ih =>
    rw [List.forall_mem_cons]
    exact then_eq_ok.trans (and_congr_right' ih)

theorem placed_block {ss : List Expr} :
    (block ss).Placed ↔ (∃ last, ss.getLast? = some last ∧ last.isDefinition = false) ∧
      ∀ s ∈ ss, s.place true = .ok () := by
  rw [Placed, place, ← placeStmts_eq_ok]
  cases ss.getLast? with
  | none => simp [throw, throwThe, MonadExceptOf.throw, bind, Except.bind]
  | some last =>
    cases hlast : last.isDefinition with
    | true => simp [hlast, throw, throwThe, MonadExceptOf.throw, bind, Except.bind]
    | false => simp [hlast]

theorem not_placed_block_nil : ¬(block []).Placed := by
  intro h
  cases h

theorem placed_block_last {e : Expr} : (block [e]).Placed ↔ e.Placed := by
  rw [placed_block, List.forall_mem_singleton]
  constructor
  · rintro ⟨⟨last, hlast, hdef⟩, h⟩
    obtain rfl : e = last := Option.some.inj hlast
    rwa [place_of_not_definition hdef] at h
  · intro h
    exact ⟨⟨e, rfl, h.not_definition⟩, place_true_eq_ok.2 (.inl h)⟩

theorem placed_block_cons {e s : Expr} {ss : List Expr} :
    (block (e :: s :: ss)).Placed ↔ e.place true = .ok () ∧ (block (s :: ss)).Placed := by
  rw [placed_block, placed_block, List.getLast?_cons_cons, List.forall_mem_cons]
  exact and_left_comm

theorem placed_block_define {k : Binder} {p : Pat} {a : Option Ty} {v s : Expr}
    {ss : List Expr} :
    (block (define k p a v :: s :: ss)).Placed ↔ v.Placed ∧ (block (s :: ss)).Placed := by
  have hplace : (define k p a v).place true = v.place false := rfl
  rw [placed_block_cons, hplace]
  rfl

theorem placed_block_stmt {e s : Expr} {ss : List Expr} (he : e.isDefinition = false) :
    (block (e :: s :: ss)).Placed ↔ e.Placed ∧ (block (s :: ss)).Placed := by
  rw [placed_block_cons, place_of_not_definition he]
  rfl

end LetPoly.Expr
