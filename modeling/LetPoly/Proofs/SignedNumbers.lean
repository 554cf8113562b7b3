import LetPoly.Proofs.Shape
import LetPoly.Value.Eval

/-! # The numbers of an expression

The language has no negative literals.  A negative number in a tree is a subtraction from zero
once it is **spelled out** (`Expr.spelledOut`), and has the same value (`eval_unsigned`).  Trees
that are the same once all their numbers are zero (`Expr.zeroed`) differ in their numbers only.
-/

namespace LetPoly

namespace Expr

/-! ## Other expressions in place of numbers -/

mutual
/-- The expression with another one in place of each number. -/
def mapNumbers (f : Int64 → Expr) : Expr → Expr
  | .number n => f n
  | .string s => .string s
  | .boolean b => .boolean b
  | .unit => .unit
  | .nil => .nil
  | .ident x => .ident x
  | .binary op l r => .binary op (l.mapNumbers f) (r.mapNumbers f)
  | .cons h t => .cons (h.mapNumbers f) (t.mapNumbers f)
  | .cond c y n => .cond (c.mapNumbers f) (y.mapNumbers f) (n.mapNumbers f)
  | .lambda p a b => .lambda p a (b.mapNumbers f)
  | .app g a => .app (g.mapNumbers f) (a.mapNumbers f)
  | .block ss => .block (mapNumbersStmts f ss)
  | .select v arms => .select (v.mapNumbers f) (mapNumbersArms f arms)
  | .define k p a v => .define k p a (v.mapNumbers f)
  | .missing => .missing

def mapNumbersStmts (f : Int64 → Expr) : List Expr → List Expr
  | [] => []
  | e :: es => e.mapNumbers f :: mapNumbersStmts f es

def mapNumbersArms (f : Int64 → Expr) : List (Pat × Expr) → List (Pat × Expr)
  | [] => []
  | (p, b) :: arms => (p, b.mapNumbers f) :: mapNumbersArms f arms
end

theorem mapNumbersStmts_eq (f : Int64 → Expr) (ss : List Expr) :
    mapNumbersStmts f ss = ss.map (mapNumbers f) := by
  induction ss with
  | nil => rfl
  | cons s ss ih => rw [mapNumbersStmts, ih, List.map_cons]

theorem mapNumbersArms_eq (f : Int64 → Expr) (arms : List (Pat × Expr)) :
    mapNumbersArms f arms = arms.map fun arm => (arm.1, arm.2.mapNumbers f) := by
  induction arms with
  | nil => rfl
  | cons arm arms ih => rw [mapNumbersArms, ih, List.map_cons]

theorem isDefinition_mapNumbers {f : Int64 → Expr} (hf : ∀ n, (f n).isDefinition = false)
    (e : Expr) : (e.mapNumbers f).isDefinition = e.isDefinition := by
  cases e with
  | number n => exact hf n
  | _ => rfl

/-- The expression with zeros in place of its numbers. -/
def zeroed (e : Expr) : Expr := e.mapNumbers fun _ => .number 0

theorem isDefinition_zeroed (e : Expr) : e.zeroed.isDefinition = e.isDefinition :=
  isDefinition_mapNumbers (fun _ => rfl) e

/-- A number without a sign: a negative one is its magnitude, subtracted from zero. -/
def unsigned (n : Int64) : Expr :=
  if n < 0 then .binary .minus (.number 0) (.number (.ofNat n.toInt.natAbs)) else .number n

/-- **The expression as it is spelled out**, with numbers without signs. -/
def spelledOut (e : Expr) : Expr := e.mapNumbers unsigned

theorem isDefinition_spelledOut (e : Expr) : e.spelledOut.isDefinition = e.isDefinition := by
  refine isDefinition_mapNumbers (fun n => ?_) e
  rw [unsigned]
  split <;> rfl

/-! ## All numbers -/

/-- The number that an expression is. -/
def number? : Expr → Option Int64
  | .number n => some n
  | _ => none

/-- The numbers in an expression. -/
def numbers (e : Expr) : List Int64 := e.walk.filterMap number?

theorem numbers_of_walk {e : Expr} {parts : List Expr} (h : e.walk = e :: parts)
    (hnone : e.number? = none) : e.numbers = parts.filterMap number? := by
  rw [numbers, h, List.filterMap_cons_none hnone]

@[simp] theorem numbers_number (n : Int64) : (number n).numbers = [n] := rfl

@[simp] theorem numbers_binary (op : Op) (l r : Expr) :
    (binary op l r).numbers = l.numbers ++ r.numbers :=
  (numbers_of_walk rfl rfl).trans List.filterMap_append

@[simp] theorem numbers_cons (h t : Expr) : (cons h t).numbers = h.numbers ++ t.numbers :=
  (numbers_of_walk rfl rfl).trans List.filterMap_append

@[simp] theorem numbers_cond (c y n : Expr) :
    (cond c y n).numbers = c.numbers ++ y.numbers ++ n.numbers := by
  rw [numbers_of_walk rfl rfl, List.filterMap_append, List.filterMap_append]
  rfl

@[simp] theorem numbers_app (f a : Expr) : (app f a).numbers = f.numbers ++ a.numbers :=
  (numbers_of_walk rfl rfl).trans List.filterMap_append

@[simp] theorem numbers_lambda (p : Pat) (a : Option Ty) (b : Expr) :
    (lambda p a b).numbers = b.numbers := rfl

@[simp] theorem numbers_define (k : Binder) (p : Pat) (a : Option Ty) (v : Expr) :
    (define k p a v).numbers = v.numbers := rfl

@[simp] theorem numbers_block (ss : List Expr) : (block ss).numbers = ss.flatMap numbers := by
  rw [numbers_of_walk rfl rfl]
  induction ss with
  | nil => rfl
  | cons s ss ih => rw [walkStmts, List.filterMap_append, ih, List.flatMap_cons, numbers]

@[simp] theorem numbers_select (v : Expr) (arms : List (Pat × Expr)) :
    (select v arms).numbers = v.numbers ++ arms.flatMap fun arm => arm.2.numbers := by
  rw [numbers_of_walk rfl rfl, List.filterMap_append]
  refine congrArg (v.numbers ++ ·) ?_
  induction arms with
  | nil => rfl
  | cons arm arms ih => rw [walkArms, List.filterMap_append, ih, List.flatMap_cons, numbers]

/-- Without negative numbers nothing is to be spelled out. -/
theorem spelledOut_eq_self {e : Expr} (h : ∀ m ∈ e.numbers, 0 ≤ m.toInt) : e.spelledOut = e := by
  induction e using Expr.induction with
  | number n =>
    have hneg : ¬n < 0 := by
      rw [Int64.lt_iff_toInt_lt]
      exact Int.not_lt.2 (h n (by simp))
    exact if_neg hneg
  | string | boolean | unit | nil | ident | missing => rfl
  | lambda p a b ih => exact congrArg (lambda p a) (ih h)
  | define k p a v ih => exact congrArg (define k p a) (ih h)
  | binary op l r ihl ihr =>
    rw [numbers_binary, List.forall_mem_append] at h
    show binary op l.spelledOut r.spelledOut = _
    rw [ihl h.1, ihr h.2]
  | cons l r ihl ihr =>
    rw [numbers_cons, List.forall_mem_append] at h
    show cons l.spelledOut r.spelledOut = _
    rw [ihl h.1, ihr h.2]
  | app f a ihf iha =>
    rw [numbers_app, List.forall_mem_append] at h
    show app f.spelledOut a.spelledOut = _
    rw [ihf h.1, iha h.2]
  | cond c y n ihc ihy ihn =>
    rw [numbers_cond, List.forall_mem_append, List.forall_mem_append] at h
    show cond c.spelledOut y.spelledOut n.spelledOut = _
    rw [ihc h.1.1, ihy h.1.2, ihn h.2]
  | block ss ih _ =>
    simp only [numbers_block, List.mem_flatMap, forall_exists_index, and_imp] at h
    have hss : ss.map spelledOut = ss.map id :=
      List.map_congr_left fun s hs => ih s hs fun m hm => h m s hs hm
    rw [List.map_id] at hss
    rw [spelledOut, mapNumbers, mapNumbersStmts_eq]
    exact congrArg block hss
  | select v arms ihv ih =>
    simp only [numbers_select, List.mem_append, List.mem_flatMap] at h
    have harms : (arms.map fun arm => (arm.1, arm.2.spelledOut)) = arms.map id := by
      refine List.map_congr_left fun arm harm => ?_
      rw [ih arm harm fun m hm => h m (.inr ⟨arm, harm, hm⟩)]
      rfl
    rw [List.map_id] at harms
    rw [spelledOut, mapNumbers, mapNumbersArms_eq]
    exact congr (congrArg select (ihv fun m hm => h m (.inl hm))) harms

end Expr

/-- **A number has the same value without its sign.** -/
theorem Value.eval_unsigned (bound : Nat) (ρ : Env) (n : Int64) :
    eval (bound + 2) ρ (Expr.unsigned n) = .ok (.int n) := by
  rw [Expr.unsigned]
  split
  · next hneg =>
    rw [Int64.lt_iff_toInt_lt, Int64.toInt_zero] at hneg
    have hmagnitude : Int64.ofNat n.toInt.natAbs = -n := by
      rw [← Int64.ofInt_eq_ofNat, Int.ofNat_natAbs_of_nonpos (Int.le_of_lt hneg), Int64.ofInt_neg,
        Int64.ofInt_toInt]
    have hdifference : (0 : Int64) - -n = n := by simp
    rw [hmagnitude]
    exact congrArg (fun k => Except.ok (int k)) hdifference
  · rfl

end LetPoly
