import LetPoly.Infer.Supply
import LetPoly.Infer.TypeEnv
import LetPoly.Ty.Unify

/-! # Constraints of an expression

Every expression is given a type and the equations that must hold for it to have
that type.  Identifiers are instances of their schemes; the definitions of a block
are generalised one after the other, each within the environment of those before
it.  A statement of a block that is not a definition must have a type, but its
equations are not asked to hold.

The order in which variables are taken and equations are listed is fixed: an
expression's parts from left to right, then the expression itself.
-/

namespace LetPoly

namespace Infer

/-- A step worth telling. -/
inductive Event where
  | generalized (equations solved : Nat) (free : List String) (scheme : Ty)
  | inferred (equations solved : Nat)
  | defined (pat : Pat) (scheme : Ty)
deriving DecidableEq, Repr

/-- How a trace tells a step. -/
def Event.message : Event → String
  | .generalized equations solved free scheme =>
    "generalize: " ++ Text.Decimal.natural equations ++ " equations, " ++
      Text.Decimal.natural solved ++ " solved, free [" ++ " ".intercalate free ++ "]: " ++
      scheme.text
  | .inferred equations solved =>
    "infer: " ++ Text.Decimal.natural equations ++ " equations, " ++
      Text.Decimal.natural solved ++ " solved"
  | .defined p scheme => "define " ++ p.text ++ " : " ++ scheme.display

/-- A failure, with the expression to blame if it is not the one under inference
as a whole. -/
structure Complaint where
  error : TypeError
  culprit : Option Expr := none

/-- What inference carries along. -/
structure State where
  supply : Supply
  /-- The steps told so far. -/
  log : List Event := []

end Infer

/-- A computation that takes fresh variables and may fail. -/
abbrev Infer := ExceptT Infer.Complaint (StateM Infer.State)

namespace Infer

/-- Fails, to the blame of the whole. -/
def fail {α : Type} (error : TypeError) : Infer α := throw { error }

/-- Fails, to the blame of an expression. -/
def blame {α : Type} (culprit : Expr) (error : TypeError) : Infer α :=
  throw { error, culprit := some culprit }

/-- Puts the blame of a failure on an expression, unless it lies on another one. -/
def blaming {α : Type} (culprit : Expr) (x : Infer α) : Infer α :=
  tryCatch x fun c => throw { c with culprit := c.culprit <|> some culprit }

/-- Takes the name of a fresh variable. -/
def freshName : Infer String :=
  modifyGet fun st => (st.supply.fresh.1, { st with supply := st.supply.fresh.2 })

/-- Takes a fresh variable. -/
def fresh : Infer Ty := return .var (← freshName)

/-- Takes the names of several fresh variables. -/
def freshNames (n : Nat) : Infer (List String) :=
  modifyGet fun st => ((st.supply.freshList n).1, { st with supply := (st.supply.freshList n).2 })

/-- Tells a step. -/
def tell (e : Event) : Infer Unit := modify fun st => { st with log := st.log ++ [e] }

/-- The solution of equations. -/
def solve (eqs : List Equation) : Infer Solution :=
  match unify eqs with
  | .ok s => return s
  | .error e => fail e

end Infer

theorem Ty.size_subst_var {σ : Ty.Subst} (h : ∀ p ∈ σ, ∃ y, p.2 = .var y) (t : Ty) :
    (t.subst σ).size = t.size := by
  induction t generalizing σ with
  | const | missing => rfl
  | var x =>
    simp only [subst]
    cases hx : σ.lookup x with
    | none => rfl
    | some u =>
      obtain ⟨_, _, hl, _⟩ := List.lookup_eq_some_iff.1 hx
      obtain ⟨y, hy⟩ := h (x, u) (by simp [hl])
      simp only [Option.getD_some]
      rw [show u = .var y from hy]
      rfl
  | arrow a r iha ihr => simp [subst, size, iha h, ihr h]
  | app f a ihf iha => simp [subst, size, ihf h, iha h]
  | poly b t ih =>
    simp only [subst, size, ih fun p hp => h p (List.mem_filter.1 hp).1]
  | list t ih => simp [subst, size, ih h]

theorem Ty.size_rename (t : Ty) (x y : String) : (t.rename x y).size = t.size :=
  t.size_subst_var (by simp)

namespace Infer

/-- **An instance of a scheme**: its leading variables are replaced by fresh ones,
starting with the outermost. -/
def instantiate : Ty → Infer Ty
  | .poly b t => do
    let x ← freshName
    instantiate (t.rename b x)
  | t => return t
termination_by t => t.size
decreasing_by rw [Ty.size_rename, Ty.size]; omega

/-- **The scheme of a type whose equations must hold**: the equations are solved,
and every variable of the resolved type that is not free in the resolved
environment is replaced by a fresh one and bound.  The first replacement is bound
innermost. -/
def generalize (eqs : List Equation) (env : TypeEnv) (t : Ty) : Infer Ty := do
  let s ← solve eqs
  let resolved := s.resolve t
  let kept := (env.map s.resolve).freeVars
  let free := resolved.freeVars.filter (· ∉ kept)
  let names ← freshNames free.length
  let body := resolved.subst (free.zip (names.map .var))
  let scheme := names.foldl (fun t x => .poly x t) body
  tell (.generalized eqs.length s.length free scheme)
  return scheme

/-- What a pattern asks of the values that it accepts, and the types of its names. -/
structure PatternType where
  type : Ty
  equations : List Equation := []
  bindings : TypeEnv := {}
deriving Repr

/-- The type of a pattern. -/
def pattern : Pat → Infer PatternType
  | .number _ => return { type := .int }
  | .string _ => return { type := .string }
  | .boolean _ => return { type := .bool }
  | .unit => return { type := .unit }
  | .wildcard => return { type := ← fresh }
  | .ident x => do
    let t ← fresh
    return { type := t, bindings := TypeEnv.set {} x t }
  | .nil => return { type := .list (← fresh) }
  | .cons h t => do
    let h ← pattern h
    let t ← pattern t
    return {
      type := .list h.type
      equations := h.equations ++ t.equations ++ [⟨.list h.type, t.type⟩]
      bindings := h.bindings.union t.bindings }
  | .missing => fail .emptyPattern

/-- The type of the operands of an operator, and that of its result. -/
def operation? (op : Op) : Option (Ty × Ty) :=
  if op.isArithmetic then some (.int, .int)
  else if op.isRelational then some (.int, .bool)
  else if op.isLogical then some (.bool, .bool)
  else none

/-- What a definition adds: the environment after it, the equations of its value
and its scheme. -/
structure Bound where
  env : TypeEnv
  equations : List Equation
  scheme : Ty

/-- A definition, given the constraints of its value. -/
def bindWith (env : TypeEnv) (d : Definition) (value : Infer (Ty × List Equation)) :
    Infer Bound := do
  match d.pat with
  | .cons .. | .nil => blame d.expr (.disallowed (.definedPattern d.pat))
  | _ =>
    let (t, eqs) ← value
    let ascribed ← match d.ascription with
      | some a => pure [⟨t, ← instantiate a⟩]
      | none => pure []
    let literal ← if d.pat.isLiteral then do
        let p ← pattern d.pat
        pure [⟨p.type, t⟩]
      else pure []
    let eqs := eqs ++ ascribed ++ literal
    let scheme ← blaming d.expr (generalize eqs env t)
    match d.pat with
    | .ident x => return { env := env.set x scheme, equations := eqs, scheme }
    | _ => return { env, equations := eqs, scheme }

mutual
/-- **The type of an expression and the equations that must hold for it.** -/
def generate (env : TypeEnv) : Expr → Infer (Ty × List Equation)
  | .number _ => return (.int, [])
  | .string _ => return (.string, [])
  | .boolean _ => return (.bool, [])
  | .unit => return (.unit, [])
  | .nil => return (.list (← fresh), [])
  | .ident x =>
    match env.get? x with
    | some scheme => return (← instantiate scheme, [])
    | none => blame (.ident x) (.unbound x)
  | .binary op l r => do
    let (lt, leqs) ← generate env l
    let (rt, reqs) ← generate env r
    match operation? op with
    | some (operand, result) =>
      return (result, leqs ++ reqs ++ [⟨lt, operand⟩, ⟨rt, operand⟩])
    | none => blame (.binary op l r) (.unknownOperator op)
  | .cons h t => do
    let (ht, heqs) ← generate env h
    let (tt, teqs) ← generate env t
    return (.list ht, heqs ++ teqs ++ [⟨tt, .list ht⟩])
  | .cond c y n => do
    let (ct, ceqs) ← generate env c
    let (yt, yeqs) ← generate env y
    let (nt, neqs) ← generate env n
    return (yt, ceqs ++ yeqs ++ neqs ++ [⟨ct, .bool⟩, ⟨yt, nt⟩])
  | .lambda p a b => do
    let pt ← blaming (.lambda p a b) (pattern p)
    let (bt, beqs) ← generate (pt.bindings.union env) b
    let ascribed ← match a with
      | some a => pure [⟨pt.type, ← instantiate a⟩]
      | none => pure []
    return (.arrow pt.type bt, pt.equations ++ beqs ++ ascribed)
  | .app f a => do
    let (ft, feqs) ← generate env f
    let (at_, aeqs) ← generate env a
    let result ← fresh
    return (result, feqs ++ aeqs ++ [⟨ft, .arrow at_ result⟩])
  | .block ss => generateBlock (.block ss) env ss
  | .select v arms => do
    let (vt, veqs) ← generate env v
    let result ← fresh
    let eqs ← generateArms (.select v arms) env vt result arms
    return (result, veqs ++ eqs)
  | .define k p a v => blame (.define k p a v) (.disallowed (.strayDefinition p))
  | .missing => fail .emptyExpression

/-- The statements of the block `whole`. -/
def generateBlock (whole : Expr) (env : TypeEnv) : List Expr → Infer (Ty × List Equation)
  | [] => blame whole (.disallowed .emptyBlock)
  | [.define _ p _ _] => blame whole (.disallowed (.endsInDefinition p))
  | [e] => generate env e
  | .define k p a v :: es => do
    let d ← bindWith env ⟨k, p, a, v⟩ (generate env v)
    let (t, eqs) ← generateBlock whole d.env es
    return (t, d.equations ++ eqs)
  | e :: es => do
    let _ ← generate env e
    generateBlock whole env es

/-- The cases of the match `whole`, whose value has the type `value`. -/
def generateArms (whole : Expr) (env : TypeEnv) (value result : Ty) :
    List (Pat × Expr) → Infer (List Equation)
  | [] => return []
  | (p, b) :: arms => do
    let pt ← blaming whole (pattern p)
    let (bt, beqs) ← generate (pt.bindings.union env) b
    let eqs ← generateArms whole env value result arms
    return pt.equations ++ beqs ++ [⟨pt.type, value⟩, ⟨bt, result⟩] ++ eqs
end

/-- **A definition**: its value's type is generalised within the environment. -/
def bind (env : TypeEnv) (d : Definition) : Infer Bound := bindWith env d (generate env d.value)

/-- **The type of an expression.** -/
def infer (env : TypeEnv) (e : Expr) : Infer Ty := do
  let (t, eqs) ← generate env e
  let s ← solve eqs
  tell (.inferred eqs.length s.length)
  return s.resolve t

/-- **The environment after a definition, and the scheme of what it defines.** -/
def define (env : TypeEnv) (d : Definition) : Infer (TypeEnv × Ty) := do
  let b ← bind env d
  let s ← solve b.equations
  let st ← get
  return ((b.env.map s.resolve).withNext st.supply.next, s.resolve b.scheme)

end Infer

end LetPoly
