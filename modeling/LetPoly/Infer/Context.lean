import LetPoly.Infer.Constraints

/-! # Inference contexts

A context is what inference keeps between calls: the supply of fresh variables,
the first failure with the expression to blame, and the steps that were told.
Inferring a type and making a definition start the supply afresh from the
environment they are given; the other operations go on from where it stands.
-/

namespace LetPoly

structure Context where
  supply : Supply := { next := 1 }
  /-- The failure of the last operations, if one failed. -/
  error : Option TypeError := none
  /-- The expression to blame for it. -/
  invalid : Option Expr := none
  /-- An operation has been started since the last reset. -/
  used : Bool := false
  /-- The steps told so far. -/
  log : List Infer.Event := []

namespace Context

/-- Forgets the failure. -/
def clear (ctx : Context) : Context :=
  { ctx with supply := ctx.supply.restart, error := none, invalid := none, used := false }

/-- Forgets the failure, if an operation has been started. -/
def reset (ctx : Context) : Context := if ctx.used then ctx.clear else ctx

/-- Tells a step. -/
def tell (ctx : Context) (e : Infer.Event) : Context := { ctx with log := ctx.log ++ [e] }

/-- Starts afresh: variables are taken from the number of the environment on, past
every number that names a variable in it. -/
def start (ctx : Context) (env : TypeEnv) : Context :=
  let supply := env.entries.foldl (fun s (_, t) => s.skipAll t.varNames)
    { next := env.nextNumber, count := 0 : Supply }
  { ctx.clear with supply, used := true }

/-- Goes on: variables are taken at least from the number of the environment on. -/
def resume (ctx : Context) (env : TypeEnv) : Context :=
  let next := if ctx.supply.next < env.nextNumber then env.nextNumber else ctx.supply.next
  { ctx with supply := { ctx.supply with next }, used := true }

/-- Keeps a failure, if it is the first. -/
def complain (ctx : Context) (whole : Expr) (c : Infer.Complaint) : Context :=
  match ctx.error with
  | some _ => ctx
  | none => { ctx with error := some c.error, invalid := some (c.culprit.getD whole) }

/-- Runs a computation, leaving its failure to the caller. -/
def run {α : Type} (ctx : Context) (x : Infer α) : Except Infer.Complaint α × Context :=
  let (result, st) := (ExceptT.run x).run { supply := ctx.supply, log := ctx.log }
  (result, { ctx with supply := st.supply, log := st.log })

/-- Runs a computation on an expression, keeping its failure. -/
def runOn {α : Type} (ctx : Context) (whole : Expr) (x : Infer α) : Except TypeError α × Context :=
  match ctx.run x with
  | (.ok a, ctx) => (.ok a, ctx)
  | (.error c, ctx) => (.error c.error, ctx.complain whole c)

/-- **The type of an expression in an environment.** -/
def infer (ctx : Context) (env : TypeEnv) (e : Expr) : Except TypeError Ty × Context :=
  match e with
  | .missing => (.error .emptyExpression, ctx)
  | e => (ctx.start env).runOn e (Infer.infer env e)

/-- **The environment after a definition, and the scheme of what it defines.** -/
def define (ctx : Context) (env : TypeEnv) :
    Option Definition → Except TypeError (TypeEnv × Ty) × Context
  | none => (.error .emptyDefinition, ctx)
  | some d => (ctx.start env).runOn d.expr (Infer.define env d)

/-- The type of an expression and its equations. -/
def generate (ctx : Context) (env : TypeEnv) (e : Expr) :
    Except TypeError (Ty × List Equation) × Context :=
  (ctx.resume env).runOn e (Infer.generate env e)

/-- A definition with the equations of its value. -/
def bind (ctx : Context) (env : TypeEnv) (d : Definition) : Except TypeError Infer.Bound × Context :=
  (ctx.resume env).runOn d.expr (Infer.bind env d)

/-- Runs a computation on no expression; its failure replaces an earlier one. -/
def runPlain {α : Type} (ctx : Context) (x : Infer α) : Except TypeError α × Context :=
  match ctx.run x with
  | (.ok a, ctx) => (.ok a, ctx)
  | (.error c, ctx) => (.error c.error, { ctx with error := some c.error })

/-- The type of a pattern. -/
def pattern (ctx : Context) (p : Pat) : Except TypeError Infer.PatternType × Context :=
  ctx.runPlain (Infer.pattern p)

/-- The scheme of a type whose equations must hold. -/
def generalize (ctx : Context) (env : TypeEnv) (eqs : List Equation) (t : Ty) :
    Except TypeError Ty × Context :=
  (ctx.resume env).runPlain (Infer.generalize eqs env t)

/-- An instance of a scheme. -/
def instantiate (ctx : Context) (t : Ty) : Except TypeError Ty × Context :=
  ctx.runPlain (Infer.instantiate t)

end Context

/-- The type of an expression in an environment, in a context of its own. -/
def typeOf (env : TypeEnv) (e : Expr) : Except TypeError Ty := (Context.infer {} env e).1

end LetPoly
