import LetPoly.Proofs.Instantiation
import LetPoly.Proofs.Irrelevance

/-! # The numbering of variables

Inference does not depend on the number from which variables are taken.  Two runs on one
expression, in one environment but for that number, take equally many variables; a permutation
of names carries those of the first run to those of the second, one by one, and moves nothing
else (`Renumbering`).  Every step of the second run is then the step of the first under other names
(`Renumbering.Mirrors`): variables are taken in step, and unification, instantiation and
generalisation commute with permutations.  This is so for failures as well, and for schemes
of any form, whether or not a binder captures a variable.

What is needed is that the permutation leaves the environment and the ascriptions as they are
(`Context.infer_renumbered`): the numbers that are taken name nothing in them.  Names that are
used in a scheme are passed over before inference starts; names that are only bound are not, so
the two numbers must be past them.
-/

namespace LetPoly
open Text.Decimal

/-- **Another numbering**: the variables that one supply hands out are carried, one by one, to
those that another one hands out. -/
structure Renumbering where
  perm : Equiv.Perm String
  left : Supply
  right : Supply
  /-- How many variables are carried over. -/
  size : Nat
  carries : ∀ i < size, perm (word (left.advance i).next) = word (right.advance i).next

namespace Infer

/-- Renames the variables of what is complained of. -/
def Complaint.permute (π : Equiv.Perm String) (c : Complaint) : Complaint :=
  { c with error := c.error.permute π }

theorem literal_permute (π : Equiv.Perm String) (p : Pat) (t : Ty) :
    literal p (t.permute π) = (literal p t).map (Equation.permute π) := by
  cases p <;> rfl

end Infer

namespace Renumbering
open Infer
variable {α β γ δ : Type} (w : Renumbering)

/-- The numbering back. -/
def symm : Renumbering where
  perm := w.perm.symm
  left := w.right
  right := w.left
  size := w.size
  carries i hi := by rw [← w.carries i hi, Equiv.symm_apply_apply]

theorem map_freshList {j n : Nat} (h : j + n ≤ w.size) :
    ((w.left.advance j).freshList n).1.map w.perm = ((w.right.advance j).freshList n).1 := by
  rw [Supply.freshList_fst, Supply.freshList_fst, List.map_map]
  refine List.map_congr_left fun i hi => ?_
  have hi := List.mem_range.1 hi
  rw [Function.comp_apply, Supply.advance_advance, Supply.advance_advance, w.carries _ (by omega)]

/-! ## Two runs in step -/

/-- The two runs have taken equally many variables. -/
def Abreast (st st' : State) : Prop :=
  ∃ j, st.supply = w.left.advance j ∧ st'.supply = w.right.advance j

/-- The result of the second run, given that of the first. -/
def result (f : α → β) (r : Except Complaint α) : Except Complaint β :=
  (r.map f).mapError (Complaint.permute w.perm)

/-- **The second computation is the first under the other numbering**, as long as the first
takes no more variables than are carried over. -/
structure Mirrors (f : α → β) (x : Infer α) (y : Infer β) : Prop where
  steady : Steady x
  follows : ∀ {st st'}, w.Abreast st st' →
    (x.run.run st).2.supply.count ≤ w.left.count + w.size →
      (y.run.run st').1 = w.result f (x.run.run st).1 ∧
        w.Abreast (x.run.run st).2 (y.run.run st').2

variable {w}

theorem mirrors_pure {f : α → β} {a : α} {b : β} (h : b = f a) :
    w.Mirrors f (pure a) (pure b) where
  steady := steady_pure a
  follows hst _ := ⟨congrArg Except.ok h, hst⟩

theorem mirrors_fail (f : α → β) (e : TypeError) :
    w.Mirrors f (fail e) (fail (e.permute w.perm)) where
  steady := steady_fail e
  follows hst _ := ⟨rfl, hst⟩

theorem mirrors_blame (f : α → β) (c : Expr) (e : TypeError) :
    w.Mirrors f (blame c e) (blame c (e.permute w.perm)) where
  steady := steady_blame c e
  follows hst _ := ⟨rfl, hst⟩

/-- What the two runs tell may differ. -/
theorem mirrors_tell (e e' : Event) : w.Mirrors id (tell e) (tell e') where
  steady := steady_tell e
  follows hst _ := ⟨rfl, hst⟩

theorem mirrors_freshNames (n : Nat) :
    w.Mirrors (List.map w.perm) (freshNames n) (freshNames n) where
  steady := steady_freshNames n
  follows := by
    rintro st st' ⟨j, hst, hst'⟩ hsize
    have hnext : (st.supply.freshList n).2 = w.left.advance (j + n) := by
      rw [Supply.freshList_snd, hst, Supply.advance_advance]
    have hnext' : (st'.supply.freshList n).2 = w.right.advance (j + n) := by
      rw [Supply.freshList_snd, hst', Supply.advance_advance]
    have hroom : j + n ≤ w.size := by
      have hcount : (st.supply.freshList n).2.count ≤ w.left.count + w.size := hsize
      rw [hnext] at hcount
      exact Nat.le_of_add_le_add_left hcount
    refine ⟨congrArg Except.ok ?_, j + n, hnext, hnext'⟩
    show (st'.supply.freshList n).1 = (st.supply.freshList n).1.map w.perm
    rw [hst, hst', w.map_freshList hroom]

theorem mirrors_freshName : w.Mirrors w.perm freshName freshName where
  steady := steady_freshName
  follows := by
    rintro st st' ⟨j, hst, hst'⟩ hsize
    have hroom : j < w.size := by
      have hcount : (st.supply.advance 1).count ≤ w.left.count + w.size := hsize
      rw [hst, Supply.advance_advance] at hcount
      exact Nat.le_of_add_le_add_left hcount
    refine ⟨congrArg Except.ok ?_, j + 1, ?_, ?_⟩
    · show word st'.supply.next = w.perm (word st.supply.next)
      rw [hst, hst', w.carries j hroom]
    · show st.supply.advance 1 = _
      rw [hst, Supply.advance_advance]
    · show st'.supply.advance 1 = _
      rw [hst', Supply.advance_advance]

theorem mirrors_solve (E : List Equation) :
    w.Mirrors (Solution.permute w.perm) (solve E) (solve (E.map (Equation.permute w.perm))) where
  steady := steady_solve E
  follows := by
    intro st st' hst _
    rw [solve, solve, unify_renamed]
    cases unify E with
    | ok s => exact ⟨rfl, hst⟩
    | error e => exact ⟨rfl, hst⟩

theorem Mirrors.blaming {f : α → β} {x : Infer α} {y : Infer β} (h : w.Mirrors f x y)
    (c : Expr) : w.Mirrors f (Infer.blaming c x) (Infer.blaming c y) where
  steady := h.steady.blaming c
  follows := by
    intro st st' hst hsize
    rw [run_blaming] at hsize ⊢
    rw [run_blaming]
    have hfollows := h.follows hst
    generalize x.run.run st = r at hsize hfollows ⊢
    generalize y.run.run st' = r' at hfollows ⊢
    rcases r with ⟨d | a, s⟩ <;> rcases r' with ⟨r', s'⟩ <;>
      obtain ⟨hresult, habreast⟩ := hfollows hsize
    · obtain rfl : r' = .error (d.permute w.perm) := hresult
      exact ⟨rfl, habreast⟩
    · obtain rfl : r' = .ok (f a) := hresult
      exact ⟨rfl, habreast⟩

/-- One computation after another: numbers only grow, so the first one takes no more
variables than both. -/
theorem Mirrors.bind {f : α → β} {g : γ → δ} {x : Infer α} {y : Infer β} {k : α → Infer γ}
    {l : β → Infer δ} (h : w.Mirrors f x y) (hk : ∀ a, w.Mirrors g (k a) (l (f a))) :
    w.Mirrors g (x >>= k) (y >>= l) where
  steady := h.steady.bind fun a => (hk a).steady
  follows := by
    intro st st' hst hsize
    rw [run_bind] at hsize ⊢
    rw [run_bind]
    have hfollows := h.follows hst
    generalize x.run.run st = r at hsize hfollows ⊢
    generalize y.run.run st' = r' at hfollows ⊢
    rcases r with ⟨c | a, s⟩ <;> rcases r' with ⟨r', s'⟩
    · obtain ⟨hresult, habreast⟩ := hfollows hsize
      obtain rfl : r' = .error (c.permute w.perm) := hresult
      exact ⟨rfl, habreast⟩
    · have hgrows : s.supply.count ≤ ((k a).run.run s).2.supply.count := by
        obtain ⟨i, hi⟩ := (hk a).steady s
        have hi : ((k a).run.run s).2.supply = s.supply.advance i := hi
        rw [hi]
        exact Nat.le_add_right _ _
      obtain ⟨hresult, habreast⟩ := hfollows (Nat.le_trans hgrows hsize)
      obtain rfl : r' = .ok (f a) := hresult
      exact (hk a).follows habreast hsize

/-! ## Schemes -/

theorem mirrors_fresh : w.Mirrors (Ty.permute w.perm) fresh fresh :=
  mirrors_freshName.bind fun _ => mirrors_pure rfl

theorem mirrors_instantiate (σ : Ty) :
    w.Mirrors (Ty.permute w.perm) (instantiate σ) (instantiate (σ.permute w.perm)) := by
  induction σ using instantiate.induct with
  | case1 b t ih =>
    have hrename (x : String) :
        (t.permute w.perm).rename (w.perm b) (w.perm x) = (t.rename b x).permute w.perm :=
      Ty.subst_permute w.perm [(b, .var x)] t
    rw [Ty.permute, instantiate_poly, instantiate_poly]
    refine mirrors_freshName.bind fun x => ?_
    rw [hrename]
    exact ih x
  | case2 t h =>
    rw [instantiate.eq_2 t h, instantiate.eq_2 _ fun b u hu => h _ _ (Ty.eq_permute_symm hu)]
    exact mirrors_pure rfl

/-- The environments of the two runs: which number they say is next does not matter. -/
def Envs (w : Renumbering) (env env' : TypeEnv) : Prop :=
  env'.bindings = env.bindings.map fun p => (p.1, p.2.permute w.perm)

variable {env env' : TypeEnv}

theorem Envs.get? (h : w.Envs env env') (x : String) :
    env'.get? x = (env.get? x).map (Ty.permute w.perm) := by
  rw [TypeEnv.get?, TypeEnv.get?, h]
  induction env.bindings with
  | nil => rfl
  | cons p ps ih =>
    rw [List.map_cons, List.lookup_cons, List.lookup_cons, ih]
    cases x == p.1 <;> rfl

theorem Envs.set (h : w.Envs env env') (x : String) (σ : Ty) :
    w.Envs (env.set x σ) (env'.set x (σ.permute w.perm)) := by
  rw [Envs, TypeEnv.set, TypeEnv.set, h, List.map_cons]

theorem Envs.assume (h : w.Envs env env') (p : Pat) (σ : Ty) :
    w.Envs (assume env p σ) (assume env' p (σ.permute w.perm)) := by
  cases p with
  | ident x => exact h.set x σ
  | _ => exact h

/-- The same variables are generalised. -/
theorem Envs.generalized (h : w.Envs env env') (s : Solution) (t : Ty) :
    Infer.generalized (s.permute w.perm) env' (t.permute w.perm) =
      (Infer.generalized s env t).map w.perm := by
  have hbindings : env'.bindings = _ := h
  have hkept (x : String) : w.perm x ∈ (env'.map (s.permute w.perm).resolve).freeVars ↔
      x ∈ (env.map s.resolve).freeVars := by
    simp only [TypeEnv.mem_freeVars_map, hbindings, List.mem_map, exists_exists_and_eq_and,
      Solution.resolve_permute, Ty.freeOccurrences_permute, EmbeddingLike.apply_eq_iff_eq,
      exists_eq_right]
  rw [Infer.generalized, Infer.generalized, Solution.resolve_permute, Ty.freeVars_permute,
    List.filter_map]
  refine congrArg _ (List.filter_congr fun x _ => ?_)
  simp only [Function.comp_apply, hkept]

theorem mirrors_generalize (h : w.Envs env env') (E : List Equation) (t : Ty) :
    w.Mirrors (Ty.permute w.perm) (generalize E env t)
      (generalize (E.map (Equation.permute w.perm)) env' (t.permute w.perm)) := by
  rw [generalize_eq, generalize_eq]
  refine (mirrors_solve E).bind fun s => ?_
  simp only [h.generalized, List.length_map]
  refine (mirrors_freshNames _).bind fun names => ?_
  refine (mirrors_tell _ _).bind fun _ => mirrors_pure ?_
  rw [Ty.bindAll_permute, ← Ty.subst_permute, Solution.permute_zip_var, Solution.resolve_permute,
    List.map_reverse]

/-! ## Patterns and ascriptions -/

/-- A pattern's type under the other numbering. -/
def pattern (w : Renumbering) (pt : PatternType) : PatternType where
  type := pt.type.permute w.perm
  equations := pt.equations.map (Equation.permute w.perm)
  bindings :=
    { pt.bindings with
      bindings := pt.bindings.bindings.map fun p => (p.1, p.2.permute w.perm) }

theorem Envs.union (h : w.Envs env env') (pt : PatternType) :
    w.Envs (pt.bindings.union env) ((w.pattern pt).bindings.union env') := by
  rw [Envs, TypeEnv.union, TypeEnv.union, h, List.map_append]
  rfl

theorem mirrors_pattern (p : Pat) : w.Mirrors w.pattern (Infer.pattern p) (Infer.pattern p) := by
  induction p with
  | number | string | boolean | unit => exact mirrors_pure rfl
  | wildcard | ident | nil => exact mirrors_fresh.bind fun _ => mirrors_pure rfl
  | cons p q ihp ihq =>
    refine ihp.bind fun pt => ihq.bind fun qt => mirrors_pure ?_
    simp only [pattern, TypeEnv.union, List.map_append]
    rfl
  | missing => exact mirrors_fail _ .emptyPattern

/-- The permutation leaves a type as it is. -/
def Fixes (w : Renumbering) (t : Ty) : Prop := t.permute w.perm = t

theorem Fixes.symm {t : Ty} (h : w.Fixes t) : w.symm.Fixes t := (Ty.eq_permute_symm h).symm

theorem envs_of_fixes (h : ∀ p ∈ env.bindings, w.Fixes p.2) (k k' : Int64) :
    w.Envs (env.withNext k) (env.withNext k') := by
  have hid : ∀ p ∈ env.bindings, (p.1, p.2.permute w.perm) = p := fun p hp => by rw [h p hp]
  exact ((List.map_congr_left hid).trans (List.map_id' _)).symm

theorem mirrors_ascribe {a : Option Ty} (ha : ∀ u ∈ a.toList, w.Fixes u) (t : Ty) :
    w.Mirrors (List.map (Equation.permute w.perm)) (ascribe t a)
      (ascribe (t.permute w.perm) a) := by
  cases a with
  | none => exact mirrors_pure rfl
  | some a =>
    have hinstance := w.mirrors_instantiate a
    rw [ha a (by simp)] at hinstance
    exact hinstance.bind fun _ => mirrors_pure rfl

/-! ## Expressions -/

/-- A type and its equations under the other numbering. -/
def both (w : Renumbering) (r : Ty × List Equation) : Ty × List Equation :=
  (r.1.permute w.perm, r.2.map (Equation.permute w.perm))

/-- **The constraints of the expression are mirrored**, in whatever environments. -/
def MirrorsRuns (w : Renumbering) (e : Expr) : Prop :=
  ∀ ⦃env env' : TypeEnv⦄, w.Envs env env' → e.Ascribes w.Fixes →
    w.Mirrors w.both (generate env e) (generate env' e)

theorem mirrors_ident (x : String) : w.MirrorsRuns (.ident x) := by
  intro env env' henv _
  rw [generate_ident, generate_ident, henv.get?]
  cases env.get? x with
  | some σ => exact (mirrors_instantiate σ).bind fun _ => mirrors_pure rfl
  | none => exact mirrors_blame _ _ (.unbound x)

theorem mirrors_binary {op : Op} {l r : Expr} (ihl : w.MirrorsRuns l) (ihr : w.MirrorsRuns r) :
    w.MirrorsRuns (.binary op l r) := by
  intro env env' henv he
  obtain ⟨-, hl, hr⟩ := Expr.everywhere_binary.1 he
  rw [generate_binary, generate_binary]
  refine (ihl henv hl).bind fun (lt, leqs) => (ihr henv hr).bind fun (rt, reqs) => ?_
  cases hop : operation? op with
  | none => exact mirrors_blame _ _ (.unknownOperator op)
  | some types =>
    obtain ⟨operand, result⟩ := types
    have hconst : operand.permute w.perm = operand ∧ result.permute w.perm = result := by
      rcases operation?_eq_some.1 hop with ⟨-, rfl, rfl⟩ | ⟨-, rfl, rfl⟩ | ⟨-, rfl, rfl⟩ <;>
        exact ⟨rfl, rfl⟩
    refine mirrors_pure ?_
    simp [both, Equation.permute, hconst]

theorem mirrors_cons {u v : Expr} (ihu : w.MirrorsRuns u) (ihv : w.MirrorsRuns v) :
    w.MirrorsRuns (.cons u v) := by
  intro env env' henv he
  obtain ⟨-, hu, hv⟩ := Expr.everywhere_cons.1 he
  rw [generate_cons, generate_cons]
  refine (ihu henv hu).bind fun _ => (ihv henv hv).bind fun _ => mirrors_pure ?_
  simp [both, Equation.permute]

theorem mirrors_cond {c y n : Expr} (ihc : w.MirrorsRuns c) (ihy : w.MirrorsRuns y)
    (ihn : w.MirrorsRuns n) : w.MirrorsRuns (.cond c y n) := by
  intro env env' henv he
  obtain ⟨-, hc, hy, hn⟩ := Expr.everywhere_cond.1 he
  rw [generate_cond, generate_cond]
  refine (ihc henv hc).bind fun _ => (ihy henv hy).bind fun _ => (ihn henv hn).bind fun _ =>
    mirrors_pure ?_
  simp [both, Equation.permute, Ty.bool]

theorem mirrors_lambda {p : Pat} {a : Option Ty} {b : Expr} (ihb : w.MirrorsRuns b) :
    w.MirrorsRuns (.lambda p a b) := by
  intro env env' henv he
  obtain ⟨ha, hb⟩ := Expr.everywhere_lambda.1 he
  rw [generate_lambda, generate_lambda]
  refine ((mirrors_pattern p).blaming _).bind fun pt => (ihb (henv.union pt) hb).bind fun _ =>
    (mirrors_ascribe ha _).bind fun _ => mirrors_pure ?_
  simp [both, pattern]

theorem mirrors_app {f a : Expr} (ihf : w.MirrorsRuns f) (iha : w.MirrorsRuns a) :
    w.MirrorsRuns (.app f a) := by
  intro env env' henv he
  obtain ⟨-, hf, ha⟩ := Expr.everywhere_app.1 he
  rw [generate_app, generate_app]
  refine (ihf henv hf).bind fun _ => (iha henv ha).bind fun _ => mirrors_fresh.bind fun _ =>
    mirrors_pure ?_
  simp [both, Equation.permute]

theorem mirrors_arms {arms : List (Pat × Expr)} (ih : ∀ arm ∈ arms, w.MirrorsRuns arm.2)
    (harms : ∀ arm ∈ arms, arm.2.Ascribes w.Fixes) (henv : w.Envs env env') (whole : Expr)
    (value result : Ty) : w.Mirrors (List.map (Equation.permute w.perm))
      (generateArms whole env value result arms)
      (generateArms whole env' (value.permute w.perm) (result.permute w.perm) arms) := by
  induction arms with
  | nil => exact mirrors_pure rfl
  | cons arm arms iharms =>
    have hrest := iharms (fun a ha => ih a (List.mem_cons_of_mem _ ha))
      fun a ha => harms a (List.mem_cons_of_mem _ ha)
    have hfirst (pt : PatternType) :=
      ih arm List.mem_cons_self (henv.union pt) (harms arm List.mem_cons_self)
    rw [generateArms_cons, generateArms_cons]
    refine ((mirrors_pattern _).blaming _).bind fun pt => (hfirst pt).bind fun _ =>
      hrest.bind fun _ => mirrors_pure ?_
    simp [pattern, Equation.permute]

theorem mirrors_select {v : Expr} {arms : List (Pat × Expr)} (ihv : w.MirrorsRuns v)
    (iharms : ∀ arm ∈ arms, w.MirrorsRuns arm.2) : w.MirrorsRuns (.select v arms) := by
  intro env env' henv he
  obtain ⟨-, hv, harms⟩ := Expr.everywhere_select.1 he
  rw [generate_select, generate_select]
  refine (ihv henv hv).bind fun _ => mirrors_fresh.bind fun result =>
    (mirrors_arms iharms harms henv _ _ result).bind fun _ => mirrors_pure ?_
  simp [both]

/-- A definition and what follows it.  The rest of the block sees the scheme of the
definition, which is mirrored as it was when the definition was generalised. -/
theorem mirrors_define {k : Binder} {p : Pat} {a : Option Ty} {v s : Expr} {ss : List Expr}
    (ihv : w.MirrorsRuns v) (he : (Expr.define k p a v).Ascribes w.Fixes) (henv : w.Envs env env')
    (whole : Expr) (hrest : ∀ {env env'}, w.Envs env env' →
      w.Mirrors w.both (generateBlock whole env (s :: ss)) (generateBlock whole env' (s :: ss))) :
    w.Mirrors w.both (generateBlock whole env (.define k p a v :: s :: ss))
      (generateBlock whole env' (.define k p a v :: s :: ss)) := by
  obtain ⟨ha, hv⟩ := Expr.everywhere_define.1 he
  rw [generateBlock_define, generateBlock_define]
  cases hp : p.isList with
  | true =>
    rw [bindWith_list env _ _ hp, bindWith_list env' _ _ hp]
    exact mirrors_blame _ _ (.disallowed (.definedPattern p))
  | false =>
    rw [bindWith_eq env _ _ hp, bindWith_eq env' _ _ hp, bind_assoc, bind_assoc]
    refine (ihv henv hv).bind fun (t, E) => ?_
    simp only [both, bind_assoc, pure_bind]
    refine (mirrors_ascribe ha t).bind fun A => ?_
    have hE : E.map (Equation.permute w.perm) ++ A.map (Equation.permute w.perm) ++
        literal p (t.permute w.perm) =
          (E ++ A ++ literal p t).map (Equation.permute w.perm) := by
      rw [literal_permute, List.map_append, List.map_append]
    rw [hE]
    refine ((mirrors_generalize henv _ t).blaming _).bind fun σ =>
      (hrest (henv.assume p σ)).bind fun _ => mirrors_pure ?_
    simp [both]

theorem mirrors_block {ss : List Expr} (ih : ∀ s ∈ ss, w.MirrorsRuns s)
    (ihd : ∀ k p a v, .define k p a v ∈ ss → w.MirrorsRuns v)
    (hss : ∀ s ∈ ss, s.Ascribes w.Fixes) (henv : w.Envs env env') (whole : Expr) :
    w.Mirrors w.both (generateBlock whole env ss) (generateBlock whole env' ss) := by
  induction ss generalizing env env' with
  | nil => exact mirrors_blame _ _ (.disallowed .emptyBlock)
  | cons s ss ihss =>
    have hs := hss s List.mem_cons_self
    have hrest {env env' : TypeEnv} (henv : w.Envs env env') :=
      ihss (fun e he => ih e (List.mem_cons_of_mem _ he))
        (fun k p a v he => ihd k p a v (List.mem_cons_of_mem _ he))
        (fun e he => hss e (List.mem_cons_of_mem _ he)) henv
    cases hdef : s.isDefinition with
    | true =>
      obtain ⟨k, p, a, v, rfl⟩ := Expr.isDefinition_iff.1 hdef
      cases ss with
      | nil => exact mirrors_blame _ _ (.disallowed (.endsInDefinition p))
      | cons s' ss =>
        exact mirrors_define (ihd k p a v List.mem_cons_self) hs henv whole hrest
    | false =>
      have hfirst := ih s List.mem_cons_self henv hs
      cases ss with
      | nil => rwa [generateBlock_last whole env hdef, generateBlock_last whole env' hdef]
      | cons s' ss =>
        rw [generateBlock_stmt whole env hdef, generateBlock_stmt whole env' hdef]
        exact hfirst.bind fun _ => hrest henv

theorem mirrorsRuns (w : Renumbering) (e : Expr) : w.MirrorsRuns e := by
  induction e using Expr.induction with
  | number | string | boolean | unit => exact fun _ _ _ _ => mirrors_pure rfl
  | nil => exact fun _ _ _ _ => mirrors_fresh.bind fun _ => mirrors_pure rfl
  | ident x => exact mirrors_ident x
  | binary op l r ihl ihr => exact mirrors_binary ihl ihr
  | cons u v ihu ihv => exact mirrors_cons ihu ihv
  | cond c y n ihc ihy ihn => exact mirrors_cond ihc ihy ihn
  | lambda p a b ihb => exact mirrors_lambda ihb
  | app f a ihf iha => exact mirrors_app ihf iha
  | block ss ih ihd =>
    exact fun _ _ henv he => mirrors_block ih ihd (Expr.everywhere_block.1 he).2 henv _
  | select v arms ihv iharms => exact mirrors_select ihv iharms
  | define k p a v => exact fun _ _ _ _ => mirrors_blame _ _ (.disallowed (.strayDefinition p))
  | missing => exact fun _ _ _ _ => mirrors_fail _ .emptyExpression

/-- **Inference takes the same steps under another numbering.** -/
theorem mirrors_infer {e : Expr} (henv : w.Envs env env') (he : e.Ascribes w.Fixes) :
    w.Mirrors (Ty.permute w.perm) (infer env e) (infer env' e) :=
  (w.mirrorsRuns e henv he).bind fun (t, E) => (mirrors_solve E).bind fun s =>
    (mirrors_tell _ _).bind fun _ => mirrors_pure (s.resolve_permute w.perm t)

end Renumbering

/-! ## Numbers that are taken -/

/-- There is another numbering for variables whose numbers do not run out, and it moves
nothing else. -/
theorem Renumbering.exists_of_room {s s' : Supply} {n : Nat} (hs : s.Room (n - 1))
    (hs' : s'.Room (n - 1)) : ∃ w : Renumbering, w.left = s ∧ w.right = s' ∧ w.size = n ∧
      ∀ x, x ∉ (s.freshList n).1 → x ∉ (s'.freshList n).1 → w.perm x = x := by
  have hlen : (s.freshList n).1.length = (s'.freshList n).1.length := by
    rw [Supply.length_freshList, Supply.length_freshList]
  obtain ⟨π, hkeeps, hmap⟩ := exists_perm_extend (Equiv.refl String)
    (P := fun z => z ∉ (s.freshList n).1 ∧ z ∉ (s'.freshList n).1) hlen
    (Supply.nodup_freshList_of_pred hs) (Supply.nodup_freshList_of_pred hs') fun _ hz => hz
  rw [Supply.freshList_fst, Supply.freshList_fst, List.map_map, List.map_inj_left] at hmap
  exact ⟨⟨π, s, s', n, fun i hi => hmap i (List.mem_range.2 hi)⟩, rfl, rfl, rfl,
    fun x hx hx' => hkeeps x ⟨hx, hx'⟩⟩

/-- After the last word all supplies go on alike. -/
theorem Supply.skipAll_eq_of_last {xs : List String} {x : String} (hx : x ∈ xs)
    (hlast : signed? x = some Int64.maxValue) (s s' : Supply) (hcount : s.count = s'.count) :
    s.skipAll xs = s'.skipAll xs := by
  induction xs generalizing s s' with
  | nil => cases hx
  | cons y ys ih =>
    show (s.skip y).skipAll ys = (s'.skip y).skipAll ys
    rcases List.mem_cons.1 hx with rfl | hx
    · have hle (r : Supply) : r.next ≤ Int64.maxValue := Int64.le_maxValue _
      rw [s.skip_some hlast, s'.skip_some hlast, if_pos (hle s), if_pos (hle s'), hcount]
    · exact ih hx _ _ ((s.count_skipAll [y]).trans (hcount.trans (s'.count_skipAll [y]).symm))

namespace Context

/-- The variables that inference takes. -/
def taken (ctx : Context) (env : TypeEnv) (e : Expr) : List String :=
  ((ctx.start env).supply.freshList (ctx.infer env e).2.supply.count).1

/-- **Numbers do not run out**: those that inference takes are below `2 ^ 63`. -/
def Unwrapped (ctx : Context) (env : TypeEnv) (e : Expr) : Prop :=
  (ctx.start env).supply.next.toInt + (ctx.infer env e).2.supply.count ≤ 2 ^ 63

theorem infer_run (ctx : Context) (env : TypeEnv) {e : Expr} (he : e ≠ .missing) :
    (ctx.infer env e).1 =
        ((Infer.infer env e).run.run (ctx.initial env)).1.mapError Infer.Complaint.error ∧
      (ctx.infer env e).2.supply = ((Infer.infer env e).run.run (ctx.initial env)).2.supply := by
  rw [ctx.infer_eq env he]
  exact (ctx.start env).runOn_run e _

/-- Inference that takes no more variables than are carried over. -/
theorem infer_mirrored {ctx ctx' : Context} {env env' : TypeEnv} {e : Expr} {w : Renumbering}
    (he : e ≠ .missing) (hleft : w.left = (ctx.start env).supply)
    (hright : w.right = (ctx'.start env').supply) (henv : w.Envs env env')
    (hfixes : e.Ascribes w.Fixes) (hsize : (ctx.infer env e).2.supply.count ≤ w.size) :
    (ctx'.infer env' e).1 = ((ctx.infer env e).1.map (Ty.permute w.perm)).mapError
        (TypeError.permute w.perm) ∧
      (ctx'.infer env' e).2.supply.count = (ctx.infer env e).2.supply.count := by
  have hstart : w.Abreast (ctx.initial env) (ctx'.initial env') := by
    refine ⟨0, ?_, ?_⟩
    · rw [Supply.advance_zero, hleft, initial]
    · rw [Supply.advance_zero, hright, initial]
  obtain ⟨hrun, hsupply⟩ := ctx.infer_run env he
  obtain ⟨hrun', hsupply'⟩ := ctx'.infer_run env' he
  have hcount : w.left.count = 0 := by rw [hleft, count_start]
  have hcount' : w.right.count = 0 := by rw [hright, count_start]
  rw [hsupply] at hsize ⊢
  obtain ⟨hresult, j, hj, hj'⟩ :=
    (Renumbering.mirrors_infer henv hfixes).follows hstart (by omega)
  refine ⟨?_, ?_⟩
  · rw [hrun', hresult, hrun]
    cases ((Infer.infer env e).run.run (ctx.initial env)).1 <;> rfl
  · rw [hsupply', hj, hj', Supply.advance, Supply.advance, hcount, hcount']

/-- What inference takes are numerals, and none of them is a name of the environment, if
numbers are taken from one on that is past those that schemes bind. -/
theorem not_mem_taken (ctx : Context) (env : TypeEnv) {n : Nat}
    (hlast : ∀ p ∈ env.bindings, ∀ x ∈ p.2.occurrences, signed? x ≠ some Int64.maxValue)
    (hbound : ∀ p ∈ env.bindings, ∀ b ∈ p.2.binders, ∀ m, signed? b = some m → m < env.next)
    (hroom : (ctx.start env).supply.Room (n - 1)) {x : String}
    (hx : (∃ p ∈ env.bindings, x ∈ p.2.binders ++ p.2.occurrences) ∨
      ∀ m : Int64, 0 < m → x ≠ word m) :
    x ∉ ((ctx.start env).supply.freshList n).1 := by
  intro hmem
  obtain ⟨m, rfl, hm, -⟩ := Supply.word_of_mem_freshList hroom hmem
  obtain ⟨hle, hlt⟩ := ctx.lt_next_start env hlast
  rcases hx with ⟨p, hp, hx⟩ | hx
  · have hpast : m < (ctx.start env).supply.next := by
      rcases List.mem_append.1 hx with hx | hx
      · exact Int64.lt_of_lt_of_le (hbound p hp _ hx m (signed?_word m))
          (Int64.le_trans env.next_le_nextNumber hle)
      · exact hlt p hp _ hx m (signed?_word m)
    exact Int64.not_lt.2 hm hpast
  · have hpos : (0 : Int64) < 1 := by decide
    exact hx m (Int64.lt_of_lt_of_le hpos
      (Int64.le_trans env.one_le_nextNumber (Int64.le_trans hle hm))) rfl

/-- **The other numbering for two numbers to start from.** -/
theorem exists_renumbering (ctx₁ ctx₂ : Context) (env : TypeEnv) {k₁ k₂ : Int64} {n : Nat}
    (hbound : ∀ p ∈ env.bindings, ∀ b ∈ p.2.binders, ∀ m, signed? b = some m → m < k₁ ∧ m < k₂)
    (hroom₁ : (ctx₁.start (env.withNext k₁)).supply.Room (n - 1))
    (hroom₂ : (ctx₂.start (env.withNext k₂)).supply.Room (n - 1)) :
    ∃ w : Renumbering, w.left = (ctx₁.start (env.withNext k₁)).supply ∧
      w.right = (ctx₂.start (env.withNext k₂)).supply ∧ w.size = n ∧
      (∀ x, w.perm x ≠ x → x ∈ (w.left.freshList n).1 ∨ x ∈ (w.right.freshList n).1) ∧
      ∀ x, (∃ p ∈ env.bindings, x ∈ p.2.binders ++ p.2.occurrences) ∨
        (∀ m : Int64, 0 < m → x ≠ word m) → w.perm x = x := by
  by_cases hlast : ∀ p ∈ env.bindings, ∀ x ∈ p.2.occurrences, signed? x ≠ some Int64.maxValue
  · obtain ⟨w, hleft, hright, hsize, hkeeps⟩ := Renumbering.exists_of_room hroom₁ hroom₂
    refine ⟨w, hleft, hright, hsize, fun x hx => ?_, fun x hx => hkeeps x ?_ ?_⟩
    · rw [hleft, hright]
      by_contra hx'
      rw [not_or] at hx'
      exact hx (hkeeps x hx'.1 hx'.2)
    · exact ctx₁.not_mem_taken (env.withNext k₁) hlast
        (fun p hp b hb m hm => (hbound p hp b hb m hm).1) hroom₁ hx
    · exact ctx₂.not_mem_taken (env.withNext k₂) hlast
        (fun p hp b hb m hm => (hbound p hp b hb m hm).2) hroom₂ hx
  · -- the last word is passed over, and both supplies go on from the first one
    push Not at hlast
    obtain ⟨p, hp, x, hx, hlast⟩ := hlast
    have hsame : (ctx₁.start (env.withNext k₁)).supply = (ctx₂.start (env.withNext k₂)).supply := by
      rw [supply_start, supply_start]
      exact Supply.skipAll_eq_of_last ((mem_entries_varNames env).2 ⟨p, hp, hx⟩) hlast _ _ rfl
    rw [hsame]
    exact ⟨⟨Equiv.refl String, _, _, n, fun _ _ => rfl⟩, rfl, rfl, rfl, fun x hx => absurd rfl hx,
      fun _ _ => rfl⟩

theorem Unwrapped.room {ctx : Context} {env : TypeEnv} {e : Expr} (h : ctx.Unwrapped env e)
    {n : Nat} (hn : n ≤ (ctx.infer env e).2.supply.count) :
    (ctx.start env).supply.Room (n - 1) := by
  have hmax := (ctx.start env).supply.next.toInt_le
  rw [Unwrapped] at h
  rw [Int64.toInt_maxValue] at hmax
  rw [Supply.Room, Int64.toInt_maxValue]
  omega

end Context

end LetPoly
