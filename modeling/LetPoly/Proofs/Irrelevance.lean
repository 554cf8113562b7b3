import Mathlib
import LetPoly.Proofs.FreeNames
import LetPoly.Proofs.Matching
import LetPoly.Proofs.Scope
import LetPoly.Proofs.SessionTypes

/-! # Irrelevant bindings

The type of an expression does not depend on bindings that the expression does not
refer to: if two environments have closed schemes, and the same ones for the free names
of the expression, then inference gives it the same type in both, or fails in both
(`Context.infer_irrelevant_bindings`).

The other bindings do have a part in a run.  Variables are numbered past those that the
environment mentions, and a definition is not generalised over what is free in the
environment, resolved by the solution of its equations.

* Other numbers only rename the variables.  Every run is matched by one in the other
  environment (`Infer.matchedRuns`, by induction over expressions): there its variables
  are taken where this one takes its own, and types and equations are the same up to the
  matching.
* Closed schemes have nothing free.  But a solution is put in place of bound variables
  too, and what it mentions is then free, if an ascribed variable is bound in a scheme
  (`Context.infer_captured_binder`).  Such a scheme has to stand in both environments
  (`TypeEnv.Shares`).
-/

namespace LetPoly

/-- An ascription whose free variables are as `A` says, and none of whose variables
has a number. -/
structure Ty.Ascribed (A : String → Prop) (a : Ty) : Prop where
  prenex : a.Prenex
  names : ∀ x ∈ a.occurrences, Older 0 x
  free : ∀ x ∈ a.freeOccurrences, A x

/-- Two environments give the same schemes for the names that have not been bound
since. -/
def Agree (Γ₁ Γ₂ : TypeEnv) (Δ : List (String × Ty)) (names : List String) : Prop :=
  ∀ x ∈ names, x ∈ Δ.map (·.1) ∨ Γ₁.get? x = Γ₂.get? x

theorem Agree.mono {Γ₁ Γ₂ : TypeEnv} {Δ : List (String × Ty)} {names names' : List String}
    (h : Agree Γ₁ Γ₂ Δ names) (hsub : names' ⊆ names) : Agree Γ₁ Γ₂ Δ names' :=
  fun x hx => h x (hsub hx)

theorem Agree.bind {Γ₁ Γ₂ : TypeEnv} {Δ Δ' : List (String × Ty)} {names names' : List String}
    (h : Agree Γ₁ Γ₂ Δ names) (hnames : ∀ x ∈ names', x ∈ names ∨ x ∈ Δ'.map (·.1)) :
    Agree Γ₁ Γ₂ (Δ' ++ Δ) names' := by
  intro x hx
  rw [List.map_append, List.mem_append]
  rcases hnames x hx with hx | hx
  · exact (h x hx).imp_left .inr
  · exact .inl (.inl hx)

namespace Matching
variable {A : String → Prop} {b₁ b₂ : Nat} {w : Matching A b₁ b₂} {Γ₁ Γ₂ env₁ env₂ : TypeEnv}
  {Δ : List (String × Ty)}

/-- A name has been bound by both runs, or by neither. -/
theorem Envs.lookup (h : w.Envs Γ₁ Γ₂ Δ env₁ env₂) (x : String) :
    (∃ σ, env₁.get? x = some σ ∧ env₂.get? x = some (σ.permute w.perm) ∧ w.Whole σ) ∨
      x ∉ Δ.map (·.1) ∧ env₁.get? x = Γ₁.get? x ∧ env₂.get? x = Γ₂.get? x := by
  obtain ⟨hleft, hright, hwhole⟩ := h
  simp only [TypeEnv.get?, hleft, hright]
  clear hleft hright
  induction Δ with
  | nil => exact .inr ⟨by simp, rfl, rfl⟩
  | cons p Δ ih =>
    obtain ⟨y, σ⟩ := p
    by_cases hx : x = y
    · subst hx
      exact .inl ⟨σ, by simp, by simp, hwhole (x, σ) (by simp)⟩
    · have hb : (x == y) = false := by simpa using hx
      simpa [List.lookup_cons, hb, hx] using ih fun q hq => hwhole q (List.mem_cons_of_mem _ hq)

/-- A scheme is bound by both runs. -/
theorem Envs.set (h : w.Envs Γ₁ Γ₂ Δ env₁ env₂) (x : String) {σ : Ty} (hσ : w.Whole σ) :
    w.Envs Γ₁ Γ₂ ((x, σ) :: Δ) (env₁.set x σ) (env₂.set x (σ.permute w.perm)) where
  left := by rw [TypeEnv.set, h.left, List.cons_append]
  right := by rw [TypeEnv.set, h.right, List.map_cons, List.cons_append]
  whole := List.forall_mem_cons.2 ⟨hσ, h.whole⟩

/-- What the two runs have found of a pattern. -/
structure Patterns (w : Matching A b₁ b₂) (pt qt : Infer.PatternType) : Prop where
  type : w.Types pt.type qt.type
  equations : w.Equations pt.equations qt.equations
  bindings : qt.bindings.bindings =
    pt.bindings.bindings.map fun p => (p.1, p.2.permute w.perm)
  covers : ∀ p ∈ pt.bindings.bindings, p.2.Over w.Covers

theorem Patterns.grow {w' : Matching A b₁ b₂} {pt qt : Infer.PatternType} (h : w.Patterns pt qt)
    (hw : w.Grows w') : w'.Patterns pt qt where
  type := h.type.grow hw
  equations := h.equations.grow hw
  bindings := by
    rw [h.bindings]
    refine List.map_congr_left fun p hp => ?_
    rw [hw.permute_eq (h.covers p hp).names]
  covers p hp := (h.covers p hp).imp fun _ hx => hw.covers hx

/-- The names of a pattern are bound by both runs. -/
theorem Envs.union (h : w.Envs Γ₁ Γ₂ Δ env₁ env₂) {pt qt : Infer.PatternType}
    (hp : w.Patterns pt qt) : w.Envs Γ₁ Γ₂ (pt.bindings.bindings ++ Δ) (pt.bindings.union env₁)
      (qt.bindings.union env₂) where
  left := by rw [TypeEnv.union, h.left, List.append_assoc]
  right := by rw [TypeEnv.union, h.right, hp.bindings, List.map_append, List.append_assoc]
  whole p hmem := by
    rcases List.mem_append.1 hmem with hmem | hmem
    · exact ⟨.mono (hp.covers p hmem).mono, (hp.covers p hmem).names⟩
    · exact h.whole p hmem

/-- **The second run, from `st₂` on, matches the first**, which has come to `st₁'` with
this type and these equations. -/
def Follows (w : Matching A b₁ b₂) (x : Infer (Ty × List Equation)) (st₁' st₂ : Infer.State)
    (t : Ty) (E : List Equation) : Prop :=
  ∃ u F st₂' w', Infer.Gives x st₂ (u, F) st₂' ∧ w.Grows w' ∧ w'.At st₁' st₂' ∧ w'.Types t u ∧
    w'.Equations E F

end Matching

namespace Infer
open Matching
variable {A : String → Prop} (hA : ∀ x, A x → Older 0 x) {b₁ b₂ : Nat} {w : Matching A b₁ b₂}
  {st₁ st₁' st₂ : State}
include hA

/-! ## Patterns and ascriptions -/

theorem pattern_matched {p : Pat} {pt : PatternType} (h : Gives (pattern p) st₁ pt st₁')
    (hw : w.At st₁ st₂) (hfit₁ : st₁'.number b₁ ≤ Supply.capacity)
    (hfit₂ : Fits b₂ (pattern p) st₂) :
    ∃ qt st₂' w', Gives (pattern p) st₂ qt st₂' ∧ w.Grows w' ∧ w'.At st₁' st₂' ∧
      w'.Patterns pt qt := by
  induction p generalizing w st₁ st₁' st₂ pt with
  | number | string | boolean | unit =>
    obtain ⟨rfl, rfl⟩ := gives_pure.1 h
    exact ⟨_, st₂, w, gives_pure.2 ⟨rfl, rfl⟩, .refl w, hw, w.types_const _, w.equations_nil, rfl,
      by simp⟩
  | wildcard | ident | nil =>
    obtain ⟨_, _, hfresh, h⟩ := gives_bind.1 h
    obtain ⟨x, hx, rfl⟩ := gives_fresh.1 hfresh
    obtain ⟨rfl, rfl⟩ := gives_pure.1 h
    obtain ⟨y, st₂', w', hy, hgrows, hw', hxy⟩ :=
      freshName_matched hA hx hw hfit₁ (hfit₂.first fun _ => steady_pure _)
    refine ⟨_, st₂', w', gives_bind.2 ⟨_, _, gives_fresh.2 ⟨y, hy, rfl⟩, gives_pure.2 ⟨rfl, rfl⟩⟩,
      hgrows, hw', ?_, w'.equations_nil, ?_, ?_⟩
    · exact ⟨by simpa using hxy.1, by simpa using hxy.2⟩
    · simp [TypeEnv.set, hxy.2]
    · simp [TypeEnv.set, Ty.over_var.1 hxy.1]
  | cons p q ihp ihq =>
    obtain ⟨ht, s₁, tt, hp, hq, rfl⟩ := gives_pattern_cons.1 h
    obtain ⟨hb₁, -⟩ := hp.leads (steady_pattern p) hw.left_from
    obtain ⟨-, hle⟩ := hq.leads (steady_pattern q) hb₁
    obtain ⟨hu, q₁, w₁, hp', hgrows₁, hw₁, hpt⟩ := ihp hp hw (Nat.le_trans hle hfit₁)
      (hfit₂.first fun _ => (steady_pattern q).bind fun _ => steady_pure _)
    obtain ⟨tu, q₂, w₂, hq', hgrows₂, hw₂, hqt⟩ := ihq hq hw₁ hfit₁
      ((hfit₂.rest hp').first fun _ => steady_pure _)
    have hpt := hpt.grow hgrows₂
    refine ⟨_, q₂, w₂, gives_pattern_cons.2 ⟨hu, q₁, tu, hp', hq', rfl⟩, hgrows₁.trans hgrows₂, hw₂,
      hpt.type.list, (hpt.equations.append hqt.equations).append
        (.cons hpt.type.list hqt.type w₂.equations_nil), ?_, ?_⟩
    · simp only [TypeEnv.union, hpt.bindings, hqt.bindings, List.map_append]
    · exact List.forall_mem_append.2 ⟨hpt.covers, hqt.covers⟩
  | missing => exact absurd h gives_fail

theorem ascribe_matched {t u : Ty} {a : Option Ty} {E F : List Equation} {st₂' : State}
    (h₁ : Gives (ascribe t a) st₁ E st₁') (h₂ : Gives (ascribe u a) st₂ F st₂')
    (hw : w.At st₁ st₂) (hfit₁ : st₁'.number b₁ ≤ Supply.capacity)
    (hfit₂ : st₂'.number b₂ ≤ Supply.capacity) (ha : ∀ v ∈ a.toList, v.Ascribed A)
    (ht : w.Types t u) : ∃ w', w.Grows w' ∧ w'.At st₁' st₂' ∧ w'.Equations E F := by
  cases a with
  | none =>
    obtain ⟨rfl, rfl⟩ := gives_pure.1 h₁
    obtain ⟨rfl, rfl⟩ := gives_pure.1 h₂
    exact ⟨w, .refl w, hw, w.equations_nil⟩
  | some a =>
    obtain ⟨v₁, _, hv₁, h₁⟩ := gives_bind.1 h₁
    obtain ⟨rfl, rfl⟩ := gives_pure.1 h₁
    obtain ⟨v₂, _, hv₂, h₂⟩ := gives_bind.1 h₂
    obtain ⟨rfl, rfl⟩ := gives_pure.1 h₂
    obtain ⟨hprenex, hnames, hfree⟩ := ha a (by simp)
    have hschemes : w.Schemes a a := schemes_self hprenex hfree fun x hx =>
      ⟨((hnames x hx).widen (Nat.zero_le _)).not_minted,
        ((hnames x hx).widen (Nat.zero_le _)).not_minted⟩
    obtain ⟨w', hgrows, hw', hv⟩ := instantiate_matched hA hschemes hv₁ hv₂ hw hfit₁ hfit₂
    exact ⟨w', hgrows, hw', .cons (ht.grow hgrows) hv w'.equations_nil⟩

omit hA in
theorem ascribe_gives (t : Ty) (a : Option Ty) (st : State) :
    ∃ E st', Gives (ascribe t a) st E st' := by
  cases a with
  | none => exact ⟨[], st, gives_pure.2 ⟨rfl, rfl⟩⟩
  | some a =>
    obtain ⟨v, st', hv⟩ := instantiate_gives a st
    exact ⟨_, st', gives_bind.2 ⟨v, st', hv, gives_pure.2 ⟨rfl, rfl⟩⟩⟩

omit hA in
theorem equations_literal (p : Pat) {t u : Ty} (h : w.Types t u) :
    w.Equations (literal p t) (literal p u) := by
  cases p with
  | number | string | boolean | unit => exact .cons (w.types_const _) h w.equations_nil
  | wildcard | ident | cons | nil | missing => exact w.equations_nil

/-! ## Expressions -/

omit hA in
/-- **Every run on the expression is matched by one in the other environment.** -/
def MatchedRuns (A : String → Prop) (b₁ b₂ : Nat) (Γ₁ Γ₂ : TypeEnv) (e : Expr) : Prop :=
  ∀ ⦃w : Matching A b₁ b₂⦄ ⦃Δ : List (String × Ty)⦄ ⦃env₁ env₂ : TypeEnv⦄ ⦃st₁ st₁' st₂ : State⦄
    ⦃t : Ty⦄ ⦃E : List Equation⦄, Gives (generate env₁ e) st₁ (t, E) st₁' → w.At st₁ st₂ →
    st₁'.number b₁ ≤ Supply.capacity → Fits b₂ (generate env₂ e) st₂ →
    w.Envs Γ₁ Γ₂ Δ env₁ env₂ → Agree Γ₁ Γ₂ Δ e.free → e.Ascribes (Ty.Ascribed A) →
    w.Follows (generate env₂ e) st₁' st₂ t E

variable {Γ₁ Γ₂ : TypeEnv} (hΓ : Around A b₁ b₂ Γ₁ Γ₂)

include hΓ in
theorem ident_matched (x : String) : MatchedRuns A b₁ b₂ Γ₁ Γ₂ (.ident x) := by
  intro w Δ env₁ env₂ st₁ st₁' st₂ t E h hw hfit₁ hfit₂ henv hagree he
  obtain ⟨σ, hσ, ht, rfl⟩ := gives_ident.1 h
  obtain ⟨τ, hτ, hschemes⟩ : ∃ τ, env₂.get? x = some τ ∧ w.Schemes σ τ := by
    rcases henv.lookup x with ⟨σ', hσ', hτ, hwhole⟩ | ⟨hx, hσ', hτ⟩
    · obtain rfl : σ' = σ := Option.some.inj (hσ'.symm.trans hσ)
      exact ⟨_, hτ, hwhole.schemes hA⟩
    · -- the scheme stands in both environments, and neither run meets what it mentions
      have hsame := (hagree x (by simp [Expr.free])).resolve_left hx
      rw [hσ] at hσ'
      rw [← hsame, ← hσ'] at hτ
      have hmem₁ := TypeEnv.mem_of_get? hσ'.symm
      have hmem₂ := TypeEnv.mem_of_get? (hsame.symm.trans hσ'.symm)
      refine ⟨σ, hτ, schemes_self (hΓ.left.prenex _ hmem₁) (by simp [hΓ.left.closed _ hmem₁])
        fun y hy => ?_⟩
      have hleft : b₁ ≤ w.left := hw.left_eq ▸ Nat.le_add_right _ _
      have hright : b₂ ≤ w.right := hw.right_eq ▸ Nat.le_add_right _ _
      exact ⟨fun hm => hΓ.left.apart _ hmem₁ y hy (hm.widen hleft (Nat.le_refl _)),
        fun hm => hΓ.right.apart _ hmem₂ y hy (hm.widen hright (Nat.le_refl _))⟩
  obtain ⟨u, st₂', hu⟩ := instantiate_gives τ st₂
  have hgives := gives_ident.2 ⟨τ, hτ, hu, rfl⟩
  obtain ⟨w', hgrows, hw', htu⟩ :=
    instantiate_matched hA hschemes ht hu hw hfit₁ (hfit₂.number_le hgives)
  exact ⟨u, [], st₂', w', hgives, hgrows, hw', htu, w'.equations_nil⟩

omit hA in
theorem binary_matched {op : Op} {l r : Expr} (hl : MatchedRuns A b₁ b₂ Γ₁ Γ₂ l)
    (hr : MatchedRuns A b₁ b₂ Γ₁ Γ₂ r) : MatchedRuns A b₁ b₂ Γ₁ Γ₂ (.binary op l r) := by
  intro w Δ env₁ env₂ st₁ st₁' st₂ t E h hw hfit₁ hfit₂ henv hagree he
  obtain ⟨-, hel, her⟩ := Expr.everywhere_binary.1 he
  obtain ⟨lt, leqs, s₁, rt, reqs, operand, hgl, hgr, hop, rfl⟩ := gives_binary.1 h
  obtain ⟨hb₁, -⟩ := hgl.leads (steady_generate _ _) hw.left_from
  obtain ⟨-, hle⟩ := hgr.leads (steady_generate _ _) hb₁
  obtain ⟨hfl, hfr⟩ := hfit₂.binary
  obtain ⟨lu, lF, q₁, w₁, hl', hg₁, hw₁, hlt, hlE⟩ := hl hgl hw (Nat.le_trans hle hfit₁) hfl henv
    (hagree.mono (List.subset_append_left _ _)) hel
  obtain ⟨ru, rF, q₂, w₂, hr', hg₂, hw₂, hrt, hrE⟩ := hr hgr hw₁ hfit₁ (hfr hl') (henv.grow hg₁)
    (hagree.mono (List.subset_append_right _ _)) her
  have hconst : w₂.Types operand operand ∧ w₂.Types t t := by
    rcases operation?_eq_some.1 hop with ⟨-, rfl, rfl⟩ | ⟨-, rfl, rfl⟩ | ⟨-, rfl, rfl⟩ <;>
      exact ⟨w₂.types_const _, w₂.types_const _⟩
  exact ⟨t, _, q₂, w₂, gives_binary.2 ⟨lu, lF, q₁, ru, rF, operand, hl', hr', hop, rfl⟩,
    hg₁.trans hg₂, hw₂, hconst.2, ((hlE.grow hg₂).append hrE).append
      (.cons (hlt.grow hg₂) hconst.1 (.cons hrt hconst.1 w₂.equations_nil))⟩

omit hA in
theorem cons_matched {u v : Expr} (hu : MatchedRuns A b₁ b₂ Γ₁ Γ₂ u)
    (hv : MatchedRuns A b₁ b₂ Γ₁ Γ₂ v) : MatchedRuns A b₁ b₂ Γ₁ Γ₂ (.cons u v) := by
  intro w Δ env₁ env₂ st₁ st₁' st₂ t E h hw hfit₁ hfit₂ henv hagree he
  obtain ⟨-, heu, hev⟩ := Expr.everywhere_cons.1 he
  obtain ⟨ut, ueqs, s₁, vt, veqs, hgu, hgv, rfl, rfl⟩ := gives_cons.1 h
  obtain ⟨hb₁, -⟩ := hgu.leads (steady_generate _ _) hw.left_from
  obtain ⟨-, hle⟩ := hgv.leads (steady_generate _ _) hb₁
  obtain ⟨hfu, hfv⟩ := hfit₂.cons
  obtain ⟨uu, uF, q₁, w₁, hu', hg₁, hw₁, hut, huE⟩ := hu hgu hw (Nat.le_trans hle hfit₁) hfu henv
    (hagree.mono (List.subset_append_left _ _)) heu
  obtain ⟨vu, vF, q₂, w₂, hv', hg₂, hw₂, hvt, hvE⟩ := hv hgv hw₁ hfit₁ (hfv hu') (henv.grow hg₁)
    (hagree.mono (List.subset_append_right _ _)) hev
  have hut := (hut.grow hg₂).list
  exact ⟨_, _, q₂, w₂, gives_cons.2 ⟨uu, uF, q₁, vu, vF, hu', hv', rfl, rfl⟩, hg₁.trans hg₂, hw₂,
    hut, ((huE.grow hg₂).append hvE).append (.cons hvt hut w₂.equations_nil)⟩

omit hA in
theorem cond_matched {c y n : Expr} (hc : MatchedRuns A b₁ b₂ Γ₁ Γ₂ c)
    (hy : MatchedRuns A b₁ b₂ Γ₁ Γ₂ y) (hn : MatchedRuns A b₁ b₂ Γ₁ Γ₂ n) :
    MatchedRuns A b₁ b₂ Γ₁ Γ₂ (.cond c y n) := by
  intro w Δ env₁ env₂ st₁ st₁' st₂ t E h hw hfit₁ hfit₂ henv hagree he
  obtain ⟨-, hec, hey, hen⟩ := Expr.everywhere_cond.1 he
  obtain ⟨ct, ceqs, s₁, yeqs, s₂, nt, neqs, hgc, hgy, hgn, rfl⟩ := gives_cond.1 h
  obtain ⟨hb₁, -⟩ := hgc.leads (steady_generate _ _) hw.left_from
  obtain ⟨hb₂, hle₁⟩ := hgy.leads (steady_generate _ _) hb₁
  obtain ⟨-, hle₂⟩ := hgn.leads (steady_generate _ _) hb₂
  obtain ⟨hfc, hfrest⟩ := hfit₂.cond
  have hparts : Agree Γ₁ Γ₂ Δ (c.free ++ y.free ++ n.free) := hagree
  obtain ⟨cu, cF, q₁, w₁, hc', hg₁, hw₁, hct, hcE⟩ := hc hgc hw (by omega) hfc henv
    (hparts.mono fun x hx => by simp [hx]) hec
  obtain ⟨hfy, hfn⟩ := hfrest hc'
  have henv₁ := henv.grow hg₁
  obtain ⟨yu, yF, q₂, w₂, hy', hg₂, hw₂, hyt, hyE⟩ := hy hgy hw₁ (by omega) hfy henv₁
    (hparts.mono fun x hx => by simp [hx]) hey
  obtain ⟨nu, nF, q₃, w₃, hn', hg₃, hw₃, hnt, hnE⟩ := hn hgn hw₂ hfit₁ (hfn hy') (henv₁.grow hg₂)
    (hparts.mono fun x hx => by simp [hx]) hen
  have hg₂₃ := hg₂.trans hg₃
  exact ⟨yu, _, q₃, w₃, gives_cond.2 ⟨cu, cF, q₁, yF, q₂, nu, nF, hc', hy', hn', rfl⟩,
    hg₁.trans hg₂₃, hw₃, hyt.grow hg₃,
    (((hcE.grow hg₂₃).append (hyE.grow hg₃)).append hnE).append
      (.cons (hct.grow hg₂₃) (w₃.types_const _) (.cons (hyt.grow hg₃) hnt w₃.equations_nil))⟩

theorem app_matched {f a : Expr} (hf : MatchedRuns A b₁ b₂ Γ₁ Γ₂ f)
    (ha : MatchedRuns A b₁ b₂ Γ₁ Γ₂ a) : MatchedRuns A b₁ b₂ Γ₁ Γ₂ (.app f a) := by
  intro w Δ env₁ env₂ st₁ st₁' st₂ t E h hw hfit₁ hfit₂ henv hagree he
  obtain ⟨-, hef, hea⟩ := Expr.everywhere_app.1 he
  obtain ⟨ft, feqs, s₁, at_, aeqs, s₂, x, hgf, hga, hx, rfl, rfl⟩ := gives_app.1 h
  obtain ⟨hb₁, -⟩ := hgf.leads (steady_generate _ _) hw.left_from
  obtain ⟨hb₂, hle₁⟩ := hga.leads (steady_generate _ _) hb₁
  obtain ⟨-, hle₂⟩ := hx.leads steady_freshName hb₂
  obtain ⟨hff, hfrest⟩ := hfit₂.app
  obtain ⟨fu, fF, q₁, w₁, hf', hg₁, hw₁, hft, hfE⟩ := hf hgf hw (by omega) hff henv
    (hagree.mono (List.subset_append_left _ _)) hef
  obtain ⟨hfa, hfx⟩ := hfrest hf'
  obtain ⟨au, aF, q₂, w₂, ha', hg₂, hw₂, hat, haE⟩ := ha hga hw₁ (by omega) hfa (henv.grow hg₁)
    (hagree.mono (List.subset_append_right _ _)) hea
  obtain ⟨y, q₃, w₃, hy, hg₃, hw₃, hxy⟩ := freshName_matched hA hx hw₂ hfit₁ (hfx ha')
  have hg₂₃ := hg₂.trans hg₃
  exact ⟨_, _, q₃, w₃, gives_app.2 ⟨fu, fF, q₁, au, aF, q₂, y, hf', ha', hy, rfl, rfl⟩,
    hg₁.trans hg₂₃, hw₃, hxy, ((hfE.grow hg₂₃).append (haE.grow hg₃)).append
      (.cons (hft.grow hg₂₃) ((hat.grow hg₃).arrow hxy) w₃.equations_nil)⟩

omit hA in
/-- Inside a pattern its names are bound. -/
theorem agree_pattern {Δ : List (String × Ty)} {p : Pat} {names names' : List String}
    {pt : PatternType} (hp : Gives (pattern p) st₁ pt st₁') (hagree : Agree Γ₁ Γ₂ Δ names)
    (hnames : ∀ x ∈ names', x ∉ p.names → x ∈ names) :
    Agree Γ₁ Γ₂ (pt.bindings.bindings ++ Δ) names' := by
  refine hagree.bind fun x hx => ?_
  by_cases hxp : x ∈ p.names
  · obtain ⟨σ, hσ⟩ := Option.isSome_iff_exists.1 ((isSome_get?_pattern hp x).2 hxp)
    exact .inr (List.mem_map.2 ⟨(x, σ), TypeEnv.mem_of_get? hσ, rfl⟩)
  · exact .inl (hnames x hx hxp)

theorem lambda_matched {p : Pat} {a : Option Ty} {body : Expr}
    (hbody : MatchedRuns A b₁ b₂ Γ₁ Γ₂ body) :
    MatchedRuns A b₁ b₂ Γ₁ Γ₂ (.lambda p a body) := by
  intro w Δ env₁ env₂ st₁ st₁' st₂ t E h hw hfit₁ hfit₂ henv hagree he
  obtain ⟨hascribed, hebody⟩ := Expr.everywhere_lambda.1 he
  obtain ⟨pt, s₁, bt, beqs, s₂, aeqs, hgp, hgb, hga, rfl, rfl⟩ := gives_lambda.1 h
  obtain ⟨hb₁, -⟩ := hgp.leads (steady_pattern _) hw.left_from
  obtain ⟨hb₂, hle₁⟩ := hgb.leads (steady_generate _ _) hb₁
  obtain ⟨-, hle₂⟩ := hga.leads (steady_ascribe _ _) hb₂
  obtain ⟨hfp, hfbody⟩ := hfit₂.lambda
  obtain ⟨qt, q₁, w₁, hp', hg₁, hw₁, hpq⟩ := pattern_matched hA hgp hw (by omega) hfp
  obtain ⟨bu, bF, q₂, w₂, hb', hg₂, hw₂, hbt, hbE⟩ := hbody hgb hw₁ (by omega) (hfbody hp')
    ((henv.grow hg₁).union hpq) (agree_pattern hgp hagree fun x hx hxp =>
      List.mem_filter.2 ⟨hx, by simpa using hxp⟩) hebody
  have hpq := hpq.grow hg₂
  obtain ⟨aF, q₃, ha'⟩ := ascribe_gives qt.type a q₂
  have hgives := gives_lambda.2 ⟨qt, q₁, bu, bF, q₂, aF, hp', hb', ha', rfl, rfl⟩
  obtain ⟨w₃, hg₃, hw₃, haE⟩ := ascribe_matched hA hga ha' hw₂ hfit₁ (hfit₂.number_le hgives)
    hascribed hpq.type
  exact ⟨_, _, q₃, w₃, hgives, (hg₁.trans hg₂).trans hg₃, hw₃,
    (hpq.type.grow hg₃).arrow (hbt.grow hg₃),
    ((hpq.equations.grow hg₃).append (hbE.grow hg₃)).append haE⟩

theorem arms_matched {arms : List (Pat × Expr)}
    (ih : ∀ arm ∈ arms, MatchedRuns A b₁ b₂ Γ₁ Γ₂ arm.2) {whole : Expr} {Δ : List (String × Ty)}
    {env₁ env₂ : TypeEnv} {value result value' result' : Ty} {E : List Equation}
    (h : Gives (generateArms whole env₁ value result arms) st₁ E st₁') (hw : w.At st₁ st₂)
    (hfit₁ : st₁'.number b₁ ≤ Supply.capacity)
    (hfit₂ : Fits b₂ (generateArms whole env₂ value' result' arms) st₂)
    (henv : w.Envs Γ₁ Γ₂ Δ env₁ env₂) (hagree : Agree Γ₁ Γ₂ Δ (Expr.freeArms arms))
    (he : ∀ arm ∈ arms, arm.2.Ascribes (Ty.Ascribed A)) (hvalue : w.Types value value')
    (hresult : w.Types result result') :
    ∃ F st₂' w', Gives (generateArms whole env₂ value' result' arms) st₂ F st₂' ∧ w.Grows w' ∧
      w'.At st₁' st₂' ∧ w'.Equations E F := by
  induction arms generalizing w st₁ st₂ E with
  | nil =>
    obtain ⟨rfl, rfl⟩ := gives_pure.1 h
    exact ⟨[], st₂, w, gives_pure.2 ⟨rfl, rfl⟩, .refl w, hw, w.equations_nil⟩
  | cons arm arms iharms =>
    obtain ⟨pt, s₁, bt, beqs, s₂, eqs, hgp, hgb, hgr, rfl⟩ := gives_arm.1 h
    obtain ⟨hb₁, -⟩ := hgp.leads (steady_pattern _) hw.left_from
    obtain ⟨hb₂, hle₁⟩ := hgb.leads (steady_generate _ _) hb₁
    obtain ⟨-, hle₂⟩ := hgr.leads (steady_generateArms _ _ _ _ _) hb₂
    obtain ⟨hfp, hfrest⟩ := hfit₂.arm
    obtain ⟨qt, q₁, w₁, hp', hg₁, hw₁, hpq⟩ := pattern_matched hA hgp hw (by omega) hfp
    obtain ⟨hfb, hfr⟩ := hfrest hp'
    have henv₁ := henv.grow hg₁
    obtain ⟨bu, bF, q₂, w₂, hb', hg₂, hw₂, hbt, hbE⟩ := ih arm (by simp) hgb hw₁ (by omega) hfb
      (henv₁.union hpq) (agree_pattern hgp hagree fun x hx hxp =>
        Expr.mem_freeArms.2 ⟨arm, by simp, hx, hxp⟩) (he arm (by simp))
    have hg₁₂ := hg₁.trans hg₂
    obtain ⟨F, q₃, w₃, hr', hg₃, hw₃, hE⟩ := iharms (fun a ha => ih a (List.mem_cons_of_mem _ ha))
      hgr hw₂ (hfr hb') (henv₁.grow hg₂)
      (hagree.mono fun x hx => List.mem_append_right _ hx)
      (fun a ha => he a (List.mem_cons_of_mem _ ha)) (hvalue.grow hg₁₂) (hresult.grow hg₁₂)
    have hpq := hpq.grow (hg₂.trans hg₃)
    have hg := hg₁₂.trans hg₃
    exact ⟨_, q₃, w₃, gives_arm.2 ⟨qt, q₁, bu, bF, q₂, F, hp', hb', hr', rfl⟩, hg, hw₃,
      ((hpq.equations.append (hbE.grow hg₃)).append (.cons hpq.type (hvalue.grow hg)
        (.cons (hbt.grow hg₃) (hresult.grow hg) w₃.equations_nil))).append hE⟩

theorem select_matched {v : Expr} {arms : List (Pat × Expr)}
    (hv : MatchedRuns A b₁ b₂ Γ₁ Γ₂ v) (ih : ∀ arm ∈ arms, MatchedRuns A b₁ b₂ Γ₁ Γ₂ arm.2) :
    MatchedRuns A b₁ b₂ Γ₁ Γ₂ (.select v arms) := by
  intro w Δ env₁ env₂ st₁ st₁' st₂ t E h hw hfit₁ hfit₂ henv hagree he
  obtain ⟨-, hev, hearms⟩ := Expr.everywhere_select.1 he
  obtain ⟨vt, veqs, s₁, x, s₂, eqs, hgv, hx, rfl, hgr, rfl⟩ := gives_select.1 h
  obtain ⟨hb₁, -⟩ := hgv.leads (steady_generate _ _) hw.left_from
  obtain ⟨hb₂, hle₁⟩ := hx.leads steady_freshName hb₁
  obtain ⟨-, hle₂⟩ := hgr.leads (steady_generateArms _ _ _ _ _) hb₂
  obtain ⟨hfv, hfrest⟩ := hfit₂.select
  obtain ⟨vu, vF, q₁, w₁, hv', hg₁, hw₁, hvt, hvE⟩ := hv hgv hw (by omega) hfv henv
    (hagree.mono (List.subset_append_left _ _)) hev
  obtain ⟨hfx, hfr⟩ := hfrest hv'
  obtain ⟨y, q₂, w₂, hy, hg₂, hw₂, hxy⟩ := freshName_matched hA hx hw₁ (by omega) hfx
  obtain ⟨F, q₃, w₃, hr', hg₃, hw₃, hE⟩ := arms_matched hA ih hgr hw₂ hfit₁ (hfr hy)
    (henv.grow (hg₁.trans hg₂)) (hagree.mono (List.subset_append_right _ _)) hearms
    (hvt.grow hg₂) hxy
  exact ⟨_, _, q₃, w₃, gives_select.2 ⟨vu, vF, q₁, y, q₂, F, hv', hy, rfl, hr', rfl⟩,
    (hg₁.trans hg₂).trans hg₃, hw₃, hxy.grow hg₃, (hvE.grow (hg₂.trans hg₃)).append hE⟩

omit hA in
/-- After a definition its name is bound. -/
theorem assume_matched {Δ : List (String × Ty)} {env₁ env₂ : TypeEnv} {p : Pat} {σ : Ty}
    {names names' : List String} (hp : p.isList = false) (henv : w.Envs Γ₁ Γ₂ Δ env₁ env₂)
    (hσ : w.Whole σ) (hagree : Agree Γ₁ Γ₂ Δ names)
    (hnames : ∀ x ∈ names', x ∉ p.names → x ∈ names) :
    ∃ Δ', w.Envs Γ₁ Γ₂ Δ' (assume env₁ p σ) (assume env₂ p (σ.permute w.perm)) ∧
      Agree Γ₁ Γ₂ Δ' names' := by
  cases p with
  | ident x =>
    have hbound : Agree Γ₁ Γ₂ ([(x, σ)] ++ Δ) names' := by
      refine hagree.bind fun y hy => ?_
      by_cases hyx : y = x
      · exact .inr (by simp [hyx])
      · exact .inl (hnames y hy (by simpa [Pat.names] using hyx))
    exact ⟨_, henv.set x hσ, hbound⟩
  | cons | nil => cases hp
  | number | string | boolean | unit | wildcard | missing =>
    exact ⟨Δ, henv, fun y hy => hagree y (hnames y hy (by simp [Pat.names]))⟩

include hΓ

/-- The second run generalises the value of a definition as the first does. -/
theorem define_matched {Δ : List (String × Ty)} {env₁ env₂ : TypeEnv} {p : Pat} {a : Option Ty}
    {v : Expr} {s₁ s₂ s₃ : State} {vt σ : Ty} {veqs aeqs : List Equation}
    (ih : MatchedRuns A b₁ b₂ Γ₁ Γ₂ v) (hv : Gives (generate env₁ v) st₁ (vt, veqs) s₁)
    (ha : Gives (ascribe vt a) s₁ aeqs s₂)
    (hσ : Gives (generalize (veqs ++ aeqs ++ literal p vt) env₁ vt) s₂ σ s₃) (hw : w.At st₁ st₂)
    (hfit₁ : s₃.number b₁ ≤ Supply.capacity) (hfit₂ : Fits b₂ (generate env₂ v) st₂)
    (hfit₂' : ∀ {u F q₁}, Gives (generate env₂ v) st₂ (u, F) q₁ → ∀ {aF q₂},
      Gives (ascribe u a) q₁ aF q₂ → Fits b₂ (generalize (F ++ aF ++ literal p u) env₂ u) q₂)
    (henv : w.Envs Γ₁ Γ₂ Δ env₁ env₂) (hagree : Agree Γ₁ Γ₂ Δ v.free)
    (he : v.Ascribes (Ty.Ascribed A)) (hascribed : ∀ c ∈ a.toList, c.Ascribed A) :
    ∃ vu vF q₁ aF q₂ q₃ w₃, Gives (generate env₂ v) st₂ (vu, vF) q₁ ∧
      Gives (ascribe vu a) q₁ aF q₂ ∧
      Gives (generalize (vF ++ aF ++ literal p vu) env₂ vu) q₂ (σ.permute w₃.perm) q₃ ∧
      w.Grows w₃ ∧ w₃.At s₃ q₃ ∧ w₃.Whole σ ∧
      w₃.Equations (veqs ++ aeqs ++ literal p vt) (vF ++ aF ++ literal p vu) := by
  obtain ⟨hb₁, -⟩ := hv.leads (steady_generate _ _) hw.left_from
  obtain ⟨hb₂, hle₁⟩ := ha.leads (steady_ascribe _ _) hb₁
  obtain ⟨-, hle₂⟩ := hσ.leads (steady_generalize _ _ _) hb₂
  obtain ⟨vu, vF, q₁, w₁, hv', hg₁, hw₁, hvt, hvE⟩ := ih hv hw (by omega) hfit₂ henv hagree he
  obtain ⟨aF, q₂, ha'⟩ := ascribe_gives vu a q₁
  have hfitσ := hfit₂' hv' ha'
  obtain ⟨w₂, hg₂, hw₂, haE⟩ := ascribe_matched hA ha ha' hw₁ (by omega)
    (Nat.le_trans ((steady_generalize _ _ _).number_le b₂ q₂) hfitσ) hascribed hvt
  have hvt := hvt.grow hg₂
  have hE := ((hvE.grow hg₂).append haE).append (equations_literal p hvt)
  obtain ⟨q₃, w₃, hσ', hg₃, hw₃, hwhole⟩ := generalize_matched hA hΓ
    (henv.grow (hg₁.trans hg₂)) hE hvt hσ hw₂ hfit₁ hfitσ
  exact ⟨vu, vF, q₁, aF, q₂, q₃, w₃, hv', ha', hσ', (hg₁.trans hg₂).trans hg₃, hw₃, hwhole,
    hE.grow hg₃⟩

theorem block_matched {ss : List Expr} (ih : ∀ s ∈ ss, MatchedRuns A b₁ b₂ Γ₁ Γ₂ s)
    (ihd : ∀ k p a v, .define k p a v ∈ ss → MatchedRuns A b₁ b₂ Γ₁ Γ₂ v) :
    MatchedRuns A b₁ b₂ Γ₁ Γ₂ (.block ss) := by
  induction ss with
  | nil => exact fun _ _ _ _ _ _ _ _ _ h => absurd h gives_blame
  | cons s ss ihss =>
    intro w Δ env₁ env₂ st₁ st₁' st₂ t E h hw hfit₁ hfit₂ henv hagree he
    have hparts := (Expr.everywhere_block.1 he).2
    cases ss with
    | nil =>
      rw [Gives, outcome_block_last] at h
      rw [Fits, outcome_block_last] at hfit₂
      have hfree : s.free ⊆ Expr.freeStmts [s] := by
        cases s with
        | define => exact List.nil_subset _
        | _ => exact List.subset_append_left _ _
      obtain ⟨u, F, q₁, w₁, hs', hrest⟩ :=
        ih s (by simp) h hw hfit₁ hfit₂ henv (hagree.mono hfree) (hparts s (by simp))
      refine ⟨u, F, q₁, w₁, ?_, hrest⟩
      rwa [Gives, outcome_block_last]
    | cons s' ss =>
      have hrest : (Expr.block (s' :: ss)).Ascribes (Ty.Ascribed A) :=
        Expr.everywhere_block.2 ⟨by simp [Expr.ascriptions],
          fun d hd => hparts d (List.mem_cons_of_mem _ hd)⟩
      have ihss := ihss (fun e he => ih e (List.mem_cons_of_mem _ he))
        fun k p a v he => ihd k p a v (List.mem_cons_of_mem _ he)
      cases hs : s.isDefinition with
      | true =>
        obtain ⟨k, p, a, v, rfl⟩ := Expr.isDefinition_iff.1 hs
        obtain ⟨hascribed, hev⟩ := Expr.everywhere_define.1 (hparts _ List.mem_cons_self)
        obtain ⟨hlist, vt, veqs, s₁, aeqs, s₂, σ, s₃, eqs, hgv, hga, hgσ, hgss, rfl⟩ :=
          gives_block_define.1 h
        obtain ⟨hb₁, -⟩ := hgv.leads (steady_generate _ _) hw.left_from
        obtain ⟨hb₂, -⟩ := hga.leads (steady_ascribe _ _) hb₁
        obtain ⟨hb₃, -⟩ := hgσ.leads (steady_generalize _ _ _) hb₂
        obtain ⟨-, hle⟩ := hgss.leads (steady_generate _ _) hb₃
        obtain ⟨hfv, hfrest⟩ := hfit₂.block_define hlist
        have hfree : Agree Γ₁ Γ₂ Δ
            (v.free ++ (Expr.freeStmts (s' :: ss)).filter (· ∉ p.names)) := hagree
        obtain ⟨vu, vF, q₁, aF, q₂, q₃, w₁, hv', ha', hσ', hg₁, hw₁, hwhole, hE⟩ :=
          define_matched hA hΓ (ihd k p a v (by simp)) hgv hga hgσ hw (Nat.le_trans hle hfit₁) hfv
            (fun {_ _ _} hv {_ _} ha => (hfrest hv ha).1) henv
            (hfree.mono (List.subset_append_left _ _)) hev hascribed
        obtain ⟨Δ', henv', hagree'⟩ := assume_matched hlist (henv.grow hg₁) hwhole
          (hfree.mono (List.subset_append_right _ _)) fun x hx hxp =>
            List.mem_filter.2 ⟨hx, by simpa using hxp⟩
        obtain ⟨u, F, q₄, w₂, hss', hg₂, hw₂, htu, hF⟩ :=
          ihss hgss hw₁ hfit₁ ((hfrest hv' ha').2 hσ') henv' hagree' hrest
        exact ⟨u, _, q₄, w₂,
          gives_block_define.2 ⟨hlist, vu, vF, q₁, aF, q₂, _, q₃, F, hv', ha', hσ', hss', rfl⟩,
          hg₁.trans hg₂, hw₂, htu, (hE.grow hg₂).append hF⟩
      | false =>
        obtain ⟨r, s₁, hgs, hgss⟩ := (gives_block_stmt hs).1 h
        obtain ⟨hb₁, -⟩ := hgs.leads (steady_generate _ _) hw.left_from
        obtain ⟨-, hle⟩ := hgss.leads (steady_generate _ _) hb₁
        obtain ⟨hfs, hfss⟩ := hfit₂.block_stmt hs
        have hfree : Agree Γ₁ Γ₂ Δ (s.free ++ Expr.freeStmts (s' :: ss)) :=
          Expr.freeStmts_stmt hs (s' :: ss) ▸ hagree
        obtain ⟨_, _, q₁, w₁, hs', hg₁, hw₁, -, -⟩ := ih s (by simp) hgs hw (by omega) hfs henv
          (hfree.mono (List.subset_append_left _ _)) (hparts s (by simp))
        obtain ⟨u, F, q₂, w₂, hss', hg₂, hrest⟩ := ihss hgss hw₁ hfit₁ (hfss hs') (henv.grow hg₁)
          (hfree.mono (List.subset_append_right _ _)) hrest
        exact ⟨u, F, q₂, w₂, (gives_block_stmt hs).2 ⟨_, q₁, hs', hss'⟩, hg₁.trans hg₂, hrest⟩

/-- **A second run matches the first** wherever the two environments agree. -/
theorem matchedRuns (e : Expr) : MatchedRuns A b₁ b₂ Γ₁ Γ₂ e := by
  induction e using Expr.induction with
  | number | string | boolean | unit =>
    intro w Δ env₁ env₂ st₁ st₁' st₂ t E h hw hfit₁ hfit₂ henv hagree he
    obtain ⟨heq, rfl⟩ := gives_pure.1 h
    cases heq
    exact ⟨_, _, st₂, w, gives_pure.2 ⟨rfl, rfl⟩, .refl w, hw, w.types_const _, w.equations_nil⟩
  | nil =>
    intro w Δ env₁ env₂ st₁ st₁' st₂ t E h hw hfit₁ hfit₂ henv hagree he
    obtain ⟨x, hx, rfl, rfl⟩ := gives_nil.1 h
    obtain ⟨y, q₁, w₁, hy, hg₁, hw₁, hxy⟩ :=
      freshName_matched hA hx hw hfit₁ (hfit₂.first fun _ => steady_pure _)
    exact ⟨_, _, q₁, w₁, gives_nil.2 ⟨y, hy, rfl, rfl⟩, hg₁, hw₁, hxy.list, w₁.equations_nil⟩
  | ident x => exact ident_matched hA hΓ x
  | binary op l r ihl ihr => exact binary_matched ihl ihr
  | cons u v ihu ihv => exact cons_matched ihu ihv
  | cond c y n ihc ihy ihn => exact cond_matched ihc ihy ihn
  | lambda p a body ih => exact lambda_matched hA ih
  | app f a ihf iha => exact app_matched hA ihf iha
  | block ss ih ihd => exact block_matched hA hΓ ih ihd
  | select v arms ihv ih => exact select_matched hA ihv ih
  | define => exact fun _ _ _ _ _ _ _ _ _ h => absurd h gives_blame
  | missing => exact fun _ _ _ _ _ _ _ _ _ h => absurd h gives_fail

end Infer

/-! ## Where a run starts -/

namespace Supply
variable (s : Supply) {x : String} {xs : List String}

theorem skip_none (h : Text.Decimal.signed? x = none) : s.skip x = s := by
  rw [skip, h]

theorem skip_some {n : Int64} (h : Text.Decimal.signed? x = some n) :
    s.skip x = if s.next ≤ n then { s with next := n + 1 } else s := by
  rw [skip, h]

/-- Only after the last word do numbers begin anew. -/
theorem lt_succ {n : Int64} (h : n ≠ Int64.maxValue) : n < n + 1 := by
  have hmax : n.toInt ≠ Int64.maxValue.toInt := fun heq => h (Int64.toInt_inj.1 heq)
  have hle := n.toInt_le
  have hge := n.minValue_le_toInt
  rw [Int64.toInt_maxValue] at hmax hle
  rw [Int64.toInt_minValue] at hge
  rw [Int64.lt_iff_toInt_lt, Int64.toInt_add, show (1 : Int64).toInt = 1 from rfl,
    Int.bmod_eq_of_le (by omega) (by omega)]
  omega

/-- A variable that was passed over is not taken afterwards. -/
theorem lt_next_skip (hx : Text.Decimal.signed? x ≠ some Int64.maxValue) :
    s.next ≤ (s.skip x).next ∧ ∀ n, Text.Decimal.signed? x = some n → n < (s.skip x).next := by
  cases h : Text.Decimal.signed? x with
  | none =>
    rw [s.skip_none h]
    exact ⟨Int64.le_refl _, by simp⟩
  | some n =>
    have hn : n < n + 1 := lt_succ fun heq => hx (by rw [h, heq])
    rw [s.skip_some h]
    by_cases hle : s.next ≤ n
    · rw [if_pos hle]
      exact ⟨Int64.le_trans hle (Int64.le_of_lt hn), by simpa using hn⟩
    · rw [if_neg hle]
      exact ⟨Int64.le_refl _, by simpa using hle⟩

theorem lt_next_skipAll (hxs : ∀ x ∈ xs, Text.Decimal.signed? x ≠ some Int64.maxValue) :
    s.next ≤ (s.skipAll xs).next ∧
      ∀ x ∈ xs, ∀ n, Text.Decimal.signed? x = some n → n < (s.skipAll xs).next := by
  induction xs generalizing s with
  | nil => exact ⟨Int64.le_refl _, by simp⟩
  | cons x xs ih =>
    obtain ⟨hx, hxs⟩ := List.forall_mem_cons.1 hxs
    obtain ⟨hle, hlt⟩ := s.lt_next_skip hx
    obtain ⟨hrest, hall⟩ := ih (s.skip x) hxs
    exact ⟨Int64.le_trans hle hrest, List.forall_mem_cons.2
      ⟨fun n hn => Int64.lt_of_lt_of_le (hlt n hn) hrest, hall⟩⟩

theorem count_skipAll (xs : List String) : (s.skipAll xs).count = s.count := by
  refine List.foldlRecOn xs skip (motive := (·.count = s.count)) rfl fun r hr x _ => ?_
  cases h : Text.Decimal.signed? x with
  | none => rwa [r.skip_none h]
  | some n =>
    rw [r.skip_some h]
    by_cases hle : r.next ≤ n
    · rwa [if_pos hle]
    · rwa [if_neg hle]

end Supply

theorem TypeEnv.one_le_nextNumber (env : TypeEnv) : 1 ≤ env.nextNumber := by
  rw [nextNumber]
  by_cases h : env.next < 1
  · rw [if_pos h]
    exact Int64.le_refl _
  · rw [if_neg h]
    exact Int64.not_lt.1 h

theorem TypeEnv.next_le_nextNumber (env : TypeEnv) : env.next ≤ env.nextNumber := by
  rw [nextNumber]
  by_cases h : env.next < 1
  · rw [if_pos h]
    exact Int64.le_of_lt h
  · rw [if_neg h]
    exact Int64.le_refl _

namespace Context
variable (ctx : Context) (env : TypeEnv)

theorem supply_start : (ctx.start env).supply =
    Supply.skipAll { next := env.nextNumber } (env.entries.flatMap fun p => p.2.varNames) :=
  List.foldl_flatMap.symm

theorem mem_entries_varNames {x : String} :
    (x ∈ env.entries.flatMap fun p => p.2.varNames) ↔
      ∃ p ∈ env.bindings, x ∈ p.2.occurrences := by
  simp [TypeEnv.entries, Ty.varNames]

theorem count_start : (ctx.start env).supply.count = 0 := by
  rw [supply_start, Supply.count_skipAll]

/-- Variables are taken from a number on that is past all those of the environment,
unless one of these is the last word. -/
theorem lt_next_start (hlast : ∀ p ∈ env.bindings, ∀ x ∈ p.2.occurrences,
      Text.Decimal.signed? x ≠ some Int64.maxValue) :
    env.nextNumber ≤ (ctx.start env).supply.next ∧ ∀ p ∈ env.bindings, ∀ x ∈ p.2.occurrences,
      ∀ n, Text.Decimal.signed? x = some n → n < (ctx.start env).supply.next := by
  rw [supply_start]
  have hnames : ∀ x ∈ env.entries.flatMap fun p => p.2.varNames,
      Text.Decimal.signed? x ≠ some Int64.maxValue := by
    intro x hx
    obtain ⟨p, hp, hx⟩ := (mem_entries_varNames env).1 hx
    exact hlast p hp x hx
  obtain ⟨hle, hlt⟩ := Supply.lt_next_skipAll { next := env.nextNumber } hnames
  exact ⟨hle, fun p hp x hx => hlt x ((mem_entries_varNames env).2 ⟨p, hp, hx⟩)⟩

/-- The number of the first variable that is taken. -/
def first : Nat := (ctx.start env).supply.next.toInt.toNat

/-- **Numbers do not run out**: no variable of the environment has the last of them, and
inference ends before it would need more. -/
structure Roomy (e : Expr) : Prop where
  names : ∀ p ∈ env.bindings, ∀ x ∈ p.2.occurrences,
    Text.Decimal.signed? x ≠ some Int64.maxValue
  taken : ctx.first env + (ctx.infer env e).2.supply.count ≤ Supply.capacity

variable {ctx env} {e : Expr}

/-- What a run takes is not in the environment. -/
theorem Roomy.start (h : ctx.Roomy env e) : (ctx.initial env).From (ctx.first env) ∧
    (ctx.initial env).number (ctx.first env) = ctx.first env ∧
    ∀ p ∈ env.bindings, ∀ x ∈ p.2.occurrences,
      ¬Minted (ctx.first env) Supply.capacity x := by
  have hcount := ctx.count_start env
  obtain ⟨hle, hlt⟩ := ctx.lt_next_start env h.names
  have hpos : 1 ≤ (ctx.start env).supply.next.toInt :=
    Int64.le_iff_toInt_le.1 (Int64.le_trans env.one_le_nextNumber hle)
  have hfirst : (ctx.first env : Int) = (ctx.start env).supply.next.toInt := by
    rw [first]
    omega
  refine ⟨?_, ?_, ?_⟩
  · show (ctx.start env).supply.next = Int64.ofNat (ctx.first env + (ctx.start env).supply.count)
    rw [hcount, Nat.add_zero, ← Int64.ofInt_eq_ofNat, hfirst, Int64.ofInt_toInt]
  · show ctx.first env + (ctx.start env).supply.count = _
    rw [hcount, Nat.add_zero]
  · rintro p hp x hx ⟨k, hk, hcap, rfl⟩
    have hlt := hlt p hp _ hx _ (Text.Decimal.signed?_natural hcap)
    rw [Int64.lt_iff_toInt_lt, Int64.toInt_ofNat_of_lt hcap] at hlt
    omega

theorem Roomy.fits (h : ctx.Roomy env e) (he : e ≠ .missing) :
    Infer.Fits (ctx.first env) (Infer.generate env e) (ctx.initial env) := by
  have hfit : Infer.Fits (ctx.first env) (Infer.infer env e) (ctx.initial env) := by
    rw [Infer.Fits, Infer.State.number, ← (ctx.infer_outcome env he).2]
    exact h.taken
  exact hfit.first fun _ => (Infer.steady_solve _).bind fun _ => (Infer.steady_tell _).bind fun _ =>
    Infer.steady_pure _

theorem Roomy.apart (h : ctx.Roomy env e) (hprenex : ∀ p ∈ env.bindings, p.2.Prenex)
    (hclosed : env.freeVars = []) : env.Apart (ctx.first env) where
  prenex := hprenex
  closed p hp := by
    have hfree : p.2.freeVars = [] := List.flatMap_eq_nil_iff.1 hclosed p hp
    refine List.eq_nil_iff_forall_not_mem.2 fun x hx => ?_
    have hx : x ∈ p.2.freeVars := List.mem_eraseDups.2 hx
    rw [hfree] at hx
    exact List.not_mem_nil hx
  apart := h.start.2.2

variable {ctx₁ ctx₂ : Context} {env₁ env₂ : TypeEnv} {A : String → Prop}

/-- What has a type in the first environment has the same in the second. -/
theorem infer_matched (hA : ∀ x, A x → Older 0 x)
    (hΓ : Matching.Around A (ctx₁.first env₁) (ctx₂.first env₂) env₁ env₂)
    (hsame : ∀ x ∈ e.free, env₁.get? x = env₂.get? x) (he : e.Ascribes (Ty.Ascribed A))
    (h₁ : ctx₁.Roomy env₁ e) (h₂ : ctx₂.Roomy env₂ e) {t : Ty}
    (h : (ctx₁.infer env₁ e).1.toOption = some t) :
    ∃ u, (ctx₂.infer env₂ e).1.toOption = some u ∧ u.display = t.display := by
  have hmissing : e ≠ .missing := by
    rintro rfl
    cases h
  rw [(ctx₁.infer_outcome env₁ hmissing).1] at h
  rw [(ctx₂.infer_outcome env₂ hmissing).1]
  have hgives : Infer.Gives (Infer.infer env₁ e) (ctx₁.initial env₁) t _ := Prod.ext h rfl
  obtain ⟨vt, E, st₁, s, hgen, hs, rfl, -⟩ := Infer.gives_infer.1 hgives
  let w : Matching A (ctx₁.first env₁) (ctx₂.first env₂) :=
    ⟨Equiv.refl String, ctx₁.first env₁, ctx₂.first env₂, fun _ _ => rfl⟩
  have hw : w.At (ctx₁.initial env₁) (ctx₂.initial env₂) :=
    ⟨h₁.start.1, h₂.start.1, h₁.start.2.1, h₂.start.2.1⟩
  have henv : w.Envs env₁ env₂ [] env₁ env₂ := ⟨rfl, rfl, by simp⟩
  obtain ⟨u, F, st₂, w', hgen', -, -, htu, hE⟩ := Infer.matchedRuns hA hΓ e hgen hw
    ((h₁.fits hmissing).number_le hgen) (h₂.fits hmissing) henv (fun x hx => .inr (hsame x hx)) he
  have hresolved := hE.resolve hs htu
  have hrun := Infer.gives_infer.2 ⟨u, F, st₂, _, hgen', hE.solve hs, rfl, rfl⟩
  refine ⟨_, congrArg Prod.fst hrun, ?_⟩
  rw [hresolved.2, Ty.display_permute]

/-- **Bindings that an expression does not refer to do not influence its type.**  In two
environments with closed schemes that bind its free names to the same schemes, inference
succeeds or fails alike and the types are displayed alike, as long as the schemes that
mention an ascribed variable stand in both environments and numbers do not run out. -/
theorem infer_irrelevant_bindings (ctx₁ ctx₂ : Context) (env₁ env₂ : TypeEnv) (e : Expr)
    (hprenex : ∀ p ∈ env₁.bindings ++ env₂.bindings, p.2.Prenex)
    (hclosed : env₁.freeVars = [] ∧ env₂.freeVars = [])
    (hsame : ∀ x ∈ e.free, env₁.get? x = env₂.get? x)
    (hnames : e.Ascribes fun a => a.Prenex ∧ ∀ x ∈ a.occurrences, Older 0 x)
    (hshares : e.Ascribes fun a => ∀ x ∈ a.freeOccurrences,
      env₁.Shares env₂ x ∧ env₂.Shares env₁ x)
    (hroom₁ : ctx₁.Roomy env₁ e) (hroom₂ : ctx₂.Roomy env₂ e) :
    (ctx₁.infer env₁ e).1.toOption.map Ty.display =
      (ctx₂.infer env₂ e).1.toOption.map Ty.display := by
  let A (x : String) : Prop := Older 0 x ∧ env₁.Shares env₂ x ∧ env₂.Shares env₁ x
  have hA : ∀ x, A x → Older 0 x := fun _ hx => hx.1
  have he : e.Ascribes (Ty.Ascribed A) := fun d hd a ha =>
    ⟨(hnames d hd a ha).1, (hnames d hd a ha).2, fun x hx =>
      ⟨(hnames d hd a ha).2 x (Ty.mem_occurrences_of_free hx), hshares d hd a ha x hx⟩⟩
  have hΓ : Matching.Around A (ctx₁.first env₁) (ctx₂.first env₂) env₁ env₂ :=
    ⟨hroom₁.apart (fun p hp => hprenex p (List.mem_append_left _ hp)) hclosed.1,
      hroom₂.apart (fun p hp => hprenex p (List.mem_append_right _ hp)) hclosed.2,
      fun _ hx => hx.2.1, fun _ hx => hx.2.2⟩
  -- the conditions are the same both ways, so a failure is matched as a success is
  cases h₁ : (ctx₁.infer env₁ e).1.toOption with
  | some t =>
    obtain ⟨u, hu, hdisplay⟩ := infer_matched hA hΓ hsame he hroom₁ hroom₂ h₁
    rw [hu, Option.map_some, Option.map_some, hdisplay]
  | none =>
    cases h₂ : (ctx₂.infer env₂ e).1.toOption with
    | none => rfl
    | some u =>
      obtain ⟨t, ht, -⟩ := infer_matched hA hΓ.symm (fun x hx => (hsame x hx).symm) he hroom₂ hroom₁
        h₂
      rw [h₁] at ht
      cases ht

/-- The ascribed variable is bound in a scheme of both environments; one of them has a
function besides, whose variable has a number. -/
theorem infer_irrelevant_bindings_wrap :
    let identity : Ty := .poly "a" (.arrow (.var "a") (.var "a"))
    let wrap : Ty := .poly "7" (.arrow (.var "7") (.list (.var "7")))
    let env₁ : TypeEnv := { bindings := [("id", identity)] }
    let env₂ : TypeEnv := { bindings := [("wrap", wrap), ("id", identity)] }
    let e : Expr := .block [
      .define .val (.ident "f") none
        (.lambda (.ident "x") (some (.var "a")) (.app (.ident "id") (.ident "x"))),
      .app (.ident "f") (.number 1)]
    e.free = ["id"] ∧ e.Ascribes (· = .var "a") ∧
      (Context.infer {} env₁ e).2.supply.count = 6 ∧
      (Context.infer {} env₂ e).2.supply.count = 6 ∧
      (Context.infer {} env₁ e).1.toOption.map Ty.display = some "Int" ∧
      (Context.infer {} env₁ e).1.toOption.map Ty.display =
        (Context.infer {} env₂ e).1.toOption.map Ty.display := by
  intro identity wrap env₁ env₂ e
  have hcount₁ : (Context.infer {} env₁ e).2.supply.count = 6 := by
    cbv
    simp only [Infer.instantiate]
    cbv
    simp only [Infer.instantiate]
    cbv
  have hcount₂ : (Context.infer {} env₂ e).2.supply.count = 6 := by
    cbv
    simp only [Infer.instantiate]
    cbv
    simp only [Infer.instantiate]
    cbv
  have hdisplay : (Context.infer {} env₁ e).1.toOption.map Ty.display = some "Int" := by
    cbv
    simp only [Infer.instantiate]
    cbv
    simp only [Infer.instantiate]
    cbv
  have holder : Older 0 "a" := Token.Named.older ⟨by decide, by decide⟩
  have hascribes : e.Ascribes (· = .var "a") := by decide
  have hshares : env₁.Shares env₂ "a" ∧ env₂.Shares env₁ "a" := by
    have hbinders : ∀ y ∈ identity.binders, y ∉ identity.occurrences → Older 0 y := by
      simp [identity, Ty.binders, Ty.occurrences]
    have hwrap : "a" ∉ wrap.occurrences := by decide
    constructor
    · intro p hp _
      rw [List.mem_singleton.1 hp]
      exact ⟨⟨("id", identity), by decide, rfl⟩, hbinders⟩
    · intro p hp hx
      rcases List.mem_pair.1 hp with rfl | rfl
      · exact absurd hx hwrap
      · exact ⟨⟨("id", identity), by decide, rfl⟩, hbinders⟩
  refine ⟨by decide, hascribes, hcount₁, hcount₂, hdisplay,
    infer_irrelevant_bindings {} {} env₁ env₂ e (by decide) ⟨by decide, by decide⟩ (by decide)
      (fun d hd a ha => ?_) (fun d hd a ha => ?_) ⟨by decide, ?_⟩ ⟨by decide, ?_⟩⟩
  · obtain rfl := hascribes d hd a ha
    exact ⟨.mono trivial, by simpa [Ty.occurrences] using holder⟩
  · obtain rfl := hascribes d hd a ha
    simpa [Ty.freeOccurrences] using hshares
  · rw [hcount₁]
    decide
  · rw [hcount₂]
    decide

/-- **A scheme of one environment that binds an ascribed variable is noticed.**  While
the first definition is generalised, the solution of the ascribed variable is put in place
of the bound one in the scheme of `f`; what it mentions is then free in the environment
and is not generalised, so that `g` cannot be used at two types. -/
theorem infer_captured_binder :
    let e : Expr := .block [
      .define .val (.ident "g") none (.lambda (.ident "x") (some (.var "a"))
        (.lambda (.ident "y") none (.app (.ident "x") (.ident "y")))),
      .define .val (.ident "u") none
        (.app (.ident "g") (.lambda (.ident "z") none (.binary .plus (.ident "z") (.number 1)))),
      .app (.ident "g") (.lambda (.ident "z") none (.boolean true))]
    let env : TypeEnv := { bindings := [("f", .poly "a" (.arrow (.var "a") (.var "a")))] }
    (∀ p ∈ env.bindings, p.2.Prenex) ∧ env.freeVars = [] ∧ e.free = [] ∧
      (Context.infer {} .empty e).1.toOption.map Ty.display = some "a . a -> Bool" ∧
      (Context.infer {} env e).1 = .error (.mismatch .int .bool) := by
  refine ⟨by decide, by decide, by decide, ?_, ?_⟩
  · cbv
    simp only [Infer.instantiate]
    cbv
    simp only [Infer.instantiate]
    cbv
  · cbv

end Context

end LetPoly
