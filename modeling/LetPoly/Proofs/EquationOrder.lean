import LetPoly.Proofs.Permutation

/-! # The order of equations

Equations are solved from the first to the last, and a variable on the left is solved
before one on the right, so the pairs of a solution depend on how the equations are
written down.  What is found does not.  Two lists that the same assignments solve are
either both without a solution, or each solution is an instance of the other
(`Solution.resolve_apply_resolve`).  Types that are instances of each other differ by a
permutation of their variables (`Ty.exists_permute_of_instances`), and these have one
canonical form.
-/

namespace LetPoly

namespace Ty

/-- Assignments that agree on a type agree on its variables. -/
theorem eq_of_apply_eq {θ θ' : Assignment} {t : Ty} (h : t.apply θ = t.apply θ') :
    ∀ x ∈ t.occurrences, θ x = θ' x := by
  induction t with
  | const | missing => simp [occurrences]
  | var y => simpa [occurrences] using h
  | arrow a r iha ihr =>
    obtain ⟨ha, hr⟩ := Ty.arrow.inj h
    intro x hx
    exact (List.mem_append.1 hx).elim (iha ha x) (ihr hr x)
  | app f a ihf iha =>
    obtain ⟨hf, ha⟩ := Ty.app.inj h
    intro x hx
    exact (List.mem_append.1 hx).elim (ihf hf x) (iha ha x)
  | poly b t ih => exact ih (Ty.poly.inj h).2
  | list t ih => exact ih (Ty.list.inj h)

/-- Only a variable becomes a variable. -/
theorem eq_var_of_apply_eq_var {θ : Assignment} {t : Ty} {x : String} (h : t.apply θ = .var x) :
    ∃ y, t = .var y ∧ θ y = .var x := by
  cases t with
  | var y => exact ⟨y, rfl, h⟩
  | const | missing | arrow | app | poly | list => cases h

/-- **Types that are instances of each other differ by a permutation of names**, where nothing
is bound in them. -/
theorem exists_permute_of_instances {t u : Ty} {θ θ' : Assignment} (ht : t.binders = [])
    (hu : u = t.apply θ) (hback : t = u.apply θ') : ∃ π, u = t.permute π := by
  have hround : ∀ x ∈ t.occurrences, (θ x).apply θ' = .var x := by
    have happly : t.apply (fun x => (θ x).apply θ') = t.apply .var := by
      rw [← apply_apply, ← hu, ← hback, apply_id]
    exact eq_of_apply_eq happly
  have hname (x : {x // x ∈ t.occurrences}) : ∃ y, θ x = .var y ∧ θ' y = .var x :=
    eq_var_of_apply_eq_var (hround x x.2)
  choose name hname hname' using hname
  have hinj : Function.Injective name := by
    intro x y hxy
    have hvar : Ty.var x.1 = .var y.1 := by rw [← hname' x, hxy, hname' y]
    exact Subtype.ext (Ty.var.inj hvar)
  obtain ⟨π, hπ⟩ := Equiv.Perm.exists_extending_pair (fun x : {x // x ∈ t.occurrences} => x.1)
    name Subtype.val_injective hinj
  refine ⟨π, ?_⟩
  rw [hu, permute_eq_apply ht]
  refine apply_congr fun x hx => ?_
  rw [hname ⟨x, hx⟩, ← hπ ⟨x, hx⟩]

/-- Such types have the same canonical form. -/
theorem canonical_eq_of_instances {t u : Ty} {θ θ' : Assignment} (ht : t.binders = [])
    (hu : u = t.apply θ) (hback : t = u.apply θ') : t.canonical = u.canonical := by
  obtain ⟨π, rfl⟩ := exists_permute_of_instances ht hu hback
  exact (canonical_permute π t).symm

end Ty

/-! ## Solutions without binders -/

/-- A step records no type that binds a name where none was bound. -/
theorem Equation.Reduces.solved_binders {es es' : List Equation} {ps : Solution}
    (h : Reduces es ps es') (hb : BinderFree es) : ∀ p ∈ ps, p.2.binders = [] := by
  cases h with
  | solveLeft x u rest _ => simpa using (hb _ List.mem_cons_self).2
  | solveRight x u rest _ => simpa using (hb _ List.mem_cons_self).1
  | drop | arrow | app | list => simp

theorem unify_binders {es : List Equation} {s : Solution} (hb : Equation.BinderFree es)
    (h : unify es = .ok s) : ∀ p ∈ s, p.2.binders = [] := by
  have run := unify_ok_induction
    (motive := fun es s => Equation.BinderFree es → ∀ p ∈ s, p.2.binders = [])
    (fun _ => by simp) (fun hr ih hb p hp => ?_) h
  · exact run hb
  · rcases List.mem_append.1 hp with hp | hp
    · exact hr.solved_binders hb p hp
    · exact ih (hr.binderFree hb) p hp

theorem Solution.binders_resolve {s : Solution} (hs : ∀ p ∈ s, p.2.binders = []) {t : Ty}
    (ht : t.binders = []) : (s.resolve t).binders = [] := by
  fun_induction resolve s t with
  | case1 | case2 | case3 => rfl
  | case4 s x t hx ih =>
    obtain ⟨l, r, rfl, -⟩ := List.lookup_eq_some_iff.1 hx
    exact ih (fun p hp => hs p (List.mem_filter.1 hp).1) (hs (x, t) (by simp))
  | case5 s a r iha ihr =>
    obtain ⟨ha, hr⟩ := List.append_eq_nil_iff.1 ht
    exact List.append_eq_nil_iff.2 ⟨iha hs ha, ihr hs hr⟩
  | case6 s f a ihf iha =>
    obtain ⟨hf, ha⟩ := List.append_eq_nil_iff.1 ht
    exact List.append_eq_nil_iff.2 ⟨ihf hs hf, iha hs ha⟩
  | case7 => cases ht
  | case8 s t ih => exact ih hs ht

/-! ## Equations with the same solutions -/

namespace Equation

/-- The sides of an equation in the other order. -/
def swap (e : Equation) : Equation := ⟨e.right, e.left⟩

/-- **The equations of one list are those of the other**, in any order and each with its
sides in either order. -/
def Reordered (es es' : List Equation) : Prop :=
  ∃ fs, es.Perm fs ∧ List.Forall₂ (fun e e' => e' = e ∨ e' = e.swap) fs es'

/-- What is true of the equations of a list, whichever way round they are written, is true
of those of a reordered one. -/
theorem Reordered.forall_iff {es es' : List Equation} (h : Reordered es es')
    {P : Equation → Prop} (hP : ∀ e, P e.swap ↔ P e) : (∀ e ∈ es, P e) ↔ ∀ e ∈ es', P e := by
  obtain ⟨fs, hperm, hturned⟩ := h
  have hfs : (∀ e ∈ es, P e) ↔ ∀ e ∈ fs, P e :=
    forall_congr' fun e => imp_congr_left hperm.mem_iff
  rw [hfs]
  clear hperm hfs
  induction hturned with
  | nil => simp
  | @cons e e' fs es' he _ ih =>
    have hfirst : P e ↔ P e' := by
      rcases he with rfl | rfl
      · rfl
      · exact (hP e).symm
    rw [List.forall_mem_cons, List.forall_mem_cons]
    exact and_congr hfirst ih

theorem Reordered.solves_iff {es es' : List Equation} (h : Reordered es es') (θ : Assignment) :
    θ.Solves es ↔ θ.Solves es' :=
  h.forall_iff fun _ => eq_comm

theorem Reordered.binderFree_iff {es es' : List Equation} (h : Reordered es es') :
    BinderFree es ↔ BinderFree es' :=
  h.forall_iff fun _ => and_comm

end Equation

section
variable {es es' : List Equation} (hb : Equation.BinderFree es) (hb' : Equation.BinderFree es')
  (hsame : ∀ θ : Assignment, θ.Solves es ↔ θ.Solves es')
include hb hb' hsame

/-- Where a list has a solution, so has every list that the same assignments solve, and it
is an instance of that one. -/
theorem Solution.resolve_apply_resolve {s : Solution} (hs : unify es = .ok s) :
    ∃ s', unify es' = .ok s' ∧
      ∀ t, s.resolve t = (s'.resolve t).apply fun x => s.resolve (.var x) := by
  have hapart : Equation.Apart es := fun x hx => absurd hx (hb.not_mem_binders x)
  obtain ⟨s', hs', hagree⟩ :=
    unify_complete_of_binderFree hb' ((hsame _).1 (unify_resolve_solves hapart hs))
  refine ⟨s', hs', fun t => ?_⟩
  rw [apply_resolve hagree, ← resolve_eq_apply]

theorem unify_canonical_eq {s s' : Solution} (hs : unify es = .ok s) (hs' : unify es' = .ok s')
    {t : Ty} (ht : t.binders = []) : (s.resolve t).canonical = (s'.resolve t).canonical := by
  obtain ⟨_, hfound, hinst⟩ := Solution.resolve_apply_resolve hb hb' hsame hs
  obtain ⟨_, hfound', hinst'⟩ :=
    Solution.resolve_apply_resolve hb' hb (fun θ => (hsame θ).symm) hs'
  cases hs'.symm.trans hfound
  cases hs.symm.trans hfound'
  exact Ty.canonical_eq_of_instances (Solution.binders_resolve (unify_binders hb hs) ht)
    (hinst' t) (hinst t)

end

/-- **Unification does not depend on the order of the equations or of their sides.**  Where
no equation holds a binder, a reordered list has a solution if and only if the list itself
does, and every type without a binder resolves to the same canonical form under both. -/
theorem unify_reordered (es es' : List Equation)
    (hes : ∀ e ∈ es, e.left.binders = [] ∧ e.right.binders = [])
    (h : Equation.Reordered es es') :
    ((∃ s, unify es = .ok s) ↔ ∃ s', unify es' = .ok s') ∧
      ∀ s s', unify es = .ok s → unify es' = .ok s' → ∀ t : Ty, t.binders = [] →
        (s.resolve t).canonical = (s'.resolve t).canonical := by
  have hes' : Equation.BinderFree es' := h.binderFree_iff.1 hes
  refine ⟨⟨?_, ?_⟩, fun s s' hs hs' t ht => ?_⟩
  · rintro ⟨s, hs⟩
    obtain ⟨s', hs', -⟩ := Solution.resolve_apply_resolve hes hes' h.solves_iff hs
    exact ⟨s', hs'⟩
  · rintro ⟨s', hs'⟩
    obtain ⟨s, hs, -⟩ :=
      Solution.resolve_apply_resolve hes' hes (fun θ => (h.solves_iff θ).symm) hs'
    exact ⟨s, hs⟩
  · exact unify_canonical_eq hes hes' h.solves_iff hs hs' ht

/-- Two runs that solve different variables, and solve one of them by different types. -/
theorem unify_reordered_chain :
    let es : List Equation := [⟨.var "1", .var "2"⟩, ⟨.list (.var "3"), .var "1"⟩]
    let es' : List Equation := [⟨.var "1", .list (.var "3")⟩, ⟨.var "2", .var "1"⟩]
    let s : Solution := [("1", .var "2"), ("2", .list (.var "3"))]
    let s' : Solution := [("1", .list (.var "3")), ("2", .list (.var "3"))]
    Equation.Reordered es es' ∧ unify es = .ok s ∧ unify es' = .ok s' ∧
      ∀ t : Ty, t.binders = [] → (s.resolve t).canonical = (s'.resolve t).canonical := by
  intro es es' s s'
  have horder : Equation.Reordered es es' :=
    ⟨[⟨.list (.var "3"), .var "1"⟩, ⟨.var "1", .var "2"⟩], .swap _ _ _,
      .cons (.inr rfl) (.cons (.inr rfl) .nil)⟩
  have hs : unify es = .ok s := by cbv
  have hs' : unify es' = .ok s' := by cbv
  exact ⟨horder, hs, hs', (unify_reordered es es' (by decide) horder).2 s s' hs hs'⟩

end LetPoly
