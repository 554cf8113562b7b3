import LetPoly.Proofs.EquationOrder
import LetPoly.Proofs.Instantiation

/-! # The variables of a generalised scheme

Generalising a type solves its equations, gives new names to those variables of the resolved
type that are not free in the resolved environment, and binds the new names
(`Infer.gives_generalize_names`).  The names are taken from the supply, so that as long as
numbers last they are nowhere in the equations, the type and the environment.  The scheme
then binds exactly the generalised variables, and an instance of it is the resolved type
with these renamed again (`Context.generalize_binds`).

Where the numbers run out, a new name may be that of a variable that is to stay free: it is
then bound (`Context.generalize_wraps`).
-/

namespace LetPoly

/-! ## Binding names around a type -/

namespace Ty

theorem mem_freeOccurrences_bindAll {names : List String} {t : Ty} {x : String} :
    x ∈ (bindAll names t).freeOccurrences ↔ x ∈ t.freeOccurrences ∧ x ∉ names := by
  induction names with
  | nil => simp [bindAll]
  | cons y names ih =>
    show x ∈ (bindAll names t).freeOccurrences.filter (· != y) ↔ _
    rw [List.mem_filter, ih, bne_iff_ne, List.mem_cons, not_or, and_assoc, and_comm (b := x ≠ y)]

theorem avoids_of_binders_eq_nil {u : Ty} (hu : u.binders = []) (f : String → String) :
    u.Avoids f := fun _ _ => .inr (hu ▸ List.not_mem_nil)

variable {bs names : List String}

/-- Where no name is bound twice, the names stand for the binders in their order. -/
theorem map_innermost (hnodup : bs.Nodup) (hlen : bs.length = names.length) :
    bs.map (innermost bs names) = names := by
  induction bs generalizing names with
  | nil => exact (List.length_eq_zero_iff.1 hlen.symm).symm
  | cons b bs ih =>
    cases names with
    | nil => cases hlen
    | cons y names =>
      obtain ⟨hb, hnodup⟩ := List.nodup_cons.1 hnodup
      have hlen : bs.length = names.length := Nat.succ.inj hlen
      have htail : bs.map (innermost (b :: bs) (y :: names)) = bs.map (innermost bs names) :=
        List.map_congr_left fun x hx => by rw [innermost_cons hlen, if_pos hx]
      rw [List.map_cons, innermost_cons hlen, if_neg hb, if_pos rfl, htail, ih hnodup hlen]

end Ty

namespace Infer

/-! ## Names for generalised variables -/

/-- **A renaming of some variables**: each has a new name of its own, which is not among
those to be avoided, and all others stay. -/
structure Renames (vars avoid : List String) (ρ : String → String) : Prop where
  others : ∀ x, x ∉ vars → ρ x = x
  nodup : (vars.map ρ).Nodup
  new : ∀ x ∈ vars, ρ x ∉ avoid

variable {vars names : List String}

theorem renames_innermost {avoid : List String} (hvars : vars.Nodup) (hnames : names.Nodup)
    (hlen : vars.length = names.length) (hnew : ∀ x ∈ avoid, x ∉ names) :
    Renames vars avoid (Ty.innermost vars names) where
  others _ hx := Ty.innermost_of_not_mem hx
  nodup := (Ty.map_innermost hvars hlen).symm ▸ hnames
  new _ hx hmem := hnew _ hmem (Ty.innermost_mem hlen hx)

/-- Once the new names are bound, what was not renamed is free. -/
theorem Renames.mem_freeOccurrences {avoid : List String} {ρ : String → String} {u : Ty}
    (hρ : Renames vars avoid ρ) (hu : u.binders = []) (havoid : u.freeOccurrences ⊆ avoid)
    {x : String} : x ∈ (Ty.bindAll (vars.map ρ).reverse (u.renameFree ρ)).freeOccurrences ↔
      x ∈ u.freeOccurrences ∧ x ∉ vars := by
  rw [Ty.mem_freeOccurrences_bindAll, List.mem_reverse,
    Ty.freeOccurrences_renameFree (Ty.avoids_of_binders_eq_nil hu ρ)]
  constructor
  · rintro ⟨hx, hnot⟩
    obtain ⟨y, hy, rfl⟩ := List.mem_map.1 hx
    have hyvars : y ∉ vars := fun hmem => hnot (List.mem_map_of_mem hmem)
    rw [hρ.others y hyvars]
    exact ⟨hy, hyvars⟩
  · rintro ⟨hx, hxvars⟩
    refine ⟨List.mem_map.2 ⟨x, hx, hρ.others x hxvars⟩, fun hmem => ?_⟩
    obtain ⟨y, hy, rfl⟩ := List.mem_map.1 hmem
    exact hρ.new y hy (havoid hx)

/-- Names for names: an instance renames the generalised variables to the names that are put
in for their binders, in the opposite order. -/
theorem renameFree_innermost_reverse {minted : List String} {u : Ty} (hvars : vars.Nodup)
    (hnames : names.Nodup) (hlen : vars.length = names.length)
    (hlen' : vars.length = minted.length) (hu : u.binders = [])
    (hnew : ∀ x ∈ u.freeOccurrences, x ∉ names) :
    (u.renameFree (Ty.innermost vars names)).renameFree (Ty.innermost names.reverse minted) =
      u.renameFree (Ty.innermost vars minted.reverse) := by
  have hmap : vars.map (Ty.innermost names.reverse minted ∘ Ty.innermost vars names) =
      vars.map (Ty.innermost vars minted.reverse) := by
    have hback := Ty.map_innermost (List.nodup_reverse.2 hnames)
      (show names.reverse.length = minted.length by rw [List.length_reverse, ← hlen, hlen'])
    rw [List.map_reverse] at hback
    rw [← List.map_map, Ty.map_innermost hvars hlen,
      Ty.map_innermost hvars (by rw [List.length_reverse, hlen'])]
    exact List.reverse_eq_iff.1 hback
  rw [Ty.renameFree_renameFree (Ty.avoids_of_binders_eq_nil hu _)]
  refine Ty.renameFree_congr fun x hx => ?_
  by_cases hxvars : x ∈ vars
  · exact List.map_inj_left.1 hmap x hxvars
  · have hxnames : x ∉ names.reverse := fun hmem => hnew x hx (List.mem_reverse.1 hmem)
    rw [Function.comp_apply, Ty.innermost_of_not_mem hxvars, Ty.innermost_of_not_mem hxnames,
      Ty.innermost_of_not_mem hxvars]

/-- Variables that are all different are renamed by the substitution of their names. -/
theorem relabel_eq_innermost (hnodup : vars.Nodup) (hlen : vars.length = names.length)
    (x : String) : relabel vars names x = .var (Ty.innermost vars names x) := by
  induction vars generalizing names with
  | nil => rfl
  | cons v vars ih =>
    cases names with
    | nil => cases hlen
    | cons y names =>
      obtain ⟨hv, hnodup⟩ := List.nodup_cons.1 hnodup
      have hlen : vars.length = names.length := Nat.succ.inj hlen
      rw [relabel, List.map_cons, List.zip_cons_cons, List.lookup_cons, Ty.innermost_cons hlen]
      by_cases hxv : x = v
      · rw [hxv, beq_self_eq_true, if_neg hv, if_pos rfl, Option.getD_some]
      · rw [beq_false_of_ne hxv, if_neg hxv]
        refine (ih hnodup hlen).trans (congrArg Ty.var ?_)
        by_cases hx : x ∈ vars
        · rw [if_pos hx]
        · rw [if_neg hx, Ty.innermost_of_not_mem hx]

theorem nodup_generalized (s : Solution) (env : TypeEnv) (t : Ty) :
    (generalized s env t).Nodup := (nodup_eraseDups _).filter _

/-- **What generalising gives**: the resolved type, with new names for the generalised
variables and these bound, the first innermost. -/
theorem gives_generalize_names {eqs : List Equation} {s : Solution} (hs : unify eqs = .ok s)
    (env : TypeEnv) (t : Ty) (st : State) :
    let vars := generalized s env t
    let names := (st.supply.freshList vars.length).1
    ∃ log, Gives (generalize eqs env t) st
      (.bindAll names.reverse ((s.resolve t).renameFree (Ty.innermost vars names)))
      { supply := st.supply.advance vars.length, log } := by
  intro vars names
  have hlen : vars.length = names.length := (Supply.length_freshList _ _).symm
  have hsubst : (s.resolve t).subst (vars.zip (names.map .var)) =
      (s.resolve t).renameFree (Ty.innermost vars names) :=
    Ty.subst_eq_renameFree (relabel_eq_innermost (nodup_generalized s env t) hlen)
  have hbind : names.foldl (fun t x => Ty.poly x t)
      ((s.resolve t).subst (vars.zip (names.map .var))) =
        .bindAll names.reverse ((s.resolve t).renameFree (Ty.innermost vars names)) := by
    rw [hsubst, Ty.bindAll, List.foldr_reverse]
  rw [← st.supply.freshList_snd]
  simp only [generalize, gives_bind, gives_solve]
  exact ⟨_, s, st, ⟨hs, rfl⟩, _, _, outcome_freshNames _ st, _, _, outcome_tell _ _,
    gives_pure.2 ⟨hbind, rfl⟩⟩

/-- All names in equations, in a type and in the schemes of an environment. -/
def mentioned (eqs : List Equation) (env : TypeEnv) (t : Ty) : List String :=
  eqs.flatMap Equation.occurrences ++ t.occurrences ++
    env.bindings.flatMap fun p => p.2.binders ++ p.2.occurrences

/-- Resolving a type brings in names of the equations only. -/
theorem mem_mentioned_of_resolve {eqs : List Equation} {s : Solution} (hs : unify eqs = .ok s)
    (heqs : Equation.BinderFree eqs) {env : TypeEnv} {t : Ty} {x : String}
    (hx : x ∈ (s.resolve t).occurrences) : x ∈ mentioned eqs env t := by
  refine List.mem_append_left _ (List.mem_append.2 ?_)
  rcases Solution.mem_occurrences_resolve hx with hx | ⟨p, hp, hx⟩
  · exact .inr hx
  · exact .inl (((unify_answers (fun y hy => absurd hy (heqs.not_mem_binders y)) hs).within p hp).2
      x hx)

end Infer

namespace Context

/-- An instance of a scheme that binds new names for some variables of a type is the type with
these variables renamed once more. -/
theorem instantiate_renamed {ctx : Context} {u : Ty} {vars names avoid : List String}
    (hu : u.binders = []) (hvars : vars.Nodup) (hnames : names.Nodup)
    (hlen : vars.length = names.length) (hnew : ∀ x ∈ u.freeOccurrences, x ∉ names)
    (hpast : ∀ x ∈ avoid ++ names, ctx.supply.Past x) (hroom : ctx.supply.Room vars.length) :
    ∃ v ctx' ρ, ctx.instantiate
        (.bindAll names.reverse (u.renameFree (Ty.innermost vars names))) = (.ok v, ctx') ∧
      Infer.Renames vars (avoid ++ names) ρ ∧ v = u.renameFree ρ := by
  let minted := (ctx.supply.freshList names.reverse.length).1
  have hcount : names.reverse.length = vars.length := by rw [List.length_reverse, hlen]
  have hroom : ctx.supply.Room names.reverse.length := hcount ▸ hroom
  have hminted : vars.length = minted.length :=
    hcount.symm.trans (Supply.length_freshList _ _).symm
  have hfresh : ∀ x ∈ avoid ++ names, x ∉ minted := fun x hx =>
    (hpast x hx).not_mem_freshList hroom
  have hbody : (u.renameFree (Ty.innermost vars names)).binders = [] := by
    rw [Ty.binders_renameFree, hu]
  have hne : ∀ b t, u.renameFree (Ty.innermost vars names) ≠ .poly b t := by
    intro b t heq
    rw [heq] at hbody
    cases hbody
  have hunbind := Ty.unbind_bindAll names.reverse hne
  refine ⟨_, _, Ty.innermost vars minted.reverse, instantiate_eq hunbind rfl fun x hx => ?_, ?_,
    Infer.renameFree_innermost_reverse hvars hnames hlen hminted hu hnew⟩
  · rw [← Ty.binders_unbind, hunbind, hbody, List.append_nil, List.mem_reverse] at hx
    exact hfresh x (List.mem_append_right _ hx)
  · refine Infer.renames_innermost hvars (List.nodup_reverse.2 (Supply.nodup_freshList hroom))
      (by rw [List.length_reverse, hminted]) fun x hx hmem => ?_
    exact hfresh x hx (List.mem_reverse.1 hmem)

/-- **Generalising binds exactly the right variables.**  While the numbers last, the scheme
of a type binds new names, one for each variable of the resolved type that is not free in the
resolved environment; those that are free in it stay free.  An instance of the scheme is the
resolved type with the generalised variables renamed once more. -/
theorem generalize_binds (ctx : Context) {env : TypeEnv} {eqs : List Equation} {t : Ty}
    {s : Solution} (hs : unify eqs = .ok s) (heqs : Equation.BinderFree eqs) (ht : t.binders = [])
    (hpast : ∀ x ∈ Infer.mentioned eqs env t, (ctx.resume env).supply.Past x)
    (hroom : (ctx.resume env).supply.Room (Infer.generalized s env t).length) :
    let kept := (env.map s.resolve).freeVars
    let vars := (s.resolve t).freeVars.filter (· ∉ kept)
    ∃ σ ctx' ρ, ctx.generalize env eqs t = (.ok σ, ctx') ∧
      Infer.Renames vars (Infer.mentioned eqs env t) ρ ∧
      σ = .bindAll (vars.map ρ).reverse ((s.resolve t).renameFree ρ) ∧
      (∀ x, x ∈ σ.freeVars ↔ x ∈ (s.resolve t).freeVars ∧ x ∈ kept) ∧
      ((ctx.resume env).supply.Room (vars.length + vars.length) →
        ∃ u ctx'' ρ', ctx'.instantiate σ = (.ok u, ctx'') ∧
          Infer.Renames vars (Infer.mentioned eqs env t ++ vars.map ρ) ρ' ∧
          u = (s.resolve t).renameFree ρ') := by
  intro kept vars
  let supply := (ctx.resume env).supply
  let names := (supply.freshList vars.length).1
  have hvars : vars.Nodup := Infer.nodup_generalized s env t
  have hnames : names.Nodup := Supply.nodup_freshList hroom
  have hlen : vars.length = names.length := (Supply.length_freshList _ _).symm
  have hnew : ∀ x ∈ Infer.mentioned eqs env t, x ∉ names := fun x hx =>
    (hpast x hx).not_mem_freshList hroom
  have hbinders : (s.resolve t).binders = [] := Solution.binders_resolve (unify_binders heqs hs) ht
  have hmentioned : (s.resolve t).freeOccurrences ⊆ Infer.mentioned eqs env t := fun x hx =>
    Infer.mem_mentioned_of_resolve hs heqs (Ty.mem_occurrences_of_free hx)
  have hρ := Infer.renames_innermost hvars hnames hlen hnew
  have hmap := Ty.map_innermost hvars hlen
  obtain ⟨log, hrun⟩ := Infer.gives_generalize_names hs env t ⟨supply, (ctx.resume env).log⟩
  refine ⟨_, _, Ty.innermost vars names, runPlain_of_gives hrun, hρ, by rw [hmap]; rfl,
    fun x => ?_, fun htwice => ?_⟩
  · have hfree := hρ.mem_freeOccurrences hbinders hmentioned (x := x)
    rw [hmap] at hfree
    rw [Ty.freeVars, List.mem_eraseDups, Ty.freeVars, List.mem_eraseDups]
    refine hfree.trans (and_congr_right fun hx => ?_)
    simp [vars, Ty.freeVars, List.mem_eraseDups, hx]
  · rw [hmap]
    refine instantiate_renamed hbinders hvars hnames hlen (fun x hx => hnew x (hmentioned hx))
      (fun x hx => ?_) htwice.advance
    exact (List.mem_append.1 hx).elim (fun hx => (hpast x hx).advance hroom)
      (Supply.past_of_mem_freshList hroom)

/-- The scheme of `a -> 2 -> b` where `b` is a list of `3`: the environment keeps `3` free. -/
theorem generalize_binds_list :
    let ctx : Context := { supply := { next := 7 } }
    let env : TypeEnv := { bindings := [("f", .poly "4" (.arrow (.var "4") (.var "3")))] }
    let eqs : List Equation := [⟨.var "b", .list (.var "3")⟩]
    let t : Ty := .arrow (.var "a") (.arrow (.var "2") (.var "b"))
    unify eqs = .ok [("b", .list (.var "3"))] ∧
      ∃ σ ctx', ∃ ρ : String → String, ctx.generalize env eqs t = (.ok σ, ctx') ∧ ρ "a" ≠ ρ "2" ∧
        σ = .poly (ρ "2") (.poly (ρ "a")
          (.arrow (.var (ρ "a")) (.arrow (.var (ρ "2")) (.list (.var "3"))))) ∧
        (∀ x, x ∈ σ.freeVars ↔ x = "3") ∧
        ∃ u ctx'', ∃ ρ₂ : String → String, ctx'.instantiate σ = (.ok u, ctx'') ∧
          ρ₂ "a" ≠ ρ₂ "2" ∧
          u = .arrow (.var (ρ₂ "a")) (.arrow (.var (ρ₂ "2")) (.list (.var "3"))) := by
  intro ctx env eqs t
  let s : Solution := [("b", .list (.var "3"))]
  have hs : unify eqs = .ok s := by cbv
  have hresolve : s.resolve t = .arrow (.var "a") (.arrow (.var "2") (.list (.var "3"))) := by cbv
  have hkept : (env.map s.resolve).freeVars = ["3"] := by cbv
  have hvars : Infer.generalized s env t = ["a", "2"] := by
    rw [Infer.generalized, hresolve, hkept]
    decide
  have hpast : ∀ x ∈ Infer.mentioned eqs env t, (ctx.resume env).supply.Past x := by
    decide +kernel
  have heqs : Equation.BinderFree eqs := by simp [Equation.BinderFree, eqs, Ty.binders]
  obtain ⟨σ, ctx', ρ, hσ, hρ, heq, hfree, hinstance⟩ :=
    generalize_binds ctx hs heqs rfl hpast (by rw [hvars]; decide)
  rw [show List.filter _ _ = ["a", "2"] from hvars] at hρ heq hinstance
  obtain ⟨u, ctx'', ρ₂, hu, hρ₂, huρ⟩ := hinstance (by decide)
  have hne : ρ "a" ≠ ρ "2" := by simpa using hρ.nodup
  have hne' : ρ₂ "a" ≠ ρ₂ "2" := by simpa using hρ₂.nodup
  rw [hresolve, hkept] at hfree
  refine ⟨hs, σ, ctx', ρ, hσ, hne, heq.trans ?_, fun x => (hfree x).trans ?_, u, ctx'', ρ₂, hu, hne',
    huρ.trans ?_⟩
  · rw [hresolve, Ty.renameFree, Ty.renameFree, Ty.renameFree, Ty.renameFree, Ty.renameFree,
      Ty.renameFree, hρ.others "3" (by decide)]
    rfl
  · refine ⟨fun h => List.mem_singleton.1 h.2, ?_⟩
    rintro rfl
    decide
  · rw [hresolve, Ty.renameFree, Ty.renameFree, Ty.renameFree, Ty.renameFree, Ty.renameFree,
      Ty.renameFree, hρ₂.others "3" (by decide)]

/-- **A new name may be that of a variable that is to stay free**, where the numbers run out:
after the largest comes the smallest, which is free in the environment. -/
theorem generalize_wraps :
    let ctx : Context := {}
    let env : TypeEnv :=
      { next := Int64.maxValue, bindings := [("x", .var "-9223372036854775808")] }
    let t : Ty := .arrow (.var "a") (.arrow (.var "b") (.var "-9223372036854775808"))
    let s : Solution := []
    let σ : Ty := .poly "-9223372036854775808" (.poly "9223372036854775807"
      (.arrow (.var "9223372036854775807")
        (.arrow (.var "-9223372036854775808") (.var "-9223372036854775808"))))
    unify [] = .ok s ∧ (∀ x ∈ Infer.mentioned [] env t, (ctx.resume env).supply.Past x) ∧
      (ctx.generalize env [] t).1 = .ok σ ∧ σ.freeVars = [] ∧
      (s.resolve t).freeVars = ["a", "b", "-9223372036854775808"] ∧
      (env.map s.resolve).freeVars = ["-9223372036854775808"] :=
  ⟨by cbv, by decide +kernel, by cbv, by decide, by cbv, by cbv⟩

end Context

end LetPoly
