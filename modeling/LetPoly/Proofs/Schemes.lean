import LetPoly.Proofs.Runs

/-! # Instances of schemes

Under an assignment of its free variables a scheme stands for its **instances**: the
types that arise when its bound variables are given monotypes.  `instantiate` and
`generalize` are described by what they do to instances:

* an instance that `instantiate` makes becomes, under every assignment, an instance
  of the scheme, and every instance of the scheme arises from it by assigning the
  fresh variables suitably (`Infer.gives_instantiate`);
* the instances of the scheme that `generalize` makes are the resolved type with the
  generalised variables assigned at will (`Infer.gives_generalize`).

Nothing else about the two is used later: in particular no proof looks at the names
that a scheme binds.
-/

namespace LetPoly

namespace Ty

/-- **The instances of a scheme** under an assignment of its free variables. -/
def Instance (θ : Assignment) : Ty → Ty → Prop
  | .poly b t, τ => ∃ u : Ty, u.Mono ∧ Instance (θ.set b u) t τ
  | t, τ => τ = t.apply θ

theorem instance_poly {θ : Assignment} {b : String} {t τ : Ty} :
    (poly b t).Instance θ τ ↔ ∃ u : Ty, u.Mono ∧ t.Instance (θ.set b u) τ := Iff.rfl

theorem Mono.instance_iff {θ : Assignment} {t τ : Ty} (h : t.Mono) :
    t.Instance θ τ ↔ τ = t.apply θ := by
  cases t with
  | poly => exact h.elim
  | _ => exact Iff.rfl

/-- Only the free variables of a scheme count. -/
theorem Prenex.instance_congr {θ θ' : Assignment} {σ τ : Ty} (hσ : σ.Prenex)
    (h : ∀ x ∈ σ.freeOccurrences, θ x = θ' x) (hi : σ.Instance θ τ) : σ.Instance θ' τ := by
  induction hσ generalizing θ θ' with
  | mono hm =>
    rw [hm.instance_iff] at hi ⊢
    rw [hm.freeOccurrences_eq] at h
    rw [hi, apply_congr h]
  | @poly b t _ ih =>
    obtain ⟨u, hu, hi⟩ := hi
    refine ⟨u, hu, ih (fun x hx => ?_) hi⟩
    by_cases hxb : x = b
    · subst hxb
      simp
    · rw [Assignment.set_of_ne _ _ hxb, Assignment.set_of_ne _ _ hxb]
      exact h x (List.mem_filter.2 ⟨hx, by simpa using hxb⟩)

/-- What a free variable is given occurs in every instance. -/
theorem Prenex.occurrences_of_instance {θ : Assignment} {σ τ : Ty} (hσ : σ.Prenex)
    (hi : σ.Instance θ τ) {x y : String} (hx : x ∈ σ.freeOccurrences)
    (hy : y ∈ (θ x).occurrences) : y ∈ τ.occurrences := by
  induction hσ generalizing θ with
  | mono hm =>
    rw [hm.instance_iff.1 hi]
    rw [hm.freeOccurrences_eq] at hx
    exact mem_occurrences_apply.2 ⟨x, hx, hy⟩
  | @poly b t _ ih =>
    obtain ⟨u, _, hi⟩ := hi
    obtain ⟨hx, hne⟩ := List.mem_filter.1 hx
    refine ih hi hx ?_
    rwa [Assignment.set_of_ne _ _ (by simpa using hne)]

/-! ## Renaming a variable in a scheme -/

theorem rename_poly_self (t : Ty) (b x : String) : (poly b t).rename b x = poly b t := by
  simp [rename, replace, subst]

theorem rename_poly_of_ne (t : Ty) {b c : String} (x : String) (h : b ≠ c) :
    (poly c t).rename b x = poly c (t.rename b x) := by
  have hf : [(b, var x)].filter (·.1 != c) = [(b, var x)] := by simp [h]
  simp only [rename, replace, subst, hf]

theorem Mono.rename_eq_apply {t : Ty} (ht : t.Mono) (b x : String) :
    t.rename b x = t.apply (.single b (.var x)) :=
  replace_eq_apply _ (by simp [ht.binders_eq_nil])

theorem Mono.rename {t : Ty} (ht : t.Mono) (b x : String) : (t.rename b x).Mono := by
  rw [ht.rename_eq_apply]
  exact ht.apply (Assignment.isMono_var.set b trivial)

theorem Prenex.rename {σ : Ty} (hσ : σ.Prenex) (b x : String) :
    (σ.rename b x).Prenex ∧ (σ.rename b x).binders = σ.binders := by
  induction hσ with
  | mono hm =>
    have hr := hm.rename b x
    exact ⟨.mono hr, by rw [hr.binders_eq_nil, hm.binders_eq_nil]⟩
  | @poly c t ht ih =>
    by_cases hc : b = c
    · rw [hc, rename_poly_self]
      exact ⟨.poly c ht, rfl⟩
    · rw [rename_poly_of_ne _ _ hc]
      exact ⟨.poly c ih.1, congrArg (c :: ·) ih.2⟩

/-- What is free after a renaming was free and not renamed, or is the new name. -/
theorem Prenex.mem_freeOccurrences_rename {σ : Ty} (hσ : σ.Prenex) {b x y : String}
    (h : y ∈ (σ.rename b x).freeOccurrences) : (y ∈ σ.freeOccurrences ∧ y ≠ b) ∨ y = x := by
  induction hσ with
  | mono hm =>
    rw [(hm.rename b x).freeOccurrences_eq, hm.rename_eq_apply, mem_occurrences_apply] at h
    obtain ⟨z, hz, hy⟩ := h
    by_cases hzb : z = b
    · subst hzb
      simp only [Assignment.single, Assignment.set_self, occurrences, List.mem_singleton] at hy
      exact .inr hy
    · simp only [Assignment.single, Assignment.set_of_ne _ _ hzb, occurrences,
        List.mem_singleton] at hy
      subst hy
      exact .inl ⟨hm.freeOccurrences_eq ▸ hz, hzb⟩
  | @poly c t _ ih =>
    by_cases hc : b = c
    · rw [hc, rename_poly_self] at h
      refine .inl ⟨h, ?_⟩
      rw [hc]
      simpa using (List.mem_filter.1 h).2
    · rw [rename_poly_of_ne _ _ hc] at h
      obtain ⟨h, hyc⟩ := List.mem_filter.1 h
      rcases ih h with ⟨hf, hne⟩ | rfl
      · exact .inl ⟨List.mem_filter.2 ⟨hf, hyc⟩, hne⟩
      · exact .inr rfl

/-- Renaming a variable to one that the scheme does not bind is giving it what the
other one is given. -/
theorem Prenex.instance_rename {θ : Assignment} {σ τ : Ty} (hσ : σ.Prenex) {b x : String}
    (hx : x ∉ σ.binders) : (σ.rename b x).Instance θ τ ↔ σ.Instance (θ.set b (θ x)) τ := by
  induction hσ generalizing θ with
  | @mono t hm =>
    have heq : (t.rename b x).apply θ = t.apply (θ.set b (θ x)) := by
      rw [hm.rename_eq_apply, apply_apply]
      refine apply_congr fun y _ => ?_
      by_cases hy : y = b
      · subst hy
        simp [Assignment.single]
      · rw [Assignment.single, Assignment.set_of_ne _ _ hy, Assignment.set_of_ne _ _ hy, apply_var]
    rw [hm.instance_iff, (hm.rename b x).instance_iff, heq]
  | @poly c t ht ih =>
    simp only [binders, List.mem_cons, not_or] at hx
    by_cases hc : b = c
    · subst hc
      rw [rename_poly_self, instance_poly, instance_poly]
      simp only [Assignment.set_set]
    · rw [rename_poly_of_ne _ _ hc, instance_poly, instance_poly]
      simp only [ih hx.2, Assignment.set_of_ne _ _ hx.1, Assignment.set_comm θ _ _ (Ne.symm hc)]

/-! ## Binding variables around a type -/

theorem Mono.bindAll {t : Ty} (ht : t.Mono) (names : List String) :
    (bindAll names t).Prenex ∧ (bindAll names t).binders = names ∧
      (bindAll names t).occurrences = t.occurrences := by
  induction names with
  | nil => exact ⟨.mono ht, ht.binders_eq_nil, rfl⟩
  | cons x xs ih => exact ⟨.poly x ih.1, congrArg (x :: ·) ih.2.1, ih.2.2⟩

/-- The instances of a type under binders are those of the type, with what is bound
given monotypes at will. -/
theorem instance_bindAll {names : List String} {θ : Assignment} {t τ : Ty} :
    (bindAll names t).Instance θ τ ↔
      ∃ δ : Assignment, δ.IsMono ∧ t.Instance (θ.override names δ) τ := by
  induction names generalizing θ with
  | nil =>
    have h : ∀ δ : Assignment, θ.override [] δ = θ := fun δ => by
      funext y
      simp [Assignment.override]
    simp only [h, bindAll, List.foldr_nil]
    refine ⟨fun hi => ⟨.var, Assignment.isMono_var, hi⟩, ?_⟩
    rintro ⟨_, _, hi⟩
    exact hi
  | cons x xs ih =>
    show (poly x (bindAll xs t)).Instance θ τ ↔ _
    rw [instance_poly]
    constructor
    · rintro ⟨u, hu, hi⟩
      obtain ⟨δ, hδ, hi⟩ := ih.1 hi
      -- a name that is bound twice takes what the inner binder gives it
      have heq : θ.override (x :: xs) (Assignment.override (fun _ => u) xs δ) =
          (θ.set x u).override xs δ := by
        funext y
        by_cases hys : y ∈ xs
        · simp [Assignment.override, hys]
        · by_cases hy : y = x <;> simp [Assignment.override, Assignment.set, hys, hy]
      exact ⟨_, Assignment.IsMono.override (fun _ => hu) xs hδ, by rwa [heq]⟩
    · rintro ⟨δ, hδ, hi⟩
      refine ⟨δ x, hδ x, ih.2 ⟨δ, hδ, ?_⟩⟩
      have heq : (θ.set x (δ x)).override xs δ = θ.override (x :: xs) δ := by
        funext y
        by_cases hy : y = x <;> simp [Assignment.override, Assignment.set, hy]
      rwa [heq]

end Ty

theorem TypeEnv.mem_freeVars_map {env : TypeEnv} {f : Ty → Ty} {x : String} :
    x ∈ (env.map f).freeVars ↔ ∃ p ∈ env.bindings, x ∈ (f p.2).freeOccurrences := by
  simp only [map, freeVars, Ty.freeVars, List.mem_flatMap, List.mem_map, List.mem_eraseDups]
  exact ⟨fun ⟨_, ⟨p, hp, rfl⟩, hx⟩ => ⟨p, hp, hx⟩, fun ⟨p, hp, hx⟩ => ⟨_, ⟨p, hp, rfl⟩, hx⟩⟩

namespace Infer

/-! ## Instantiation -/

theorem instantiate_poly (b : String) (t : Ty) :
    instantiate (.poly b t) = freshName >>= fun x => instantiate (t.rename b x) := by
  rw [instantiate]

theorem built_instantiate (σ : Ty) : Built (instantiate σ) := by
  induction σ using instantiate.induct with
  | case1 b t ih =>
    rw [instantiate_poly]
    exact .bind .freshName ih
  | case2 t h =>
    rw [instantiate.eq_2 t h]
    exact .pure t

theorem steady_instantiate (σ : Ty) : Steady (instantiate σ) := (built_instantiate σ).steady

theorem instantiate_gives (σ : Ty) (st : State) : ∃ t st', Gives (instantiate σ) st t st' := by
  induction σ using instantiate.induct generalizing st with
  | case1 b t ih =>
    obtain ⟨u, st', h⟩ := ih st.supply.fresh.1 { st with supply := st.supply.fresh.2 }
    exact ⟨u, st', by rw [instantiate_poly, gives_bind]; exact ⟨_, _, outcome_freshName st, h⟩⟩
  | case2 t h => exact ⟨t, st, by rw [instantiate.eq_2 t h, gives_pure]; exact ⟨rfl, rfl⟩⟩

/-- The monotype is an instance of the scheme in the most general way: over the
scheme's free variables and those of a stretch of its own. -/
structure Instantiates (m n : Nat) (σ t : Ty) : Prop where
  range : t.Over fun x => x ∈ σ.freeOccurrences ∨ Minted m n x
  sound : ∀ θ : Assignment, θ.IsMono → σ.Instance θ (t.apply θ)
  complete : ∀ (θ : Assignment) (τ : Ty), θ.IsMono → σ.Instance θ τ →
    ∃ θ' : Assignment, θ'.IsMono ∧ θ.Extends m θ' ∧ t.apply θ' = τ

theorem gives_instantiate {σ t : Ty} {b : Nat} {st st' : State}
    (h : Gives (instantiate σ) st t st') (hb : st.From b) (hfit : st'.number b ≤ Supply.capacity)
    (hσ : σ.Prenex) (hbinders : ∀ x ∈ σ.binders, Older (st.number b) x)
    (hfree : ∀ x ∈ σ.freeOccurrences, Older (st.number b) x) :
    Instantiates (st.number b) (st'.number b) σ t := by
  induction σ using instantiate.induct generalizing st with
  | case1 c σ ih =>
    rw [instantiate_poly, gives_bind] at h
    obtain ⟨x, st₁, hx, h⟩ := h
    obtain ⟨hb₁, -⟩ := hx.leads steady_freshName hb
    obtain ⟨-, hle⟩ := h.leads (steady_instantiate _) hb₁
    obtain ⟨hxeq, hn⟩ := gives_freshName hx hb (Nat.le_trans hle hfit)
    have hxm : Minted (st.number b) (st₁.number b) x := hx.minted hb (Nat.le_trans hle hfit)
    cases hσ with
    | mono hm => exact hm.elim
    | poly _ hσ =>
    -- the fresh name is newer than everything the scheme binds
    have hxb : x ∉ σ.binders := fun hmem =>
      (hbinders x (List.mem_cons_of_mem _ hmem)).not_minted hxm
    have hxf : x ∉ (Ty.poly c σ).freeOccurrences := fun hmem => (hfree x hmem).not_minted hxm
    obtain ⟨hp, hpb⟩ := hσ.rename c x
    have hren : ∀ y ∈ (σ.rename c x).freeOccurrences,
        y ∈ (Ty.poly c σ).freeOccurrences ∨ y = x := by
      intro y hy
      refine (hσ.mem_freeOccurrences_rename hy).imp_left fun hy => ?_
      exact List.mem_filter.2 ⟨hy.1, by simpa using hy.2⟩
    have hold : ∀ y ∈ (σ.rename c x).freeOccurrences, Older (st₁.number b) y := by
      intro y hy
      rcases hren y hy with hy | rfl
      · exact (hfree y hy).widen (by omega)
      · exact hxm.older
    obtain ⟨hover, hsound, hcomplete⟩ := ih x h hb₁ hp
      (fun y hy => (hbinders y (List.mem_cons_of_mem _ (hpb ▸ hy))).widen (by omega)) hold
    refine ⟨hover.imp fun y hy => ?_, fun θ hθ => ?_, fun θ τ hθ hi => ?_⟩
    · rcases hy with hy | hy
      · rcases hren y hy with hy | rfl
        · exact .inl hy
        · exact .inr (hxm.widen (Nat.le_refl _) hle)
      · exact .inr (hy.widen (by omega) (Nat.le_refl _))
    · exact ⟨θ x, hθ x, (hσ.instance_rename hxb).1 (hsound θ hθ)⟩
    · obtain ⟨u, hu, hi⟩ := hi
      have hi' : (σ.rename c x).Instance (θ.set x u) τ := by
        rw [hσ.instance_rename hxb, Assignment.set_self]
        refine hσ.instance_congr (fun y hy => ?_) hi
        by_cases hyc : y = c
        · simp [hyc]
        · have hyx : y ≠ x := fun heq =>
            hxf (heq ▸ List.mem_filter.2 ⟨hy, by simpa using hyc⟩)
          simp only [Assignment.set_of_ne _ _ hyc, Assignment.set_of_ne _ _ hyx]
      obtain ⟨θ', hθ', hagree, heq⟩ := hcomplete _ τ (hθ.set x hu) hi'
      refine ⟨θ', hθ', fun y hy => ?_, heq⟩
      rw [hagree y (hy.widen (by omega)), Assignment.set_of_ne]
      rintro rfl
      exact hy.not_minted hxm
  | case2 t' hnp =>
    rw [instantiate.eq_2 t' hnp, gives_pure] at h
    obtain ⟨rfl, rfl⟩ := h
    cases hσ with
    | poly c _ => exact (hnp c _ rfl).elim
    | mono hm =>
      exact ⟨⟨hm, fun x hx => .inl (hm.freeOccurrences_eq ▸ hx)⟩,
        fun θ _ => hm.instance_iff.2 rfl,
        fun θ τ hθ hi => ⟨θ, hθ, .refl _ _, (hm.instance_iff.1 hi).symm⟩⟩

/-! ## Generalisation -/

/-- The assignment that gives variables new names, position by position. -/
def relabel (vars names : List String) : Assignment :=
  fun x => ((vars.zip (names.map .var)).lookup x).getD (.var x)

/-- Where the new names are distinct, a new name leads back to its variable. -/
theorem relabel_of_mem {vars names : List String} (hnodup : names.Nodup)
    (hlen : vars.length = names.length) {x : String} (hx : x ∈ vars) :
    ∃ y ∈ names, relabel vars names x = .var y ∧ (names.zip vars).lookup y = some x := by
  induction vars generalizing names with
  | nil => simp at hx
  | cons x' vars ih =>
    cases names with
    | nil => simp at hlen
    | cons y' names =>
      obtain ⟨hy', hnodup⟩ := List.nodup_cons.1 hnodup
      by_cases hxx : x = x'
      · subst hxx
        exact ⟨y', by simp, by simp [relabel], by simp⟩
      · obtain ⟨y, hy, hxy, hyx⟩ :=
          ih hnodup (by simpa using hlen) ((List.mem_cons.1 hx).resolve_left hxx)
        have hyy : y ≠ y' := fun heq => hy' (heq ▸ hy)
        refine ⟨y, List.mem_cons_of_mem _ hy, ?_, ?_⟩
        · simpa [relabel, List.lookup_cons, beq_false_of_ne hxx] using hxy
        · simpa [List.lookup_cons, beq_false_of_ne hyy] using hyx

theorem relabel_of_not_mem {vars : List String} (names : List String) {x : String}
    (hx : x ∉ vars) : relabel vars names x = .var x := by
  have hnone : (vars.zip (names.map Ty.var)).lookup x = none := by
    rw [List.lookup_eq_none_iff]
    intro p hp
    have hmem : p.1 ∈ vars := (List.of_mem_zip hp).1
    simpa using fun heq : x = p.1 => hx (heq ▸ hmem)
  rw [relabel, hnone, Option.getD_none]

theorem isMono_relabel {vars names : List String} (hnodup : names.Nodup)
    (hlen : vars.length = names.length) : (relabel vars names).IsMono := by
  intro x
  by_cases hx : x ∈ vars
  · obtain ⟨y, _, hy, _⟩ := relabel_of_mem hnodup hlen hx
    rw [hy]
    trivial
  · rw [relabel_of_not_mem names hx]
    trivial

/-- The variables that are generalised under a solution: those of the resolved type
that are not free in the resolved environment. -/
def generalized (s : Solution) (env : TypeEnv) (t : Ty) : List String :=
  (s.resolve t).freeVars.filter (· ∉ (env.map s.resolve).freeVars)

theorem mem_generalized {s : Solution} {env : TypeEnv} {t : Ty} {x : String} :
    x ∈ generalized s env t ↔ x ∈ (s.resolve t).freeOccurrences ∧
      ∀ p ∈ env.bindings, x ∉ (s.resolve p.2).freeOccurrences := by
  rw [generalized, List.mem_filter, decide_eq_true_eq, TypeEnv.mem_freeVars_map, Ty.freeVars,
    List.mem_eraseDups]
  simp only [not_exists, not_and]

/-- The generalised variables are given new names, which are then bound. -/
theorem generalize_eq (E : List Equation) (env : TypeEnv) (t : Ty) :
    generalize E env t = do
      let s ← solve E
      let vars := generalized s env t
      let names ← freshNames vars.length
      let σ := Ty.bindAll names.reverse ((s.resolve t).subst (vars.zip (names.map .var)))
      tell (.generalized E.length s.length vars σ)
      return σ := by
  simp only [Ty.bindAll, List.foldr_reverse]
  rfl

theorem built_generalize (eqs : List Equation) (env : TypeEnv) (t : Ty) :
    Built (generalize eqs env t) :=
  .bind (.solve eqs) fun _ => .bind (.freshNames _) fun _ => .bind (.tell _) fun _ => .pure _

theorem steady_generalize (eqs : List Equation) (env : TypeEnv) (t : Ty) :
    Steady (generalize eqs env t) :=
  (built_generalize eqs env t).steady

theorem generalize_gives {eqs : List Equation} {s : Solution} (hs : unify eqs = .ok s)
    (env : TypeEnv) (t : Ty) (st : State) : ∃ σ st', Gives (generalize eqs env t) st σ st' := by
  simp only [generalize, gives_bind, gives_solve]
  exact ⟨_, _, s, st, ⟨hs, rfl⟩, _, _, outcome_freshNames _ st, _, _, outcome_tell _ _,
    gives_pure.2 ⟨rfl, rfl⟩⟩

/-- The scheme stands for a type with some variables generalised; it binds variables
of a stretch of its own. -/
structure Generalizes (m n : Nat) (vars : List String) (t σ : Ty) : Prop where
  prenex : σ.Prenex
  binders : ∀ x ∈ σ.binders, Minted m n x
  free : ∀ x ∈ σ.freeOccurrences, x ∈ t.occurrences ∧ x ∉ vars
  instance_iff : ∀ (θ : Assignment) (τ : Ty), σ.Instance θ τ ↔
    ∃ δ : Assignment, δ.IsMono ∧ τ = t.apply (θ.override vars δ)

/-- Giving the generalised variables new names and binding those. -/
theorem generalizes_bindAll {m n : Nat} {vars names : List String} {t : Ty}
    (ht : t.Over (Older m)) (hlen : vars.length = names.length) (hnodup : names.Nodup)
    (hminted : ∀ x ∈ names, Minted m n x) :
    Generalizes m n vars t (Ty.bindAll names.reverse (t.apply (relabel vars names))) := by
  have hold : ∀ x ∈ t.occurrences, x ∉ names := fun x hx hn =>
    (ht.2 x hx).not_minted (hminted x hn)
  have hbody : (t.apply (relabel vars names)).Mono := ht.mono.apply (isMono_relabel hnodup hlen)
  obtain ⟨hprenex, hbinders, hocc⟩ := hbody.bindAll names.reverse
  refine ⟨hprenex, fun x hx => hminted x (by simpa [hbinders] using hx), fun x hx => ?_,
    fun θ τ => ?_⟩
  · obtain ⟨hx, hxb⟩ := hprenex.mem_freeOccurrences.1 hx
    rw [hocc, Ty.mem_occurrences_apply] at hx
    obtain ⟨z, hz, hx⟩ := hx
    by_cases hzv : z ∈ vars
    · obtain ⟨y, hy, hzy, _⟩ := relabel_of_mem hnodup hlen hzv
      rw [hzy, Ty.occurrences, List.mem_singleton] at hx
      exact absurd (by simpa [hbinders, hx] using hy) hxb
    · rw [relabel_of_not_mem names hzv, Ty.occurrences, List.mem_singleton] at hx
      exact hx ▸ ⟨hz, hzv⟩
  · -- an assignment of the new names is one of the generalised variables, and back
    have happly : ∀ δ δ' : Assignment, (∀ x ∈ vars, (relabel vars names x).apply δ = δ' x) →
        (t.apply (relabel vars names)).apply (θ.override names δ) =
          t.apply (θ.override vars δ') := by
      intro δ δ' hδ
      rw [Ty.apply_apply]
      refine Ty.apply_congr fun x hx => ?_
      by_cases hxv : x ∈ vars
      · obtain ⟨y, hy, hxy, _⟩ := relabel_of_mem hnodup hlen hxv
        have hδx := hδ x hxv
        rw [hxy, Ty.apply_var] at hδx ⊢
        rw [Assignment.override_of_mem hy, Assignment.override_of_mem hxv, hδx]
      · rw [relabel_of_not_mem names hxv, Ty.apply_var,
          Assignment.override_of_not_mem (hold x hx), Assignment.override_of_not_mem hxv]
    have hreverse : ∀ δ : Assignment, θ.override names.reverse δ = θ.override names δ := fun δ => by
      funext y
      simp [Assignment.override]
    simp only [Ty.instance_bindAll, hreverse, hbody.instance_iff]
    constructor
    · rintro ⟨δ, hδ, rfl⟩
      exact ⟨fun x => (relabel vars names x).apply δ,
        fun x => (isMono_relabel hnodup hlen x).apply hδ, happly _ _ fun _ _ => rfl⟩
    · rintro ⟨δ, hδ, rfl⟩
      refine ⟨fun y => δ (((names.zip vars).lookup y).getD y), fun _ => hδ _,
        (happly _ _ fun x hxv => ?_).symm⟩
      obtain ⟨y, _, hxy, hback⟩ := relabel_of_mem hnodup hlen hxv
      rw [hxy, Ty.apply_var, hback, Option.getD_some]

/-- What a run of `generalize` did: the equations were solved, and every variable to be
generalised was given a name of its own. -/
theorem generalize_names {eqs : List Equation} {env : TypeEnv} {t σ : Ty} {b : Nat}
    {st st' : State} (h : Gives (generalize eqs env t) st σ st') (hb : st.From b)
    (hfit : st'.number b ≤ Supply.capacity) :
    ∃ (s : Solution) (names : List String), unify eqs = .ok s ∧
      names.length = (generalized s env t).length ∧ names.Nodup ∧
      (∀ x ∈ names, Minted (st.number b) (st'.number b) x) ∧
      σ = .bindAll names.reverse
        ((s.resolve t).subst ((generalized s env t).zip (names.map .var))) := by
  simp only [generalize_eq, gives_bind, gives_solve, gives_pure] at h
  obtain ⟨s, _, ⟨hs, rfl⟩, names, st₁, hnames, _, _, htell, rfl, rfl⟩ := h
  simp only [Gives, outcome_tell, Prod.mk.injEq, true_and] at htell
  subst htell
  obtain ⟨hlen, hnodup, hminted⟩ := gives_freshNames hnames hb hfit
  exact ⟨s, names, hs, hlen, hnodup, hminted, rfl⟩

theorem gives_generalize {eqs : List Equation} {env : TypeEnv} {t σ : Ty} {b : Nat}
    {st st' : State} (h : Gives (generalize eqs env t) st σ st') (hb : st.From b)
    (hfit : st'.number b ≤ Supply.capacity) :
    ∃ s, unify eqs = .ok s ∧
      ((s.resolve t).Over (Older (st.number b)) →
        Generalizes (st.number b) (st'.number b) (generalized s env t) (s.resolve t) σ) := by
  obtain ⟨s, names, hs, hlen, hnodup, hminted, rfl⟩ := generalize_names h hb hfit
  refine ⟨s, hs, fun hover => ?_⟩
  rw [hover.mono.subst_eq_apply]
  exact generalizes_bindAll hover hlen.symm hnodup hminted

end Infer

end LetPoly
