import LetPoly.Proofs.Permutation
import LetPoly.Proofs.Schemes

/-! # Two runs side by side

Two runs of inference on one expression, in environments that differ in what the
expression does not refer to, take their variables from different numbers on.  Their
variables are **matched** by a permutation of names that grows with the runs
(`Matching`): ascribed variables match themselves, and whenever both runs take new
variables, the permutation is changed by swaps so that these match too.  No swap moves
a variable that either run has met (`Matching.At.extend`).

Types and equations of the two runs are the same up to the matching.  Solving keeps
them so, as unification commutes with permutations.  What is left are the two steps
that look at schemes:

* `instantiate_matched`: instances of schemes that match in their free variables.  The
  schemes may bind any names, and names that they bind twice or not use at all: fresh
  variables then arrive in another order, and the matching follows it;
* `generalize_matched`: the scheme of a definition.  The bindings around the expression
  keep the same variables from being generalised in both runs (`Matching.Around.kept_iff`):
  none, where nothing that is solved occurs in them, as they are closed; else they stand
  around both runs.
-/

namespace LetPoly

/-- A permutation can be changed to take new names to new names, by swapping each of
them into its place. -/
theorem exists_perm_extend (π : Equiv.Perm String) {P : String → Prop} {xs ys : List String}
    (hlen : xs.length = ys.length) (hxs : xs.Nodup) (hys : ys.Nodup)
    (hnew : ∀ z, P z → z ∉ xs ∧ π z ∉ ys) :
    ∃ ρ : Equiv.Perm String, (∀ z, P z → ρ z = π z) ∧ xs.map ρ = ys := by
  induction xs generalizing ys with
  | nil => exact ⟨π, fun _ _ => rfl, (List.length_eq_zero_iff.1 hlen.symm).symm⟩
  | cons x xs ih =>
    cases ys with
    | nil => cases hlen
    | cons y ys =>
      obtain ⟨hx, hxs⟩ := List.nodup_cons.1 hxs
      obtain ⟨hy, hys⟩ := List.nodup_cons.1 hys
      simp only [List.mem_cons, not_or] at hnew
      obtain ⟨ρ, hkeeps, hmap⟩ := ih (Nat.succ.inj hlen) hxs hys fun z hz =>
        ⟨(hnew z hz).1.2, (hnew z hz).2.2⟩
      -- what differs from `x` and is not taken to `y` stays where it is
      have hswap {z : String} (hzx : z ≠ x) (hzy : ρ z ≠ y) :
          ρ.trans (Equiv.swap (ρ x) y) z = ρ z :=
        Equiv.swap_apply_of_ne_of_ne (fun heq => hzx (ρ.injective heq)) hzy
      refine ⟨ρ.trans (Equiv.swap (ρ x) y), fun z hz => ?_, ?_⟩
      · rw [hswap (hnew z hz).1.1 (hkeeps z hz ▸ (hnew z hz).2.1), hkeeps z hz]
      · rw [List.map_cons, Equiv.trans_apply, Equiv.swap_apply_left, ← hmap]
        refine congrArg (y :: ·) (List.map_congr_left fun z hz => hswap ?_ ?_)
        · rintro rfl
          exact hx hz
        · rintro rfl
          exact hy (hmap ▸ List.mem_map_of_mem hz)

/-- What a run that has counted from `b` to `n` has met: ascribed variables, and those
that it has taken. -/
def Met (A : String → Prop) (b n : Nat) (x : String) : Prop := A x ∨ Minted b n x

theorem Met.widen {A : String → Prop} {b n n' : Nat} {x : String} (h : Met A b n x)
    (hn : n ≤ n') : Met A b n' x :=
  h.imp_right fun h => h.widen (Nat.le_refl _) hn

theorem Met.older {A : String → Prop} (hA : ∀ x, A x → Older 0 x) {b n : Nat} {x : String}
    (h : Met A b n x) : Older n x :=
  h.elim (fun h => (hA x h).widen (Nat.zero_le _)) Minted.older

theorem Ty.Over.names {P : String → Prop} {t : Ty} (h : t.Over P) :
    ∀ x ∈ t.binders ++ t.occurrences, P x := by
  rw [h.mono.binders_eq_nil]
  exact h.2

/-- **A matching of the variables of two runs**, the first counting from `b₁` on and
the second from `b₂` on, with ascribed variables as `A` says. -/
structure Matching (A : String → Prop) (b₁ b₂ : Nat) where
  perm : Equiv.Perm String
  /-- The number of the next variable of the first run. -/
  left : Nat
  /-- The number of the next variable of the second run. -/
  right : Nat
  fixes : ∀ x, A x → perm x = x

namespace Matching
variable {A : String → Prop} {b₁ b₂ : Nat}

/-- The first run has met the variable, and the second run what it matches. -/
def Covers (w : Matching A b₁ b₂) (x : String) : Prop :=
  Met A b₁ w.left x ∧ Met A b₂ w.right (w.perm x)

theorem covers_ascribed (w : Matching A b₁ b₂) {x : String} (h : A x) : w.Covers x :=
  ⟨.inl h, .inl ((w.fixes x h).symm ▸ h)⟩

/-- A later matching, which still matches what was covered. -/
structure Grows (w w' : Matching A b₁ b₂) : Prop where
  left : w.left ≤ w'.left
  right : w.right ≤ w'.right
  agrees : ∀ x, w.Covers x → w'.perm x = w.perm x

variable {w w' w'' : Matching A b₁ b₂}

theorem Grows.refl (w : Matching A b₁ b₂) : w.Grows w :=
  ⟨Nat.le_refl _, Nat.le_refl _, fun _ _ => rfl⟩

theorem Grows.covers (h : w.Grows w') {x : String} (hx : w.Covers x) : w'.Covers x :=
  ⟨hx.1.widen h.left, by rw [h.agrees x hx]; exact hx.2.widen h.right⟩

theorem Grows.trans (h : w.Grows w') (h' : w'.Grows w'') : w.Grows w'' where
  left := Nat.le_trans h.left h'.left
  right := Nat.le_trans h.right h'.right
  agrees x hx := (h'.agrees x (h.covers hx)).trans (h.agrees x hx)

/-- The two runs stand where the matching says. -/
structure At (w : Matching A b₁ b₂) (st₁ st₂ : Infer.State) : Prop where
  left_from : st₁.From b₁
  right_from : st₂.From b₂
  left_eq : st₁.number b₁ = w.left
  right_eq : st₂.number b₂ = w.right

/-- **Variables that the two runs take are matched**, and no variable that they have
met is matched in another way. -/
theorem At.extend (hA : ∀ x, A x → Older 0 x) {st₁ st₁' st₂ st₂' : Infer.State}
    (hw : w.At st₁ st₂) (h₁ : st₁'.From b₁ ∧ st₁.number b₁ ≤ st₁'.number b₁)
    (h₂ : st₂'.From b₂ ∧ st₂.number b₂ ≤ st₂'.number b₂) (xs ys : List String)
    (hlen : xs.length = ys.length) (hxs : xs.Nodup) (hys : ys.Nodup)
    (hleft : ∀ x ∈ xs, Minted (st₁.number b₁) (st₁'.number b₁) x)
    (hright : ∀ y ∈ ys, Minted (st₂.number b₂) (st₂'.number b₂) y) :
    ∃ w' : Matching A b₁ b₂, w.Grows w' ∧ w'.At st₁' st₂' ∧ xs.map w'.perm = ys ∧
      ∀ x ∈ xs, w'.Covers x := by
  have hnew : ∀ z, w.Covers z → z ∉ xs ∧ w.perm z ∉ ys := by
    intro z hz
    rw [hw.left_eq] at hleft
    rw [hw.right_eq] at hright
    exact ⟨fun hmem => (hz.1.older hA).not_minted (hleft z hmem),
      fun hmem => (hz.2.older hA).not_minted (hright _ hmem)⟩
  obtain ⟨ρ, hkeeps, hmap⟩ := exists_perm_extend w.perm hlen hxs hys hnew
  let w' : Matching A b₁ b₂ := ⟨ρ, st₁'.number b₁, st₂'.number b₂,
    fun x hx => (hkeeps x (w.covers_ascribed hx)).trans (w.fixes x hx)⟩
  refine ⟨w', ⟨hw.left_eq ▸ h₁.2, hw.right_eq ▸ h₂.2, hkeeps⟩, ⟨h₁.1, h₂.1, rfl, rfl⟩, hmap,
    fun x hx => ⟨.inr ?_, .inr ?_⟩⟩
  · exact (hleft x hx).widen (Nat.le_add_right _ _) (Nat.le_refl _)
  · exact (hright (ρ x) (hmap ▸ List.mem_map_of_mem hx)).widen (Nat.le_add_right _ _)
      (Nat.le_refl _)

/-! ## Types and equations -/

/-- The type of the second run is that of the first, up to the matching. -/
def Types (w : Matching A b₁ b₂) (t u : Ty) : Prop := t.Over w.Covers ∧ u = t.permute w.perm

/-- The equations of the second run are those of the first, up to the matching. -/
def Equations (w : Matching A b₁ b₂) (E F : List Equation) : Prop :=
  Equation.AllOver w.Covers E ∧ F = E.map (Equation.permute w.perm)

theorem Grows.permute_eq (h : w.Grows w') {t : Ty}
    (ht : ∀ x ∈ t.binders ++ t.occurrences, w.Covers x) : t.permute w'.perm = t.permute w.perm :=
  Ty.permute_congr fun x hx => h.agrees x (ht x hx)

theorem Types.grow {t u : Ty} (h : w.Types t u) (hw : w.Grows w') : w'.Types t u :=
  ⟨h.1.imp fun _ hx => hw.covers hx, h.2.trans (hw.permute_eq h.1.names).symm⟩

theorem Equations.grow {E F : List Equation} (h : w.Equations E F) (hw : w.Grows w') :
    w'.Equations E F := by
  refine ⟨h.1.imp fun _ hx => hw.covers hx, h.2.trans (List.map_congr_left fun e he => ?_)⟩
  rw [Equation.permute, Equation.permute, hw.permute_eq (h.1 e he).1.names,
    hw.permute_eq (h.1 e he).2.names]

theorem types_const (w : Matching A b₁ b₂) (c : String) : w.Types (.const c) (.const c) :=
  ⟨Ty.over_const _ c, rfl⟩

theorem Types.arrow {t u t' u' : Ty} (h : w.Types t u) (h' : w.Types t' u') :
    w.Types (.arrow t t') (.arrow u u') :=
  ⟨Ty.over_arrow.2 ⟨h.1, h'.1⟩, by rw [h.2, h'.2, Ty.permute_arrow]⟩

theorem Types.list {t u : Ty} (h : w.Types t u) : w.Types (.list t) (.list u) :=
  ⟨h.1, by rw [h.2, Ty.permute_list]⟩

theorem equations_nil (w : Matching A b₁ b₂) : w.Equations [] [] :=
  ⟨Equation.allOver_nil _, rfl⟩

theorem Equations.cons {t u t' u' : Ty} {E F : List Equation} (h : w.Types t u)
    (h' : w.Types t' u') (hE : w.Equations E F) : w.Equations (⟨t, t'⟩ :: E) (⟨u, u'⟩ :: F) := by
  refine ⟨Equation.allOver_cons.2 ⟨⟨h.1, h'.1⟩, hE.1⟩, ?_⟩
  rw [h.2, h'.2, hE.2, List.map_cons, Equation.permute]

theorem Equations.append {E F E' F' : List Equation} (h : w.Equations E F)
    (h' : w.Equations E' F') : w.Equations (E ++ E') (F ++ F') :=
  ⟨Equation.allOver_append.2 ⟨h.1, h'.1⟩, by rw [h.2, h'.2, List.map_append]⟩

/-- What the second run has of it, in its own terms. -/
theorem over_permute {t : Ty} (h : t.Over w.Covers) :
    (t.permute w.perm).Over (Met A b₂ w.right) := by
  rw [h.mono.permute_eq_apply]
  refine ⟨h.mono.apply fun _ => trivial, fun y hy => ?_⟩
  obtain ⟨x, hx, hy⟩ := Ty.mem_occurrences_apply.1 hy
  rw [List.mem_singleton.1 hy]
  exact (h.2 x hx).2

theorem Equations.over_right {E F : List Equation} (h : w.Equations E F) :
    Equation.AllOver (Met A b₂ w.right) F := by
  rw [h.2]
  intro e he
  obtain ⟨d, hd, rfl⟩ := List.mem_map.1 he
  exact ⟨over_permute (h.1 d hd).1, over_permute (h.1 d hd).2⟩

/-- Equations of the two runs have the same solution, up to the matching. -/
theorem Equations.solve {E F : List Equation} {s : Solution} (h : w.Equations E F)
    (hs : unify E = .ok s) : unify F = .ok (s.permute w.perm) := by
  have hF := unify_permute w.perm E
  rw [← h.2, hs] at hF
  cases hu : unify F with
  | error e => rw [hu] at hF; cases hF
  | ok s' => rw [hu] at hF; cases hF; rfl

theorem Equations.resolve {E F : List Equation} {s : Solution} {t u : Ty} (h : w.Equations E F)
    (hs : unify E = .ok s) (ht : w.Types t u) :
    w.Types (s.resolve t) (Solution.resolve (s.permute w.perm) u) :=
  ⟨unify_resolve_over h.1 hs ht.1, by rw [ht.2, Solution.resolve_permute]⟩

end Matching

/-! ## Instances -/

theorem Ty.Prenex.exists_bindAll {σ : Ty} (h : σ.Prenex) :
    ∃ bs body, body.Mono ∧ σ = bindAll bs body := by
  induction h with
  | @mono t h => exact ⟨[], t, h, rfl⟩
  | @poly b t _ ih =>
    obtain ⟨bs, body, hbody, rfl⟩ := ih
    exact ⟨b :: bs, body, hbody, rfl⟩

theorem Ty.rename_bindAll (bs : List String) (t : Ty) (b x : String) :
    (bindAll bs t).rename b x = bindAll bs (if b ∈ bs then t else t.rename b x) := by
  induction bs with
  | nil => simp [bindAll]
  | cons c bs ih =>
    show (poly c (bindAll bs t)).rename b x = poly c (bindAll bs _)
    by_cases hc : b = c
    · subst hc
      rw [rename_poly_self, if_pos List.mem_cons_self]
    · rw [rename_poly_of_ne _ _ hc, ih]
      simp only [List.mem_cons, hc, false_or]

namespace Infer

/-- A body whose bound variables have been given new names, each its own: variables
numbered from `m` on and below `n`. -/
structure Renews (m n : Nat) (bs : List String) (body t : Ty) (f : String → String) : Prop where
  eq : t = body.apply fun x => .var (f x)
  injective : ∀ x ∈ body.occurrences, ∀ y ∈ body.occurrences, f x = f y → x = y
  bound : ∀ x ∈ body.occurrences, x ∈ bs → Minted m n (f x)
  free : ∀ x ∈ body.occurrences, x ∉ bs → f x = x

section
variable {l m n : Nat} {bs : List String} {body t : Ty} {f : String → String} {c x : String}

/-- A binder whose name is bound again inside binds nothing. -/
theorem Renews.hidden (h : Renews m n bs body t f) (hc : c ∈ bs) (hm : l ≤ m) :
    Renews l n (c :: bs) body t f where
  eq := h.eq
  injective := h.injective
  bound y hy hmem := by
    have hmem : y ∈ bs := (List.mem_cons.1 hmem).elim (fun heq => heq ▸ hc) id
    exact (h.bound y hy hmem).widen hm (Nat.le_refl _)
  free y hy hmem := h.free y hy fun hmem' => hmem (List.mem_cons_of_mem _ hmem')

theorem rename_eq_apply_var (hbody : body.Mono) (c x : String) :
    body.rename c x = body.apply fun y => .var (if y = c then x else y) := by
  rw [hbody.rename_eq_apply]
  refine Ty.apply_congr fun y _ => ?_
  by_cases hy : y = c <;> simp [Assignment.single, Assignment.set, hy]

/-- A binder whose variable is given a new name.  The name may be one that an inner
binder binds; it is then given another one there. -/
theorem Renews.bind (hbody : body.Mono) (hx : Minted l m x) (hxnew : x ∉ body.occurrences)
    (h : Renews m n bs (body.rename c x) t f) (hlm : l ≤ m) (hmn : m ≤ n) :
    Renews l n (c :: bs) body t fun y => f (if y = c then x else y) := by
  obtain ⟨heq, hinj, hbound, hfree⟩ := h
  have hrename := rename_eq_apply_var hbody c x
  have hocc (y : String) (hy : y ∈ body.occurrences) :
      (if y = c then x else y) ∈ (body.rename c x).occurrences := by
    rw [hrename, Ty.mem_occurrences_apply]
    exact ⟨y, hy, by simp [Ty.occurrences]⟩
  refine ⟨?_, fun y hy z hz hyz => ?_, fun y hy hmem => ?_, fun y hy hmem => ?_⟩
  · rw [heq, hrename, Ty.apply_apply]
    rfl
  · have hsame := hinj _ (hocc y hy) _ (hocc z hz) hyz
    by_cases hyc : y = c <;> by_cases hzc : z = c <;>
      simp only [hyc, hzc, if_true, if_false] at hsame
    · rw [hyc, hzc]
    · exact absurd (hsame ▸ hz) hxnew
    · exact absurd (hsame ▸ hy) hxnew
    · exact hsame
  · by_cases hmem' : (if y = c then x else y) ∈ bs
    · exact (hbound _ (hocc y hy) hmem').widen hlm (Nat.le_refl _)
    · rw [hfree _ (hocc y hy) hmem']
      by_cases hyc : y = c
      · rw [if_pos hyc]
        exact hx.widen (Nat.le_refl _) hmn
      · rw [if_neg hyc] at hmem'
        exact absurd ((List.mem_cons.1 hmem).resolve_left hyc) hmem'
  · rw [List.mem_cons, not_or] at hmem
    have hy := hocc y hy
    rw [if_neg hmem.1] at hy ⊢
    exact hfree y hy hmem.2

end

/-- **An instance gives the bound variables new names, each its own**, whatever names
the scheme binds. -/
theorem instantiate_renews {bs : List String} {body t : Ty} {b : Nat} {st st' : State}
    (h : Gives (instantiate (Ty.bindAll bs body)) st t st') (hb : st.From b)
    (hfit : st'.number b ≤ Supply.capacity) (hbody : body.Mono)
    (hnew : ∀ x ∈ body.occurrences, ¬Minted (st.number b) (st'.number b) x) :
    ∃ f, Renews (st.number b) (st'.number b) bs body t f := by
  induction bs generalizing body st with
  | nil =>
    have hpure : instantiate body = pure body := by
      refine instantiate.eq_2 body fun c s hc => ?_
      rw [hc] at hbody
      exact hbody
    rw [show Ty.bindAll [] body = body from rfl, hpure, gives_pure] at h
    obtain ⟨rfl, rfl⟩ := h
    exact ⟨id, (Ty.apply_id _).symm, fun _ _ _ _ h => h, by simp, fun _ _ _ => rfl⟩
  | cons c bs ih =>
    rw [show Ty.bindAll (c :: bs) body = .poly c (Ty.bindAll bs body) from rfl, instantiate_poly,
      gives_bind] at h
    obtain ⟨x, st₁, hx, h⟩ := h
    obtain ⟨hb₁, hle₁⟩ := hx.leads steady_freshName hb
    obtain ⟨-, hle⟩ := h.leads (steady_instantiate _) hb₁
    have hxm : Minted (st.number b) (st₁.number b) x := hx.minted hb (Nat.le_trans hle hfit)
    have hlater {y : String} (hy : Minted (st₁.number b) (st'.number b) y) :
        Minted (st.number b) (st'.number b) y := hy.widen hle₁ (Nat.le_refl _)
    rw [Ty.rename_bindAll] at h
    by_cases hc : c ∈ bs
    · rw [if_pos hc] at h
      obtain ⟨f, hf⟩ := ih h hb₁ hbody fun y hy hm => hnew y hy (hlater hm)
      exact ⟨f, hf.hidden hc hle₁⟩
    · rw [if_neg hc] at h
      have hnew' : ∀ y ∈ (body.rename c x).occurrences,
          ¬Minted (st₁.number b) (st'.number b) y := by
        intro y hy hm
        rw [rename_eq_apply_var hbody, Ty.mem_occurrences_apply] at hy
        obtain ⟨z, hz, hy⟩ := hy
        rw [List.mem_singleton.1 hy] at hm
        by_cases hzc : z = c
        · rw [if_pos hzc] at hm
          exact hxm.older.not_minted hm
        · rw [if_neg hzc] at hm
          exact hnew z hz (hlater hm)
      obtain ⟨f, hf⟩ := ih h hb₁ (hbody.rename c x) hnew'
      exact ⟨_, hf.bind hbody hxm (fun hmem => hnew x hmem (hxm.widen (Nat.le_refl _) hle))
        hle₁ hle⟩

end Infer

/-- **Schemes that match**: their bodies are the same up to names, what is bound in one
is bound in the other, and what is free is matched.  Neither mentions a variable that
is still to be taken. -/
inductive Matching.Schemes {A : String → Prop} {b₁ b₂ : Nat} (w : Matching A b₁ b₂) :
    Ty → Ty → Prop
  | intro (bs cs : List String) (body : Ty) (g : String → String) (mono : body.Mono)
    (injective : ∀ x ∈ body.occurrences, ∀ y ∈ body.occurrences, g x = g y → x = y)
    (bound : ∀ x ∈ body.occurrences, x ∈ bs ↔ g x ∈ cs)
    (free : ∀ x ∈ body.occurrences, x ∉ bs → w.Covers x ∧ w.perm x = g x)
    (older : ∀ x ∈ body.occurrences, ¬Minted w.left Supply.capacity x ∧
      ¬Minted w.right Supply.capacity (g x)) :
    Schemes w (.bindAll bs body) (.bindAll cs (body.apply fun x => .var (g x)))

/-- A scheme that both runs see matches itself where only ascribed variables are free. -/
theorem Matching.schemes_self {A : String → Prop} {b₁ b₂ : Nat} {w : Matching A b₁ b₂} {σ : Ty}
    (hσ : σ.Prenex) (hfree : ∀ x ∈ σ.freeOccurrences, A x)
    (holder : ∀ x ∈ σ.occurrences, ¬Minted w.left Supply.capacity x ∧
      ¬Minted w.right Supply.capacity x) : w.Schemes σ σ := by
  obtain ⟨bs, body, hbody, rfl⟩ := hσ.exists_bindAll
  obtain ⟨-, hbinders, hocc⟩ := hbody.bindAll bs
  rw [hocc] at holder
  have hself : ∀ x ∈ body.occurrences, x ∉ bs → w.Covers x ∧ w.perm x = id x := by
    intro x hx hxbs
    have hA : A x := hfree x (hσ.mem_freeOccurrences.2 ⟨by rwa [hocc], by rwa [hbinders]⟩)
    exact ⟨w.covers_ascribed hA, w.fixes x hA⟩
  have hschemes := Schemes.intro bs bs body id hbody (fun _ _ _ _ h => h) (fun _ _ => Iff.rfl)
    hself holder
  rwa [show (body.apply fun x => .var (id x)) = body from Ty.apply_id body] at hschemes

section
variable {A : String → Prop} (hA : ∀ x, A x → Older 0 x) {b₁ b₂ : Nat} {w : Matching A b₁ b₂}
  {st₁ st₁' st₂ st₂' : Infer.State}

namespace Infer
include hA

theorem freshName_matched {x : String} (h : Gives freshName st₁ x st₁') (hw : w.At st₁ st₂)
    (hfit₁ : st₁'.number b₁ ≤ Supply.capacity) (hfit₂ : Fits b₂ freshName st₂) :
    ∃ y st₂' w', Gives freshName st₂ y st₂' ∧ w.Grows w' ∧ w'.At st₁' st₂' ∧
      w'.Types (.var x) (.var y) := by
  have h₂ : Gives freshName st₂ _ _ := outcome_freshName st₂
  have hfit₂ := hfit₂.number_le h₂
  obtain ⟨w', hgrows, hw', hmap, hcovers⟩ := hw.extend hA (h.leads steady_freshName hw.left_from)
    (h₂.leads steady_freshName hw.right_from) [x] [st₂.supply.fresh.1] rfl (List.nodup_singleton _)
    (List.nodup_singleton _) (by simpa using h.minted hw.left_from hfit₁)
    (by simpa using h₂.minted hw.right_from hfit₂)
  refine ⟨_, _, w', h₂, hgrows, hw', Ty.over_var.2 (hcovers x (by simp)), ?_⟩
  rw [Ty.permute_var, List.head_eq_of_cons_eq hmap]

/-- **Instances of matching schemes match.** -/
theorem instantiate_matched {σ τ t u : Ty} (hσ : w.Schemes σ τ)
    (h₁ : Gives (instantiate σ) st₁ t st₁') (h₂ : Gives (instantiate τ) st₂ u st₂')
    (hw : w.At st₁ st₂) (hfit₁ : st₁'.number b₁ ≤ Supply.capacity)
    (hfit₂ : st₂'.number b₂ ≤ Supply.capacity) :
    ∃ w' : Matching A b₁ b₂, w.Grows w' ∧ w'.At st₁' st₂' ∧ w'.Types t u := by
  obtain ⟨bs, cs, body, g, hmono, hinj, hbound, hfree, holder⟩ := hσ
  have hmono' : (body.apply fun x => .var (g x)).Mono := hmono.apply fun _ => trivial
  have hocc (x : String) (hx : x ∈ body.occurrences) :
      g x ∈ (body.apply fun x => .var (g x)).occurrences :=
    Ty.mem_occurrences_apply.2 ⟨x, hx, by simp [Ty.occurrences]⟩
  obtain ⟨f₁, hf₁⟩ := instantiate_renews h₁ hw.left_from hfit₁ hmono fun x hx hm =>
    (holder x hx).1 (hw.left_eq ▸ hm.widen (Nat.le_refl _) hfit₁)
  obtain ⟨f₂, hf₂⟩ := instantiate_renews h₂ hw.right_from hfit₂ hmono' (by
    intro y hy hm
    obtain ⟨x, hx, hy⟩ := Ty.mem_occurrences_apply.1 hy
    rw [List.mem_singleton.1 hy] at hm
    exact (holder x hx).2 (hw.right_eq ▸ hm.widen (Nat.le_refl _) hfit₂))
  -- the bound variables, each once, with the names that they were given
  let vs := body.occurrences.eraseDups.filter (· ∈ bs)
  have hvs {x : String} : x ∈ vs ↔ x ∈ body.occurrences ∧ x ∈ bs := by simp [vs]
  have hnodup : vs.Nodup := (nodup_eraseDups _).filter _
  obtain ⟨w', hgrows, hw', hmap, hcovers⟩ := hw.extend hA
    (h₁.leads (steady_instantiate _) hw.left_from)
    (h₂.leads (steady_instantiate _) hw.right_from) (vs.map f₁) (vs.map fun x => f₂ (g x))
    (by rw [List.length_map, List.length_map])
    (hnodup.map_on fun x hx y hy => hf₁.injective x (hvs.1 hx).1 y (hvs.1 hy).1)
    (hnodup.map_on fun x hx y hy hxy => hinj x (hvs.1 hx).1 y (hvs.1 hy).1
      (hf₂.injective _ (hocc x (hvs.1 hx).1) _ (hocc y (hvs.1 hy).1) hxy))
    (List.forall_mem_map.2 fun x hx => hf₁.bound x (hvs.1 hx).1 (hvs.1 hx).2)
    (List.forall_mem_map.2 fun x hx => hf₂.bound _ (hocc x (hvs.1 hx).1)
      ((hbound x (hvs.1 hx).1).1 (hvs.1 hx).2))
  have hmatch : ∀ x ∈ body.occurrences, w'.Covers (f₁ x) ∧ w'.perm (f₁ x) = f₂ (g x) := by
    intro x hx
    by_cases hxbs : x ∈ bs
    · have hmem := hvs.2 ⟨hx, hxbs⟩
      rw [List.map_map, List.map_inj_left] at hmap
      exact ⟨hcovers _ (List.mem_map_of_mem hmem), hmap x hmem⟩
    · obtain ⟨hcovers, heq⟩ := hfree x hx hxbs
      rw [hf₁.free x hx hxbs, hf₂.free _ (hocc x hx) fun hmem => hxbs ((hbound x hx).2 hmem)]
      exact ⟨hgrows.covers hcovers, (hgrows.agrees x hcovers).trans heq⟩
  have ht : t.Over w'.Covers := by
    rw [hf₁.eq]
    refine ⟨hmono.apply fun _ => trivial, fun y hy => ?_⟩
    obtain ⟨x, hx, hy⟩ := Ty.mem_occurrences_apply.1 hy
    rw [List.mem_singleton.1 hy]
    exact (hmatch x hx).1
  refine ⟨w', hgrows, hw', ht, ?_⟩
  rw [ht.mono.permute_eq_apply, hf₁.eq, hf₂.eq, Ty.apply_apply, Ty.apply_apply]
  exact Ty.apply_congr fun x hx => congrArg Ty.var (hmatch x hx).2.symm

end Infer

end

/-! ## Environments -/

/-- **An environment apart from a run** that counts from `b` on: its schemes are closed,
and they mention no variable that the run takes. -/
structure TypeEnv.Apart (b : Nat) (Γ : TypeEnv) : Prop where
  prenex : ∀ p ∈ Γ.bindings, p.2.Prenex
  closed : ∀ p ∈ Γ.bindings, p.2.freeOccurrences = []
  apart : ∀ p ∈ Γ.bindings, ∀ x ∈ p.2.occurrences, ¬Minted b Supply.capacity x

/-- **Schemes that mention the variable are schemes of the other environment too.**  What
they bind and do not mention has no number, as it may be taken in a run and is hidden
then. -/
def TypeEnv.Shares (Γ Γ' : TypeEnv) (x : String) : Prop :=
  ∀ p ∈ Γ.bindings, x ∈ p.2.occurrences →
    (∃ q ∈ Γ'.bindings, q.2 = p.2) ∧ ∀ y ∈ p.2.binders, y ∉ p.2.occurrences → Older 0 y

namespace Matching
variable {A : String → Prop} {b₁ b₂ : Nat} {w w' : Matching A b₁ b₂}

/-- All names of a scheme are covered. -/
structure Whole (w : Matching A b₁ b₂) (σ : Ty) : Prop where
  prenex : σ.Prenex
  covers : ∀ x ∈ σ.binders ++ σ.occurrences, w.Covers x

/-- Such a scheme matches the renamed one. -/
theorem Whole.schemes (hA : ∀ x, A x → Older 0 x) {σ : Ty} (h : w.Whole σ) :
    w.Schemes σ (σ.permute w.perm) := by
  obtain ⟨bs, body, hbody, rfl⟩ := h.prenex.exists_bindAll
  obtain ⟨-, -, hocc⟩ := hbody.bindAll bs
  have hcovers (x : String) (hx : x ∈ body.occurrences) : w.Covers x :=
    h.covers x (List.mem_append_right _ (hocc ▸ hx))
  rw [Ty.bindAll_permute, hbody.permute_eq_apply]
  refine .intro bs _ body w.perm hbody (fun _ _ _ _ heq => w.perm.injective heq) (fun x _ => ?_)
    (fun x hx _ => ⟨hcovers x hx, rfl⟩) fun x hx => ?_
  · rw [List.mem_map_of_injective w.perm.injective]
  · exact ⟨((hcovers x hx).1.older hA).not_minted, ((hcovers x hx).2.older hA).not_minted⟩

/-- The scheme over new variables, with all of them covered. -/
theorem whole_bindAll {t : Ty} (ht : t.Over w.Covers) {vars names : List String}
    (hnodup : names.Nodup) (hlen : vars.length = names.length)
    (hnames : ∀ x ∈ names, w.Covers x) :
    w.Whole (.bindAll names.reverse (t.subst (vars.zip (names.map .var)))) := by
  have hbody : t.subst (vars.zip (names.map .var)) = t.apply (Infer.relabel vars names) :=
    ht.mono.subst_eq_apply _
  rw [hbody]
  obtain ⟨hprenex, hbinders, hocc⟩ :=
    (ht.mono.apply (Infer.isMono_relabel hnodup hlen)).bindAll names.reverse
  refine ⟨hprenex, fun y hy => ?_⟩
  rw [hbinders, hocc, List.mem_append, List.mem_reverse, Ty.mem_occurrences_apply] at hy
  rcases hy with hy | ⟨x, hx, hy⟩
  · exact hnames y hy
  · by_cases hxv : x ∈ vars
    · obtain ⟨z, hz, hxz, -⟩ := Infer.relabel_of_mem hnodup hlen hxv
      rw [hxz, Ty.occurrences, List.mem_singleton] at hy
      exact hy ▸ hnames z hz
    · rw [Infer.relabel_of_not_mem names hxv, Ty.occurrences, List.mem_singleton] at hy
      exact hy ▸ ht.2 x hx

/-- A matching can be changed to match a variable that neither run takes with itself. -/
theorem exists_fixing (w : Matching A b₁ b₂) {names : List String}
    (h : ∀ x ∈ names, ¬Minted b₁ w.left x ∧ ¬Minted b₂ w.right x) :
    ∃ w' : Matching A b₁ b₂, w.Grows w' ∧ ∀ x ∈ names, w'.perm x = x := by
  classical
  let xs := names.eraseDups.filter (¬A ·)
  have hxs {x : String} : x ∈ xs ↔ x ∈ names ∧ ¬A x := by simp [xs]
  have hnodup : xs.Nodup := (nodup_eraseDups _).filter _
  have hnew (z : String) (hz : w.Covers z) : z ∉ xs ∧ w.perm z ∉ xs :=
    ⟨fun hmem => hz.1.elim (hxs.1 hmem).2 (h z (hxs.1 hmem).1).1,
      fun hmem => hz.2.elim (hxs.1 hmem).2 (h _ (hxs.1 hmem).1).2⟩
  obtain ⟨ρ, hkeeps, hmap⟩ := exists_perm_extend w.perm rfl hnodup hnodup hnew
  have hfixes (x : String) (hx : A x) : ρ x = x :=
    (hkeeps x (w.covers_ascribed hx)).trans (w.fixes x hx)
  refine ⟨⟨ρ, w.left, w.right, hfixes⟩, ⟨Nat.le_refl _, Nat.le_refl _, hkeeps⟩, fun x hx => ?_⟩
  by_cases hxA : A x
  · exact hfixes x hxA
  · have hid : xs.map ρ = xs.map id := hmap.trans (List.map_id xs).symm
    exact List.map_inj_left.1 hid x (hxs.2 ⟨hx, hxA⟩)

/-- **The environments around the two runs.**  They may differ, but not in schemes that
mention an ascribed variable. -/
structure Around (A : String → Prop) (b₁ b₂ : Nat) (Γ₁ Γ₂ : TypeEnv) : Prop where
  left : Γ₁.Apart b₁
  right : Γ₂.Apart b₂
  left_shares : ∀ x, A x → Γ₁.Shares Γ₂ x
  right_shares : ∀ x, A x → Γ₂.Shares Γ₁ x

theorem Around.symm {Γ₁ Γ₂ : TypeEnv} (h : Around A b₁ b₂ Γ₁ Γ₂) : Around A b₂ b₁ Γ₂ Γ₁ :=
  ⟨h.right, h.left, h.right_shares, h.left_shares⟩

section Kept
variable {E F : List Equation} {s : Solution} {x : String}

/-- A scheme that both runs see keeps the same variables from being generalised. -/
theorem Equations.kept_iff (hE : w.Equations E F) (hs : unify E = .ok s) (hx : w.Covers x) {σ : Ty}
    (hσ : ∀ y ∈ σ.binders ++ σ.occurrences, ¬Minted b₁ w.left y ∧ ¬Minted b₂ w.right y) :
    w.perm x ∈ (Solution.resolve (s.permute w.perm) σ).freeOccurrences ↔
      x ∈ (s.resolve σ).freeOccurrences := by
  -- the solution has covered variables only, so another matching renames it alike
  obtain ⟨w', hgrows, hfixes⟩ := w.exists_fixing hσ
  have hsame : s.permute w.perm = s.permute w'.perm :=
    Except.ok.inj ((hE.solve hs).symm.trans ((hE.grow hgrows).solve hs))
  have hresolve := s.resolve_permute w'.perm σ
  rw [Ty.permute_eq_self hfixes] at hresolve
  rw [hsame, hresolve, ← hgrows.agrees x hx, Ty.freeOccurrences_permute,
    List.mem_map_of_injective w'.perm.injective]

variable {Γ₁ Γ₂ : TypeEnv}

theorem Around.names (hΓ : Around A b₁ b₂ Γ₁ Γ₂) (hleft : w.left ≤ Supply.capacity)
    (hright : w.right ≤ Supply.capacity) {p q : String × Ty} (hp : p ∈ Γ₁.bindings)
    (hq : q ∈ Γ₂.bindings) (hpq : q.2 = p.2)
    (hbinders : ∀ y ∈ p.2.binders, y ∉ p.2.occurrences → Older 0 y) :
    ∀ y ∈ p.2.binders ++ p.2.occurrences, ¬Minted b₁ w.left y ∧ ¬Minted b₂ w.right y := by
  intro y hmem
  by_cases hy : y ∈ p.2.occurrences
  · exact ⟨fun hm => hΓ.left.apart p hp y hy (hm.widen (Nat.le_refl _) hleft),
      fun hm => hΓ.right.apart q hq y (hpq ▸ hy) (hm.widen (Nat.le_refl _) hright)⟩
  · have hold := hbinders y ((List.mem_append.1 hmem).resolve_right hy) hy
    have hnot (b n : Nat) : ¬Minted b n y := (hold.widen (Nat.zero_le b)).not_minted
    exact ⟨hnot _ _, hnot _ _⟩

/-- A scheme around a run that keeps a variable from being generalised mentions an
ascribed variable: what is solved does not occur in the others, and they are closed. -/
theorem shared_of_kept {b n : Nat} {Γ Γ' : TypeEnv} (hΓ : Γ.Apart b)
    (hshares : ∀ y, A y → Γ.Shares Γ' y) (hE : Equation.AllOver (Met A b n) E)
    (hs : unify E = .ok s) (hn : n ≤ Supply.capacity) {p : String × Ty} (hp : p ∈ Γ.bindings)
    (hx : x ∈ (s.resolve p.2).freeOccurrences) :
    (∃ q ∈ Γ'.bindings, q.2 = p.2) ∧ ∀ y ∈ p.2.binders, y ∉ p.2.occurrences → Older 0 y := by
  by_cases hA : ∃ y ∈ p.2.occurrences, A y
  · obtain ⟨y, hy, hyA⟩ := hA
    exact hshares y hyA p hp hy
  · have hsame : s.resolve p.2 = p.2 := by
      rw [Solution.resolve_eq_apply]
      refine Ty.apply_eq_self fun y hy => unify_resolve_var hE hs ?_
      rintro (hyA | hm)
      · exact hA ⟨y, hy, hyA⟩
      · exact hΓ.apart p hp y hy (hm.widen (Nat.le_refl _) hn)
    rw [hsame, hΓ.closed p hp] at hx
    exact absurd hx List.not_mem_nil

/-- **What stands around the two runs keeps the same variables from being generalised.** -/
theorem Around.kept_iff (hΓ : Around A b₁ b₂ Γ₁ Γ₂) (hE : w.Equations E F)
    (hs : unify E = .ok s) (hx : w.Covers x) (hleft : w.left ≤ Supply.capacity)
    (hright : w.right ≤ Supply.capacity) :
    (∃ q ∈ Γ₂.bindings, w.perm x ∈ (Solution.resolve (s.permute w.perm) q.2).freeOccurrences) ↔
      ∃ p ∈ Γ₁.bindings, x ∈ (s.resolve p.2).freeOccurrences := by
  constructor
  · rintro ⟨q, hq, hkept⟩
    obtain ⟨⟨p, hp, hpq⟩, hbinders⟩ :=
      shared_of_kept hΓ.right hΓ.right_shares hE.over_right (hE.solve hs) hright hq hkept
    rw [← hpq] at hkept hbinders
    exact ⟨p, hp, (hE.kept_iff hs hx (hΓ.names hleft hright hp hq hpq.symm hbinders)).1 hkept⟩
  · rintro ⟨p, hp, hkept⟩
    obtain ⟨⟨q, hq, hqp⟩, hbinders⟩ :=
      shared_of_kept hΓ.left hΓ.left_shares (hE.1.imp fun _ h => h.1) hs hleft hp hkept
    refine ⟨q, hq, ?_⟩
    rw [hqp]
    exact (hE.kept_iff hs hx (hΓ.names hleft hright hp hq hqp hbinders)).2 hkept

end Kept

/-- **Environments that match**: around the expression they may differ, and what the
runs have bound since is the same up to the matching. -/
structure Envs (w : Matching A b₁ b₂) (Γ₁ Γ₂ : TypeEnv) (Δ : List (String × Ty))
    (env₁ env₂ : TypeEnv) : Prop where
  left : env₁.bindings = Δ ++ Γ₁.bindings
  right : env₂.bindings = Δ.map (fun p => (p.1, p.2.permute w.perm)) ++ Γ₂.bindings
  whole : ∀ p ∈ Δ, w.Whole p.2

variable {Γ₁ Γ₂ env₁ env₂ : TypeEnv} {Δ : List (String × Ty)}

theorem Envs.grow (h : w.Envs Γ₁ Γ₂ Δ env₁ env₂) (hw : w.Grows w') :
    w'.Envs Γ₁ Γ₂ Δ env₁ env₂ where
  left := h.left
  right := by
    rw [h.right]
    refine congrArg (· ++ _) (List.map_congr_left fun p hp => ?_)
    rw [hw.permute_eq (h.whole p hp).covers]
  whole p hp := ⟨(h.whole p hp).prenex, fun x hx => hw.covers ((h.whole p hp).covers x hx)⟩

end Matching

section
variable {A : String → Prop} {b₁ b₂ : Nat} {w : Matching A b₁ b₂} {Γ₁ Γ₂ env₁ env₂ : TypeEnv}
  {Δ : List (String × Ty)} {E F : List Equation} {t u : Ty} {s : Solution}
  {st₁ st₁' st₂ : Infer.State}

namespace Infer
open Matching

/-- The same variables are generalised. -/
theorem generalized_matched (hΓ : Around A b₁ b₂ Γ₁ Γ₂) (henv : w.Envs Γ₁ Γ₂ Δ env₁ env₂)
    (hE : w.Equations E F) (ht : w.Types t u) (hs : unify E = .ok s)
    (hleft : w.left ≤ Supply.capacity) (hright : w.right ≤ Supply.capacity) :
    generalized (s.permute w.perm) env₂ u = (generalized s env₁ t).map w.perm := by
  have hkept (x : String) (hx : w.Covers x) :
      w.perm x ∈ (env₂.map (Solution.resolve (s.permute w.perm))).freeVars ↔
        x ∈ (env₁.map s.resolve).freeVars := by
    have hbound (p : String × Ty) : w.perm x ∈
        (Solution.resolve (s.permute w.perm) (p.2.permute w.perm)).freeOccurrences ↔
          x ∈ (s.resolve p.2).freeOccurrences := by
      rw [Solution.resolve_permute, Ty.freeOccurrences_permute,
        List.mem_map_of_injective w.perm.injective]
    simp only [TypeEnv.mem_freeVars_map, henv.left, henv.right, List.mem_append, or_and_right,
      exists_or, List.mem_map, exists_exists_and_eq_and, hbound,
      hΓ.kept_iff hE hs hx hleft hright]
  have hresolved := hE.resolve hs ht
  rw [generalized, generalized, hresolved.2, Ty.freeVars_permute, List.filter_map]
  refine congrArg _ (List.filter_congr fun x hx => ?_)
  have hx : w.Covers x := hresolved.1.2 x (Ty.mem_occurrences_of_free (List.mem_eraseDups.1 hx))
  simp only [Function.comp_apply, hkept x hx]

/-- **The scheme of a definition matches**, and the second run has one if the first does. -/
theorem generalize_matched (hA : ∀ x, A x → Older 0 x) (hΓ : Around A b₁ b₂ Γ₁ Γ₂)
    (henv : w.Envs Γ₁ Γ₂ Δ env₁ env₂) (hE : w.Equations E F) (ht : w.Types t u) {σ : Ty}
    (h : Gives (generalize E env₁ t) st₁ σ st₁') (hw : w.At st₁ st₂)
    (hfit₁ : st₁'.number b₁ ≤ Supply.capacity) (hfit₂ : Fits b₂ (generalize F env₂ u) st₂) :
    ∃ st₂' w', Gives (generalize F env₂ u) st₂ (σ.permute w'.perm) st₂' ∧ w.Grows w' ∧
      w'.At st₁' st₂' ∧ w'.Whole σ := by
  have hlead₁ := h.leads (steady_generalize _ _ _) hw.left_from
  obtain ⟨s, names, hs, hlen, hnodup, hminted, hσ⟩ := generalize_names h hw.left_from hfit₁
  obtain ⟨τ, st₂', h₂⟩ := generalize_gives (hE.solve hs) env₂ u st₂
  have hfit₂ := hfit₂.number_le h₂
  have hlead₂ := h₂.leads (steady_generalize _ _ _) hw.right_from
  obtain ⟨s', names', hs', hlen', hnodup', hminted', hτ⟩ := generalize_names h₂ hw.right_from hfit₂
  obtain rfl : s' = s.permute w.perm := Except.ok.inj (hs'.symm.trans (hE.solve hs))
  have hgen := generalized_matched hΓ henv hE ht hs
    (hw.left_eq ▸ Nat.le_trans hlead₁.2 hfit₁) (hw.right_eq ▸ Nat.le_trans hlead₂.2 hfit₂)
  rw [hgen, List.length_map] at hlen'
  -- both runs take as many new variables, which are matched position by position
  obtain ⟨w', hgrows, hw', hnames, hcovers⟩ :=
    hw.extend hA hlead₁ hlead₂ names names' (hlen.trans hlen'.symm) hnodup hnodup' hminted hminted'
  have hresolved := hE.resolve hs ht
  have hfree : (generalized s env₁ t).map w'.perm = (generalized s env₁ t).map w.perm := by
    refine List.map_congr_left fun x hx => hgrows.agrees x (hresolved.1.2 x ?_)
    exact Ty.mem_occurrences_of_free (mem_generalized.1 hx).1
  have hrenaming : Solution.permute w'.perm ((generalized s env₁ t).zip (names.map .var)) =
      ((generalized s env₁ t).map w.perm).zip (names'.map .var) := by
    rw [Solution.permute_zip_var, hfree, hnames]
  have hscheme : τ = σ.permute w'.perm := by
    rw [hσ, hτ, hgen, Ty.bindAll_permute, ← Ty.subst_permute, ← (hresolved.grow hgrows).2,
      hrenaming, List.map_reverse, hnames]
  refine ⟨st₂', w', hscheme ▸ h₂, hgrows, hw', ?_⟩
  rw [hσ]
  exact whole_bindAll (hresolved.grow hgrows).1 hnodup hlen.symm hcovers

end Infer

end

end LetPoly
