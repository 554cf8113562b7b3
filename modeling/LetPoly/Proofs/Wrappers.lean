import LetPoly.Proofs.EquationOrder
import LetPoly.Proofs.Instantiation
import LetPoly.Proofs.Irrelevance

/-! # Expressions wrapped in other expressions

A conditional with the expression in both branches, a block and a match with the expression
alone, and a definition that is used at once have the type of the expression
(`Context.infer_wrapped`).

* The conditional holds the expression twice, and the match holds it after two variables
  have been taken.  A run from a later number on repeats the first one under other names
  (`Infer.generate_again`), with only ascribed variables in common.  What solves the
  equations of one run therefore solves those of both, and a solution of both solves those
  of the one: the types found are instances of each other (`unify_display_eq`).
* The definition is generalised and instantiated again, which gives a type of which it is an
  instance, and which is an instance of it (`Infer.shows_define`).

Repeating a run needs the schemes around it to keep the same variables from being generalised.
A scheme that mentions an ascribed variable and binds a number without using it does not: the
number may be one that a run takes (`Context.infer_wrapped_captured`).
-/

namespace LetPoly

/-! ## Solutions that can be exchanged -/

/-- **Equations whose solutions can be exchanged give types that are displayed alike.** -/
theorem unify_display_eq {E W : List Equation} {t u : Ty} {s : Solution} {θ : Assignment}
    (hE : Equation.BinderFree E) (hW : Equation.BinderFree W) (ht : t.binders = [])
    (hs : unify E = .ok s) (hθ : θ.Solves W) (hu : u.apply θ = s.resolve t)
    (hback : ∀ η : Assignment, η.Solves W →
      ∃ η' : Assignment, η'.Solves E ∧ t.apply η' = u.apply η) :
    ∃ s', unify W = .ok s' ∧ (s'.resolve u).display = (s.resolve t).display := by
  obtain ⟨s', hs', hagree⟩ := unify_complete_of_binderFree hW hθ
  have hapart : Equation.Apart W := fun x hx => absurd hx (hW.not_mem_binders x)
  obtain ⟨η, hη, heq⟩ := hback _ (unify_resolve_solves hapart hs')
  obtain ⟨s₂, hs₂, hagree'⟩ := unify_complete_of_binderFree hE hη
  obtain rfl : s₂ = s := Except.ok.inj (hs₂.symm.trans hs)
  have hinstance : s'.resolve u = (s₂.resolve t).apply η := by
    rw [Solution.apply_resolve hagree', heq, ← Solution.resolve_eq_apply]
  have hinstance' : s₂.resolve t = (s'.resolve u).apply θ := by
    rw [Solution.apply_resolve hagree, hu]
  obtain ⟨π, hπ⟩ := Ty.exists_permute_of_instances
    (Solution.binders_resolve (unify_binders hE hs) ht) hinstance hinstance'
  exact ⟨s', hs', by rw [hπ, Ty.display_permute]⟩

namespace Matching
variable {A : String → Prop} {m n : Nat} {w : Matching A m n} {t u : Ty} {E F : List Equation}

theorem Types.apply_right (h : w.Types t u) (θ : Assignment) :
    u.apply θ = t.apply fun x => θ (w.perm x) := by
  rw [h.2, h.1.mono.permute_eq_apply, Ty.apply_apply]
  rfl

theorem Equations.solves_right (h : w.Equations E F) (θ : Assignment) :
    θ.Solves F ↔ Assignment.Solves (fun x => θ (w.perm x)) E := by
  have hside {t : Ty} (ht : t.Over w.Covers) :
      (t.permute w.perm).apply θ = t.apply fun x => θ (w.perm x) :=
    Types.apply_right ⟨ht, rfl⟩ θ
  rw [h.2]
  constructor
  · intro hθ e he
    have := hθ _ (List.mem_map_of_mem he)
    rwa [Equation.permute, hside (h.1 e he).1, hside (h.1 e he).2] at this
  · intro hθ e he
    obtain ⟨d, hd, rfl⟩ := List.mem_map.1 he
    rw [Equation.permute, hside (h.1 d hd).1, hside (h.1 d hd).2]
    exact hθ d hd

/-- An assignment that carries the solution of the first run over to the second. -/
theorem Equations.carry (hE : w.Equations E F) (htu : w.Types t u) {s : Solution}
    (hs : unify E = .ok s) {θ : Assignment}
    (hθ : ∀ x, w.Covers x → θ (w.perm x) = s.resolve (.var x)) :
    θ.Solves F ∧ u.apply θ = s.resolve t := by
  have hbase := unify_resolve_solves hE.1.allMono.apart hs
  constructor
  · exact (hE.solves_right θ).2 (hbase.congr fun q hq x hx => (hθ x (hE.1.mem hq hx)).symm)
  · rw [htu.apply_right, s.resolve_eq_apply t]
    exact Ty.apply_congr fun x hx => hθ x (htu.1.2 x hx)

/-- **What solves one run solves both at once**, if the second begins after the first. -/
theorem Equations.merge (hA : ∀ x, A x → Older 0 x) (hE : w.Equations E F) (htu : w.Types t u)
    (hlate : w.left ≤ n) {s : Solution} (hs : unify E = .ok s) :
    ∃ θ : Assignment, θ.Solves E ∧ t.apply θ = s.resolve t ∧ θ.Solves F ∧
      u.apply θ = s.resolve t := by
  classical
  -- variables of the second run are sent back to those of the first
  let κ (x : String) : String := if Minted m w.left x then x else w.perm.symm x
  have hfixed {x : String} (hx : A x) : κ x = x := by
    have hnot : ¬Minted m w.left x := ((hA x hx).widen (Nat.zero_le _)).not_minted
    rw [show κ x = w.perm.symm x from if_neg hnot, w.perm.symm_apply_eq, w.fixes x hx]
  have hleft {x : String} (hx : w.Covers x) : κ x = x := hx.1.elim hfixed fun hm => if_pos hm
  have hright {x : String} (hx : w.Covers x) : κ (w.perm x) = x := by
    rcases hx.2 with hmem | hm
    · rw [w.perm.injective (w.fixes _ hmem)]
      exact hleft hx
    · have hnot : ¬Minted m w.left (w.perm x) := fun hm' =>
        (hm'.older.widen hlate).not_minted hm
      rw [show κ (w.perm x) = w.perm.symm (w.perm x) from if_neg hnot, w.perm.symm_apply_apply]
  have hbase := unify_resolve_solves hE.1.allMono.apart hs
  refine ⟨fun x => s.resolve (.var (κ x)), hbase.congr fun q hq x hx => ?_, ?_,
    hE.carry htu hs fun x hx => ?_⟩
  · rw [hleft (hE.1.mem hq hx)]
  · rw [s.resolve_eq_apply t]
    exact Ty.apply_congr fun x hx => by rw [hleft (htu.1.2 x hx)]
  · rw [hright hx]

end Matching

/-- What a run has met is not one of the variables numbered before it. -/
theorem Met.ne_natural {A : String → Prop} (hA : ∀ x, A x → Older 0 x) {m n k : Nat} {x : String}
    (h : Met A m n x) (hk : k < m) : x ≠ Text.Decimal.natural k := by
  rcases h with h | ⟨j, hj, -, rfl⟩
  · exact hA x h k (Nat.zero_le _)
  · intro heq
    have := natural_injective heq
    omega

theorem Expr.ascribes_cond {P : Ty → Prop} {e : Expr} (he : e.Ascribes P) :
    (Expr.cond (.boolean true) e e).Ascribes P := by
  have htrue : (Expr.boolean true).Ascribes P :=
    (everywhere_of_walk rfl).2 ⟨by simp [ascriptions], by simp⟩
  exact everywhere_cond.2 ⟨by simp [ascriptions], htrue, he, he⟩

theorem Expr.ascribes_select {P : Ty → Prop} {e : Expr} (he : e.Ascribes P) :
    (Expr.select (.number 0) [(.wildcard, e)]).Ascribes P := by
  have hzero : (Expr.number 0).Ascribes P :=
    (everywhere_of_walk rfl).2 ⟨by simp [ascriptions], by simp⟩
  exact everywhere_select.2 ⟨by simp [ascriptions], hzero, List.forall_mem_singleton.2 he⟩

namespace Infer

/-! ## Runs that start later -/

/-- The two states differ only in how many variables they have counted. -/
def State.Alike (st st' : State) : Prop := st.supply.next = st'.supply.next ∧ st.log = st'.log

/-- **Inference does not depend on the count**: it goes the same way, and takes as many
variables. -/
theorem Built.alike {α : Type} {x : Infer α} (hx : Built x) {st st' : State} (h : st.Alike st') :
    (outcome x st).1 = (outcome x st').1 ∧ (outcome x st).2.log = (outcome x st').2.log ∧
      ∃ k, (outcome x st).2.supply = st.supply.advance k ∧
        (outcome x st').2.supply = st'.supply.advance k := by
  have hzero (s : State) : s.supply = s.supply.advance 0 := s.supply.advance_zero.symm
  induction hx generalizing st st' with
  | pure | fail | blame => exact ⟨rfl, h.2, 0, hzero st, hzero st'⟩
  | tell e => exact ⟨rfl, congrArg (· ++ [e]) h.2, 0, hzero st, hzero st'⟩
  | freshName => exact ⟨congrArg (some ∘ Text.Decimal.word) h.1, h.2, 1, rfl, rfl⟩
  | freshNames n =>
    have hnames : (st.supply.freshList n).1 = (st'.supply.freshList n).1 := by
      simp only [Supply.freshList_fst, Supply.advance, h.1]
    exact ⟨congrArg some hnames, h.2, n, Supply.freshList_snd _ _, Supply.freshList_snd _ _⟩
  | solve eqs =>
    rw [outcome_solve, outcome_solve]
    exact ⟨rfl, h.2, 0, hzero st, hzero st'⟩
  | blaming c _ ih =>
    rw [outcome_blaming, outcome_blaming]
    exact ih h
  | @bind α β x f _ _ ihx ihf =>
    obtain ⟨hresult, hlog, j, hj, hj'⟩ := ihx h
    rw [outcome_bind, outcome_bind]
    rcases hout : outcome x st with ⟨_ | a, st₁⟩ <;> rcases hout' : outcome x st' with ⟨_ | a', st₁'⟩
    all_goals simp only [hout, hout'] at hresult hlog hj hj'
    · exact ⟨rfl, hlog, j, hj, hj'⟩
    · cases hresult
    · cases hresult
    · cases hresult
      have halike : st₁.Alike st₁' := ⟨by simp only [hj, hj', Supply.advance, h.1], hlog⟩
      obtain ⟨hresult, hlog, k, hk, hk'⟩ := ihf a halike
      refine ⟨hresult, hlog, j + k, ?_, ?_⟩
      · rw [← Supply.advance_advance, ← hj, hk]
      · rw [← Supply.advance_advance, ← hj', hk']

/-- The state, with its variables counted from here on. -/
def State.restart (st : State) : State := { st with supply := st.supply.restart }

theorem State.restart_from {b : Nat} {st : State} (h : st.From b) :
    st.restart.From (st.number b) := h

theorem Built.outcome_restart {α : Type} {x : Infer α} (hx : Built x) (b : Nat) (st : State) :
    (outcome x st.restart).1 = (outcome x st).1 ∧
      (outcome x st.restart).2.number (st.number b) = (outcome x st).2.number b := by
  obtain ⟨hresult, -, k, hk, hk'⟩ := hx.alike (show st.restart.Alike st from ⟨rfl, rfl⟩)
  refine ⟨hresult, ?_⟩
  rw [State.number, hk, State.number, State.number, hk']
  show b + st.supply.count + (0 + k) = b + (st.supply.count + k)
  omega

section
variable {A : String → Prop} (hA : ∀ x, A x → Older 0 x) {Γ : TypeEnv} {b : Nat}
  (hΓ : Γ.Apart b) (hshares : ∀ x, A x → Γ.Shares Γ x) {e : Expr}
  (he : e.Ascribes (Ty.Ascribed A)) {env env' : TypeEnv} {st st' : State} {t : Ty}
  {E : List Equation}
include hA hΓ hshares he

/-- **A run from another number on repeats the first.**  Its variables are those of a stretch
of its own, and ascribed ones. -/
theorem generate_again (henv : env.bindings = Γ.bindings) (henv' : env'.bindings = Γ.bindings)
    {st₂ : State} (h : Gives (generate env e) st (t, E) st') (hb : st.From b) (hb₂ : st₂.From b)
    (hfit : st'.number b ≤ Supply.capacity) (hfit₂ : Fits b (generate env' e) st₂) :
    ∃ u F st₂', ∃ w : Matching A (st.number b) (st₂.number b),
      Gives (generate env' e) st₂ (u, F) st₂' ∧ w.left = st'.number b ∧
      w.right = st₂'.number b ∧ w.Types t u ∧ w.Equations E F := by
  have hlater {n : Nat} (hn : b ≤ n) : Γ.Apart n := ⟨hΓ.prenex, hΓ.closed, fun p hp x hx hm =>
    hΓ.apart p hp x hx (hm.widen hn (Nat.le_refl _))⟩
  have haround : Matching.Around A (st.number b) (st₂.number b) Γ Γ :=
    ⟨hlater (Nat.le_add_right _ _), hlater (Nat.le_add_right _ _), hshares, hshares⟩
  let w : Matching A (st.number b) (st₂.number b) :=
    ⟨Equiv.refl String, st.number b, st₂.number b, fun _ _ => rfl⟩
  have hw : w.At st.restart st₂.restart :=
    ⟨State.restart_from hb, State.restart_from hb₂, rfl, rfl⟩
  have hΔ : w.Envs Γ Γ [] env env' := ⟨henv, henv', by simp⟩
  -- both runs are counted from where they start
  obtain ⟨hresult, hnumber⟩ := (built_generate env e).outcome_restart b st
  obtain ⟨hresult₂, hnumber₂⟩ := (built_generate env' e).outcome_restart b st₂
  rw [show outcome (generate env e) st = (some (t, E), st') from h] at hresult hnumber
  have hrestart : Gives (generate env e) st.restart (t, E)
      (outcome (generate env e) st.restart).2 := Prod.ext hresult rfl
  have hfits : Fits (st₂.number b) (generate env' e) st₂.restart := by
    rw [Fits, hnumber₂]
    exact hfit₂
  obtain ⟨u, F, st₂', w', hgives, -, hat, htu, hE⟩ := matchedRuns hA haround e hrestart hw
    (by rw [hnumber]; exact hfit) hfits hΔ (fun _ _ => .inr rfl) he
  have hgives : outcome (generate env' e) st₂.restart = (some (u, F), st₂') := hgives
  rw [hgives] at hresult₂ hnumber₂
  refine ⟨u, F, (outcome (generate env' e) st₂).2, w', Prod.ext hresult₂.symm rfl, ?_, ?_, htu, hE⟩
  · rw [← hat.left_eq, hnumber]
  · rw [← hat.right_eq, hnumber₂]

/-- The variables of a run. -/
theorem generate_over (henv : env.bindings = Γ.bindings)
    (h : Gives (generate env e) st (t, E) st') (hb : st.From b)
    (hfit : st'.number b ≤ Supply.capacity) :
    t.Over (Met A (st.number b) (st'.number b)) ∧
      Equation.AllOver (Met A (st.number b) (st'.number b)) E := by
  have hfits : Fits b (generate env e) st := by
    rw [Fits, show outcome (generate env e) st = _ from h]
    exact hfit
  obtain ⟨_, _, _, w, -, hleft, -, ht, hE⟩ :=
    generate_again hA hΓ hshares he henv henv h hb hb hfit hfits
  rw [← hleft]
  exact ⟨ht.1.imp fun _ hx => hx.1, hE.1.imp fun _ hx => hx.1⟩

end

/-! ## Types as they are displayed -/

theorem Gives.ne_missing {env : TypeEnv} {e : Expr} {st st' : State} {r : Ty × List Equation}
    (h : Gives (generate env e) st r st') : e ≠ .missing := by
  rintro rfl
  exact gives_fail h

/-- **The expression has a type, and it is displayed so.** -/
def Shows (env : TypeEnv) (e : Expr) (st : State) (text : String) : Prop :=
  ∃ t E st' s, Gives (generate env e) st (t, E) st' ∧ unify E = .ok s ∧
    (s.resolve t).display = text

theorem Shows.unique {env : TypeEnv} {e : Expr} {st : State} {text text' : String}
    (h : Shows env e st text) (h' : Shows env e st text') : text = text' := by
  obtain ⟨t, E, _, s, hgen, hs, rfl⟩ := h
  obtain ⟨t', E', _, s', hgen', hs', rfl⟩ := h'
  cases (show outcome (generate env e) st = _ from hgen).symm.trans hgen'
  cases hs.symm.trans hs'
  rfl

/-- An expression is shown as another, if it is shown so where that one has a type, and has
none where that one has none. -/
theorem shows_iff {env : TypeEnv} {e w : Expr} {st : State}
    (hto : ∀ text, Shows env e st text → Shows env w st text)
    (hback : ∀ text, Shows env w st text → ∃ text', Shows env e st text') (text : String) :
    Shows env w st text ↔ Shows env e st text := by
  refine ⟨fun h => ?_, hto text⟩
  obtain ⟨text', h'⟩ := hback text h
  rwa [h.unique (hto text' h')]

theorem shows_block {env : TypeEnv} {e : Expr} {st : State} {text : String} :
    Shows env (.block [e]) st text ↔ Shows env e st text := by
  simp only [Shows, Gives, outcome_block_last]

/-- Some of the equations have a solution where all have one. -/
theorem exists_unify {E W : List Equation} {s : Solution} (hW : Equation.AllMono W)
    (hs : unify W = .ok s) (hsub : E ⊆ W) : ∃ s', unify E = .ok s' := by
  have hE : Equation.AllMono E := fun q hq => hW q (hsub hq)
  have hsolves := unify_resolve_solves hW.apart hs
  obtain ⟨s', hs', -⟩ := unify_complete hE fun q hq => hsolves q (hsub hq)
  exact ⟨s', hs'⟩

/-- An instance of the scheme of a type is the type under other names. -/
theorem Generalizes.exists_permute {m n n' : Nat} {vars : List String} {t σ u : Ty}
    (hσ : Generalizes m n vars t σ) (ht : t.Mono) (hu : Instantiates n n' σ u) :
    ∃ π, u = t.permute π := by
  have hsound := hu.sound .var Assignment.isMono_var
  rw [Ty.apply_id] at hsound
  obtain ⟨δ, -, hinstance⟩ := (hσ.instance_iff .var u).1 hsound
  have hsame : Assignment.override .var vars .var = .var := by
    funext y
    simp [Assignment.override]
  obtain ⟨θ, -, -, hback⟩ := hu.complete .var t Assignment.isMono_var
    ((hσ.instance_iff .var t).2 ⟨.var, Assignment.isMono_var, by rw [hsame, Ty.apply_id]⟩)
  exact Ty.exists_permute_of_instances ht.binders_eq_nil hinstance hback.symm

section
variable {A : String → Prop} (hA : ∀ x, A x → Older 0 x) {env : TypeEnv} {b : Nat}
  (hΓ : env.Apart b) (hshares : ∀ x, A x → env.Shares env x) {e : Expr}
  (he : e.Ascribes (Ty.Ascribed A)) {st : State} {text : String}
include hA hΓ hshares he

/-! ## Conditionals -/

/-- Both branches have the type of the expression, each in its own variables; the first solution
serves for both. -/
theorem shows_cond (hb : st.From b)
    (hfit : Fits b (generate env (.cond (.boolean true) e e)) st) :
    Shows env (.cond (.boolean true) e e) st text ↔ Shows env e st text := by
  have hc : Gives (generate env (.boolean true)) st (.bool, []) st := gives_pure.2 ⟨rfl, rfl⟩
  have hmono {t : Ty} {W : List Equation} {st' : State}
      (h : Gives (generate env (.cond (.boolean true) e e)) st (t, W) st') : Equation.AllMono W :=
    (generate_over hA hΓ hshares (Expr.ascribes_cond he) rfl h hb (hfit.number_le h)).2.allMono
  refine shows_iff ?_ ?_ text
  · rintro _ ⟨t, E, st', s, hgen, hs, rfl⟩
    obtain ⟨hfirst, hsecond⟩ := hfit.cond.2 hc
    obtain ⟨hb', -⟩ := hgen.leads (steady_generate _ _) hb
    obtain ⟨u, F, st'', w, hgen', hleft, -, htu, hE⟩ := generate_again hA hΓ hshares he rfl rfl hgen
      hb hb' (hfirst.number_le hgen) (hsecond hgen)
    obtain ⟨θ, hθE, ht, hθF, hu⟩ := hE.merge hA htu (Nat.le_of_eq hleft) hs
    have hgives := gives_cond.2 ⟨_, _, _, _, _, _, _, hc, hgen, hgen', rfl⟩
    have hθ : θ.Solves ([] ++ E ++ F ++ [⟨.bool, .bool⟩, ⟨t, u⟩]) := by
      simp [hθE, hθF, ht, hu]
    obtain ⟨s', hs', hdisplay⟩ := unify_display_eq hE.1.allMono.binderFree
      (hmono hgives).binderFree htu.1.mono.binders_eq_nil hs hθ ht fun η hη =>
        ⟨η, fun q hq => hη q (by simp [hq]), rfl⟩
    exact ⟨t, _, st'', s', hgives, hs', hdisplay⟩
  · rintro _ ⟨t, W, st', s, hgen, hs, rfl⟩
    have hW := hmono hgen
    obtain ⟨_, _, st₁, E, st₂, _, _, hc', hgenE, -, rfl⟩ := gives_cond.1 hgen
    cases (show outcome (generate env (.boolean true)) st = _ from hc).symm.trans hc'
    obtain ⟨s', hs'⟩ := exists_unify hW hs (show E ⊆ _ from fun q hq => by simp [hq])
    exact ⟨_, t, E, st₂, s', hgenE, hs', rfl⟩

/-! ## Matches -/

omit hA hΓ hshares he in
/-- A match with one case takes a variable for its result and one for what is matched. -/
theorem gives_only_case {t : Ty} {W : List Equation} {st' : State} :
    Gives (generate env (.select (.number 0) [(.wildcard, e)])) st (t, W) st' ↔
      ∃ x st₁ y st₂ u F, Gives freshName st x st₁ ∧ Gives freshName st₁ y st₂ ∧
        Gives (generate (TypeEnv.union {} env) e) st₂ (u, F) st' ∧ t = .var x ∧
        W = F ++ [⟨.var y, .int⟩, ⟨u, .var x⟩] := by
  have hzero : Gives (generate env (.number 0)) st (.int, []) st := gives_pure.2 ⟨rfl, rfl⟩
  constructor
  · intro h
    obtain ⟨_, _, _, x, st₁, _, hv, hx, rfl, harms, rfl⟩ := gives_select.1 h
    cases (show outcome (generate env (.number 0)) st = _ from hzero).symm.trans hv
    obtain ⟨_, st₂, u, F, st₃, _, hp, hgen, hrest, rfl⟩ := gives_arm.1 harms
    obtain ⟨_, _, hfresh, hp⟩ := gives_bind.1 hp
    obtain ⟨y, hy, rfl⟩ := gives_fresh.1 hfresh
    obtain ⟨rfl, rfl⟩ := gives_pure.1 hp
    obtain ⟨rfl, rfl⟩ := gives_pure.1 hrest
    exact ⟨x, st₁, y, _, u, F, hx, hy, hgen, rfl, by simp⟩
  · rintro ⟨x, st₁, y, st₂, u, F, hx, hy, hgen, rfl, rfl⟩
    have hp : Gives (pattern .wildcard) st₁ { type := .var y } st₂ :=
      gives_bind.2 ⟨_, _, gives_fresh.2 ⟨y, hy, rfl⟩, gives_pure.2 ⟨rfl, rfl⟩⟩
    have harms : Gives (generateArms (.select (.number 0) [(.wildcard, e)]) env .int (.var x)
        [(.wildcard, e)]) st₁ (F ++ [⟨.var y, .int⟩, ⟨u, .var x⟩]) st' :=
      gives_arm.2 ⟨_, st₂, u, F, st', [], hp, hgen, gives_pure.2 ⟨rfl, rfl⟩, by simp⟩
    exact gives_select.2 ⟨.int, [], st, x, st₁, _, hzero, hx, rfl, harms, rfl⟩

omit hA hΓ hshares he in
/-- The two variables, and the room that is left for the case. -/
theorem Fits.only_case (hfit : Fits b (generate env (.select (.number 0) [(.wildcard, e)])) st)
    (hb : st.From b) :
    ∃ x st₁ y st₂, Gives freshName st x st₁ ∧ Gives freshName st₁ y st₂ ∧
      x = Text.Decimal.natural (st.number b) ∧ y = Text.Decimal.natural (st.number b + 1) ∧
      st₂.From b ∧ st₂.number b = st.number b + 2 ∧
      Fits b (generate (TypeEnv.union {} env) e) st₂ := by
  have hzero : Gives (generate env (.number 0)) st (.int, []) st := gives_pure.2 ⟨rfl, rfl⟩
  have hx : Gives freshName st _ _ := outcome_freshName st
  obtain ⟨hfx, hfarms⟩ := hfit.select.2 hzero
  obtain ⟨hxname, hxnumber⟩ := gives_freshName hx hb (hfx.number_le hx)
  obtain ⟨hb₁, -⟩ := hx.leads steady_freshName hb
  obtain ⟨hfp, hfcase⟩ := (hfarms hx).arm
  have hy : Gives freshName _ _ _ := outcome_freshName { st with supply := st.supply.fresh.2 }
  have hp : Gives (pattern .wildcard) { st with supply := st.supply.fresh.2 } _ _ :=
    gives_bind.2 ⟨_, _, gives_fresh.2 ⟨_, hy, rfl⟩, gives_pure.2 ⟨rfl, rfl⟩⟩
  obtain ⟨hyname, hynumber⟩ := gives_freshName hy hb₁ (hfp.number_le hp)
  obtain ⟨hb₂, -⟩ := hy.leads steady_freshName hb₁
  exact ⟨_, _, _, _, hx, hy, hxname, by rw [hyname, hxnumber], hb₂, by rw [hynumber, hxnumber],
    (hfcase hp).1⟩

/-- The case runs after two variables have been taken, which its equations do not mention. -/
theorem shows_select (hb : st.From b) (hfit : e ≠ .missing → Fits b (generate env e) st)
    (hfit' : Fits b (generate env (.select (.number 0) [(.wildcard, e)])) st) :
    Shows env (.select (.number 0) [(.wildcard, e)]) st text ↔ Shows env e st text := by
  have hunion : (TypeEnv.union {} env).bindings = env.bindings := rfl
  have hmono {t : Ty} {W : List Equation} {st' : State}
      (h : Gives (generate env (.select (.number 0) [(.wildcard, e)])) st (t, W) st') :
      Equation.AllMono W :=
    (generate_over hA hΓ hshares (Expr.ascribes_select he) rfl h hb (hfit'.number_le h)).2.allMono
  refine shows_iff ?_ ?_ text
  · rintro _ ⟨t, E, st', s, hgen, hs, rfl⟩
    obtain ⟨x, st₁, y, st₂, hx, hy, hxname, hyname, hb₂, hnumber, hfit₂⟩ := hfit'.only_case hb
    obtain ⟨u, F, st₃, w, hgenF, -, -, htu, hE⟩ := generate_again hA hΓ hshares he rfl hunion hgen
      hb hb₂ ((hfit hgen.ne_missing).number_le hgen) hfit₂
    have hgives := gives_only_case.2 ⟨x, st₁, y, st₂, u, F, hx, hy, hgenF, rfl, rfl⟩
    have hnew {z : String} (hz : w.Covers z) : w.perm z ≠ x ∧ w.perm z ≠ y := by
      rw [hxname, hyname]
      exact ⟨hz.2.ne_natural hA (by omega), hz.2.ne_natural hA (by omega)⟩
    have hxy : y ≠ x := by
      rw [hxname, hyname]
      exact fun heq => absurd (natural_injective heq) (by omega)
    -- the solution of the first run, and what the two variables stand for
    obtain ⟨θ, hθx, hθy, hθ⟩ : ∃ θ : Assignment, θ x = s.resolve t ∧ θ y = .int ∧
        ∀ z, w.Covers z → θ (w.perm z) = s.resolve (.var z) := by
      let carried : Assignment := fun z => s.resolve (.var (w.perm.symm z))
      refine ⟨(carried.set y .int).set x (s.resolve t), Assignment.set_self _ _ _, ?_, fun z hz => ?_⟩
      · rw [Assignment.set_of_ne _ _ hxy, Assignment.set_self]
      · rw [Assignment.set_of_ne _ _ (hnew hz).1, Assignment.set_of_ne _ _ (hnew hz).2,
          show carried (w.perm z) = s.resolve (.var (w.perm.symm (w.perm z))) from rfl,
          w.perm.symm_apply_apply]
    obtain ⟨hθF, hθu⟩ := hE.carry htu hs hθ
    have hsolves : θ.Solves (F ++ [⟨.var y, .int⟩, ⟨u, .var x⟩]) := by
      simp [hθF, hθx, hθy, hθu, Ty.int, Ty.apply]
    obtain ⟨s', hs', hdisplay⟩ := unify_display_eq hE.1.allMono.binderFree
      (hmono hgives).binderFree htu.1.mono.binders_eq_nil hs hsolves
      (show (Ty.var x).apply θ = _ from hθx) fun η hη => by
        rw [Assignment.solves_append, Assignment.solves_cons, Assignment.solves_cons] at hη
        exact ⟨_, (hE.solves_right η).1 hη.1, (htu.apply_right η).symm.trans hη.2.2.1⟩
    exact ⟨.var x, _, st₃, s', hgives, hs', hdisplay⟩
  · rintro _ ⟨t, W, st', s, hgen, hs, rfl⟩
    have hW := hmono hgen
    obtain ⟨x, st₁, y, st₂, u, F, hx, hy, hgenF, rfl, rfl⟩ := gives_only_case.1 hgen
    obtain ⟨s', hs'⟩ := exists_unify hW hs (show F ⊆ _ from fun q hq => by simp [hq])
    obtain ⟨hb₁, -⟩ := hx.leads steady_freshName hb
    obtain ⟨hb₂, -⟩ := hy.leads steady_freshName hb₁
    obtain ⟨t, E, st₃, w, hgenE, -, -, -, hE⟩ := generate_again hA hΓ hshares he hunion rfl hgenF
      hb₂ hb (hfit'.number_le hgen) (hfit hgenF.ne_missing)
    exact ⟨_, t, E, st₃, _, hgenE, hE.solve hs', rfl⟩

/-! ## Definitions -/

/-- The definition is generalised, and its use is an instance of the scheme: an instance of the
type of the expression, and the other way round. -/
theorem shows_define (x : String) (hb : st.From b)
    (hfit : Fits b (generate env (.block [.define .val (.ident x) none e, .ident x])) st) :
    Shows env (.block [.define .val (.ident x) none e, .ident x]) st text ↔
      Shows env e st text := by
  have hnone {t : Ty} {st' : State} : Gives (ascribe t none) st' [] st' := gives_pure.2 ⟨rfl, rfl⟩
  refine shows_iff ?_ ?_ text
  · rintro _ ⟨t, E, st', s, hgen, hs, rfl⟩
    have hall : E ++ [] ++ literal (.ident x) t = E := by simp [literal]
    obtain ⟨hfirst, hrest⟩ := hfit.block_define rfl
    obtain ⟨hfσ, huse⟩ := hrest hgen hnone
    obtain ⟨ht, hE⟩ := generate_over hA hΓ hshares he rfl hgen hb (hfirst.number_le hgen)
    obtain ⟨hb₁, -⟩ := hgen.leads (steady_generate _ _) hb
    -- the scheme
    rw [hall] at hfσ huse
    obtain ⟨σ, st₂, hσ⟩ := generalize_gives hs env t st'
    obtain ⟨hb₂, hle⟩ := hσ.leads (steady_generalize _ _ _) hb₁
    obtain ⟨_, hs', hgeneralizes⟩ := gives_generalize hσ hb₁ (hfσ.number_le hσ)
    cases hs.symm.trans hs'
    have hover := unify_resolve_over hE hs ht
    have hscheme := hgeneralizes (hover.imp fun _ hx => hx.older hA)
    -- its instance
    obtain ⟨u, st₃, hu⟩ := instantiate_gives σ st₂
    have hident : Gives (generate (assume env (.ident x) σ) (.block [.ident x])) st₂ (u, []) st₃ := by
      rw [Gives, outcome_block_last]
      exact gives_ident.2 ⟨σ, by simp [assume, TypeEnv.set, TypeEnv.get?], hu, rfl⟩
    have hinst := gives_instantiate hu hb₂ ((huse hσ).number_le hident) hscheme.prenex
      (fun y hy => (hscheme.binders y hy).older) fun y hy =>
        ((hover.2 y (hscheme.free y hy).1).older hA).widen hle
    obtain ⟨π, hπ⟩ := hscheme.exists_permute hover.mono hinst
    -- what the instance mentions is not solved
    have hresolve : s.resolve u = u := by
      rw [Solution.resolve_eq_apply]
      refine Ty.apply_eq_self fun y hy => ?_
      rcases hinst.range.2 y hy with hy | hm
      · exact Solution.resolve_var_of_none
          ((unify_answers hE.allMono.apart hs).triangular.lookup_eq_none (hscheme.free y hy).1)
      · exact unify_resolve_var hE hs fun hmet =>
          ((hmet.older hA).widen hle).not_minted hm
    refine ⟨u, E, st₃, s, ?_, hs, by rw [hresolve, hπ, Ty.display_permute]⟩
    refine gives_block_define.2 ⟨rfl, t, E, st', [], st', σ, st₂, [], hgen, hnone, ?_, hident, ?_⟩
    · rwa [hall]
    · rw [hall, List.append_nil]
  · rintro _ ⟨u, W, st', s, hgen, -, rfl⟩
    obtain ⟨-, t, E, st₁, aeqs, _, _, _, _, hgenE, hnone', hσ, -, -⟩ := gives_block_define.1 hgen
    cases (show outcome (ascribe t none) st₁ = _ from hnone).symm.trans hnone'
    obtain ⟨s', _, hsolve, -⟩ := gives_bind.1 hσ
    have hs' : unify E = .ok s' := by simpa [literal] using (gives_solve.1 hsolve).1
    exact ⟨_, t, E, st₁, s', hgenE, hs', rfl⟩

end

end Infer

namespace Context

/-- The type that is inferred, as it is displayed. -/
theorem infer_shows (ctx : Context) (env : TypeEnv) (e : Expr) (text : String) :
    (ctx.infer env e).1.toOption.map Ty.display = some text ↔
      Infer.Shows env e (ctx.initial env) text := by
  by_cases he : e = .missing
  · subst he
    refine ⟨fun h => ?_, fun ⟨_, _, _, _, h, _⟩ => absurd h Infer.gives_fail⟩
    cases h
  · rw [(ctx.infer_outcome env he).1, Option.map_eq_some_iff]
    constructor
    · rintro ⟨t, ht, rfl⟩
      have hgives : Infer.Gives (Infer.infer env e) (ctx.initial env) t
          (Infer.outcome (Infer.infer env e) (ctx.initial env)).2 := Prod.ext ht rfl
      obtain ⟨vt, E, st, s, hgen, hs, rfl, -⟩ := Infer.gives_infer.1 hgives
      exact ⟨vt, E, st, s, hgen, hs, rfl⟩
    · rintro ⟨t, E, st, s, hgen, hs, rfl⟩
      exact ⟨_, congrArg Prod.fst (Infer.gives_infer.2 ⟨t, E, st, s, hgen, hs, rfl, rfl⟩), rfl⟩

/-- **Wrapping an expression keeps its type.**  A conditional with the expression in both
branches, a block and a match with it alone, and its definition under a name that is then used
are accepted if and only if the expression is, and are displayed alike, as long as no scheme
that mentions an ascribed variable binds a number without using it and numbers do not run
out. -/
theorem infer_wrapped (ctx : Context) (env : TypeEnv) (e : Expr) (x : String) (w : Expr)
    (hw : w ∈ [.cond (.boolean true) e e, .block [e], .select (.number 0) [(.wildcard, e)],
      .block [.define .val (.ident x) none e, .ident x]])
    (hprenex : ∀ p ∈ env.bindings, p.2.Prenex) (hclosed : env.freeVars = [])
    (hnames : e.Ascribes fun a => a.Prenex ∧ ∀ x ∈ a.occurrences, Older 0 x)
    (hshares : e.Ascribes fun a => ∀ x ∈ a.freeOccurrences, env.Shares env x)
    (hroom : ctx.Roomy env e) (hroom' : ctx.Roomy env w) :
    (ctx.infer env w).1.toOption.map Ty.display = (ctx.infer env e).1.toOption.map Ty.display := by
  let A (x : String) : Prop := Older 0 x ∧ env.Shares env x
  have hA : ∀ x, A x → Older 0 x := fun _ hx => hx.1
  have he : e.Ascribes (Ty.Ascribed A) := fun d hd a ha =>
    ⟨(hnames d hd a ha).1, (hnames d hd a ha).2, fun x hx =>
      ⟨(hnames d hd a ha).2 x (Ty.mem_occurrences_of_free hx), hshares d hd a ha x hx⟩⟩
  have hΓ := hroom.apart hprenex hclosed
  have hshares : ∀ x, A x → env.Shares env x := fun _ hx => hx.2
  have hb := hroom.start.1
  refine Option.ext fun text => ?_
  rw [infer_shows, infer_shows]
  simp only [List.mem_cons, List.not_mem_nil, or_false] at hw
  rcases hw with rfl | rfl | rfl | rfl
  · exact Infer.shows_cond hA hΓ hshares he hb (hroom'.fits nofun)
  · exact Infer.shows_block
  · exact Infer.shows_select hA hΓ hshares he hb hroom.fits (hroom'.fits nofun)
  · exact Infer.shows_define hA hΓ hshares he x hb (hroom'.fits nofun)

/-- A function of an ascribed variable, which a scheme binds and uses. -/
theorem infer_wrapped_twice :
    let env : TypeEnv := { bindings := [("id", .poly "a" (.arrow (.var "a") (.var "a")))] }
    let e : Expr :=
      .lambda (.ident "x") (some (.var "a")) (.app (.ident "id") (.ident "x"))
    let w : Expr := .cond (.boolean true) e e
    e.Ascribes (· = .var "a") ∧ (Context.infer {} env e).2.supply.count = 3 ∧
      (Context.infer {} env w).2.supply.count = 6 ∧
      (Context.infer {} env e).1.toOption.map Ty.display = some "a . a -> a" ∧
      (Context.infer {} env w).1.toOption.map Ty.display =
        (Context.infer {} env e).1.toOption.map Ty.display := by
  intro env e w
  have hcount : (Context.infer {} env e).2.supply.count = 3 := by
    cbv
    simp only [Infer.instantiate]
    cbv
  have hcount' : (Context.infer {} env w).2.supply.count = 6 := by
    cbv
    simp only [Infer.instantiate]
    cbv
    simp only [Infer.instantiate]
    cbv
  have hdisplay : (Context.infer {} env e).1.toOption.map Ty.display = some "a . a -> a" := by
    cbv
    simp only [Infer.instantiate]
    cbv
  have hascribes : e.Ascribes (· = .var "a") := by decide
  have holder : Older 0 "a" := Token.Named.older ⟨by decide, by decide⟩
  have hshares : env.Shares env "a" := by
    intro p hp _
    rw [List.mem_singleton.1 hp]
    exact ⟨⟨_, List.mem_singleton_self _, rfl⟩, by simp [Ty.binders, Ty.occurrences]⟩
  refine ⟨hascribes, hcount, hcount', hdisplay, infer_wrapped {} env e "y" w List.mem_cons_self
    (by decide) (by decide) (fun d hd a ha => ?_) (fun d hd a ha => ?_) ⟨by decide, ?_⟩
    ⟨by decide, ?_⟩⟩
  · obtain rfl := hascribes d hd a ha
    exact ⟨.mono trivial, by simpa [Ty.occurrences] using holder⟩
  · obtain rfl := hascribes d hd a ha
    simpa [Ty.freeOccurrences] using hshares
  · rw [hcount]
    decide
  · rw [hcount']
    decide

/-- **A scheme that binds a number without using it is noticed.**  The expression alone takes
that number for a variable of the ascribed type, which the binder then hides; inside the match
the variable has another number, is free in the scheme and is not generalised. -/
theorem infer_wrapped_captured :
    let e : Expr := .block [
      .define .val (.ident "g") none (.lambda (.ident "x") (some (.var "a"))
        (.lambda (.ident "y") none (.app (.ident "x") (.ident "y")))),
      .define .val (.ident "u") none
        (.app (.ident "g") (.lambda (.ident "z") none (.binary .plus (.ident "z") (.number 1)))),
      .app (.ident "g") (.lambda (.ident "z") none (.boolean true))]
    let env : TypeEnv :=
      { bindings := [("f", .poly "3" (.poly "a" (.arrow (.var "a") (.var "a"))))] }
    (∀ p ∈ env.bindings, p.2.Prenex) ∧ env.freeVars = [] ∧ e.Ascribes (· = .var "a") ∧
      (Context.infer {} env e).1.toOption.map Ty.display = some "Int -> Bool" ∧
      (Context.infer {} env (.select (.number 0) [(.wildcard, e)])).1 =
        .error (.mismatch .int .bool) := by
  refine ⟨by decide, by decide, by decide, ?_, ?_⟩
  · cbv
    simp only [Infer.instantiate]
    cbv
    simp only [Infer.instantiate]
    cbv
  · cbv

end Context

end LetPoly
