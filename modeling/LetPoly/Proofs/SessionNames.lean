import LetPoly.Proofs.FreeNames
import LetPoly.Proofs.Scope
import LetPoly.Proofs.Sessions

/-! # The names of a session

Inference and evaluation keep an environment each, of types and of values.  Inference looks
up every name that an expression refers to, also in the parts that evaluation does not
reach (`Infer.looksUp`).  Hence where both environments have the same names, evaluation
finds those that it looks up itself.  It also calls functions, which look up names in the
environments that they were made in; these have all the names that the function refers to,
because it was accepted where it was made (`Env.Closed`).

A session is **consistent** if its two environments have the same names and its values are
closed in this sense.  A definition that both engines accept gives the same names to both
environments, and one that either of them refuses changes neither.  So consistency is kept
by every input and by loading a prelude, whether it succeeds or not
(`Session.Reachable.consistent`).
-/

namespace LetPoly

/-! ## The names of an environment -/

theorem isSome_lookup {α : Type} {l : List (String × α)} {x : String} :
    (l.lookup x).isSome ↔ x ∈ l.map (·.1) := by
  induction l with
  | nil => simp
  | cons p l ih =>
    rw [List.lookup_cons, List.map_cons, List.mem_cons]
    by_cases hx : x = p.1
    · simp [hx]
    · rw [beq_eq_false_iff_ne.2 hx, or_iff_right hx]
      exact ih

theorem SortedMap.mem_names {α : Type} {m : SortedMap α} {x : String} :
    x ∈ m.names ↔ (m.get? x).isSome := isSome_lookup.symm

namespace TypeEnv

theorem mem_names {env : TypeEnv} {x : String} : x ∈ env.names ↔ (env.get? x).isSome := by
  rw [names, List.mem_mergeSort, List.mem_eraseDups, get?, isSome_lookup]

theorem isSome_get?_map (env : TypeEnv) (f : Ty → Ty) (x : String) :
    ((env.map f).get? x).isSome ↔ (env.get? x).isSome := by
  rw [get?, get?, isSome_lookup, isSome_lookup, map, List.map_map]
  rfl

theorem isSome_get?_union (a b : TypeEnv) (x : String) :
    ((a.union b).get? x).isSome ↔ (a.get? x).isSome ∨ (b.get? x).isSome := by
  rw [get?_union, Option.isSome_or, Bool.or_eq_true]

end TypeEnv

/-! ## Inference looks up every name -/

namespace Infer

/-- The names of an environment after a definition are its own and those of the pattern. -/
theorem isSome_get?_assume (env : TypeEnv) {p : Pat} (hp : p.isList = false) (σ : Ty)
    (x : String) : ((assume env p σ).get? x).isSome ↔ x ∈ p.names ∨ (env.get? x).isSome := by
  cases p with
  | ident y =>
    by_cases hx : x = y
    · simp [assume, hx, TypeEnv.get?_set_self, Pat.names]
    · simp [assume, TypeEnv.get?_set_of_ne env σ hx, Pat.names, hx]
  | cons | nil => cases hp
  | wildcard | number | string | boolean | unit | missing => simp [assume, Pat.names]

/-- Where an expression is given a type, every name that it refers to has one. -/
def LooksUp (e : Expr) : Prop :=
  ∀ ⦃env : TypeEnv⦄ ⦃st st' : State⦄ ⦃t : Ty⦄ ⦃E : List Equation⦄,
    Gives (generate env e) st (t, E) st' → ∀ x ∈ e.free, (env.get? x).isSome

/-- A body whose pattern binds some of its names. -/
theorem LooksUp.under {b : Expr} (hb : LooksUp b) {p : Pat} {env : TypeEnv} {pt : PatternType}
    {st st₁ st₂ st₃ : State} {r : Ty × List Equation} (hp : Gives (pattern p) st pt st₁)
    (h : Gives (generate (pt.bindings.union env) b) st₂ r st₃) :
    ∀ x ∈ b.free, x ∉ p.names → (env.get? x).isSome := by
  intro x hx hxp
  have hsome := (TypeEnv.isSome_get?_union _ _ x).1 (hb h x hx)
  exact hsome.resolve_left fun hbound => hxp ((isSome_get?_pattern hp x).1 hbound)

theorem looksUp_arms {arms : List (Pat × Expr)} (ih : ∀ arm ∈ arms, LooksUp arm.2) {whole : Expr}
    {env : TypeEnv} {value result : Ty} {st st' : State} {E : List Equation}
    (h : Gives (generateArms whole env value result arms) st E st') :
    ∀ x ∈ Expr.freeArms arms, (env.get? x).isSome := by
  induction arms generalizing st E with
  | nil => simp [Expr.freeArms]
  | cons arm arms iharms =>
    obtain ⟨pt, st₁, bt, beqs, st₂, eqs, hp, hbody, hrest, -⟩ := gives_arm.1 h
    intro x hx
    rw [Expr.freeArms, List.mem_append, List.mem_filter] at hx
    obtain ⟨hx, hxp⟩ | hx := hx
    · exact (ih arm List.mem_cons_self).under hp hbody x hx (by simpa using hxp)
    · exact iharms (fun a ha => ih a (List.mem_cons_of_mem _ ha)) hrest x hx

theorem looksUp_block {ss : List Expr} (ih : ∀ s ∈ ss, LooksUp s)
    (ihd : ∀ k p a v, .define k p a v ∈ ss → LooksUp v) : LooksUp (.block ss) := by
  induction ss with
  | nil => exact fun _ _ _ _ _ h => absurd h gives_blame
  | cons s ss ihss =>
    intro env st st' t E h
    have ihss := ihss (fun e he => ih e (List.mem_cons_of_mem _ he))
      fun k p a v he => ihd k p a v (List.mem_cons_of_mem _ he)
    cases hs : s.isDefinition with
    | true =>
      obtain ⟨k, p, a, v, rfl⟩ := Expr.isDefinition_iff.1 hs
      cases ss with
      | nil =>
        -- no block ends with a definition
        rw [Gives, outcome_block_last] at h
        exact absurd h gives_blame
      | cons s' ss =>
        obtain ⟨hp, vt, veqs, st₁, aeqs, st₂, σ, st₃, eqs, hv, -, -, hrest, -⟩ :=
          gives_block_define.1 h
        intro x hx
        rw [Expr.free, Expr.freeStmts_define, List.mem_append, List.mem_filter] at hx
        obtain hx | ⟨hx, hxp⟩ := hx
        · exact ihd k p a v List.mem_cons_self hv x hx
        · have hsome := (isSome_get?_assume env hp σ x).1 (ihss hrest x hx)
          exact hsome.resolve_left (by simpa using hxp)
    | false =>
      intro x hx
      rw [Expr.free, Expr.freeStmts_stmt hs, List.mem_append] at hx
      cases ss with
      | nil =>
        rw [Gives, outcome_block_last] at h
        exact ih s List.mem_cons_self h x (by simpa [Expr.freeStmts] using hx)
      | cons s' ss =>
        obtain ⟨⟨rt, rE⟩, st₁, hgs, hrest⟩ := (gives_block_stmt hs).1 h
        exact hx.elim (ih s List.mem_cons_self hgs x) (ihss hrest x)

/-- **Inference looks up every name that an expression refers to.** -/
theorem looksUp (e : Expr) : LooksUp e := by
  induction e using Expr.induction with
  | number | string | boolean | unit | nil => exact fun _ _ _ _ _ _ x hx => by simp [Expr.free] at hx
  | define | missing => exact fun _ _ _ _ _ _ x hx => by simp [Expr.free] at hx
  | ident y =>
    intro env st st' t E h x hx
    obtain ⟨σ, hσ, -, -⟩ := gives_ident.1 h
    rw [Expr.free, List.mem_singleton] at hx
    rw [hx, hσ]
    rfl
  | binary op l r ihl ihr =>
    intro env st st' t E h x hx
    obtain ⟨lt, leqs, st₁, rt, reqs, operand, hl, hr, -, -⟩ := gives_binary.1 h
    exact (List.mem_append.1 hx).elim (ihl hl x) (ihr hr x)
  | cons u v ihu ihv =>
    intro env st st' t E h x hx
    obtain ⟨ut, ueqs, st₁, vt, veqs, hu, hv, -, -⟩ := gives_cons.1 h
    exact (List.mem_append.1 hx).elim (ihu hu x) (ihv hv x)
  | cond c y n ihc ihy ihn =>
    intro env st st' t E h x hx
    obtain ⟨ct, ceqs, st₁, yeqs, st₂, nt, neqs, hc, hy, hn, -⟩ := gives_cond.1 h
    rw [Expr.free, List.mem_append, List.mem_append] at hx
    exact hx.elim (fun hx => hx.elim (ihc hc x) (ihy hy x)) (ihn hn x)
  | lambda p a b ihb =>
    intro env st st' t E h x hx
    obtain ⟨pt, st₁, bt, beqs, st₂, aeqs, hp, hb, -, -, -⟩ := gives_lambda.1 h
    obtain ⟨hx, hxp⟩ := List.mem_filter.1 hx
    exact ihb.under hp hb x hx (by simpa using hxp)
  | app f a ihf iha =>
    intro env st st' t E h x hx
    obtain ⟨ft, feqs, st₁, at_, aeqs, st₂, y, hf, ha, -, -, -⟩ := gives_app.1 h
    exact (List.mem_append.1 hx).elim (ihf hf x) (iha ha x)
  | block ss ih ihd => exact looksUp_block ih ihd
  | select v arms ihv iharms =>
    intro env st st' t E h x hx
    obtain ⟨vt, veqs, st₁, y, st₂, eqs, hv, -, -, harms, -⟩ := gives_select.1 h
    exact (List.mem_append.1 hx).elim (ihv hv x) (looksUp_arms iharms harms x)

end Infer

/-! ## Closed environments -/

/-- **Every function of the environment has a value for each name that it refers to**, and
so have the functions in its own environment. -/
def Env.Closed (ρ : Env) : Prop := Env.Alike True (fun x => (ρ.get? x).isSome) ρ ρ

theorem Env.closed_empty : Env.Closed [] := ⟨fun _ _ h => h, by simp [SortedMap.get?]⟩

namespace Env.Closed
variable {ρ ρ' : Env}

/-- No expression fails for want of a name that it refers to. -/
theorem eval_ne_unbound (h : ρ.Closed) {e : Expr} (he : ∀ x ∈ e.free, (ρ.get? x).isSome)
    (n : Nat) (x : String) : Value.eval n ρ e ≠ .error (.unbound x) := by
  intro herror
  have htracks := Value.eval_tracks n (h.mono he)
  rw [herror] at htracks
  exact htracks trivial x rfl

/-- A definition that is evaluated beside itself. -/
theorem tracks (h : ρ.Closed) {d : Definition} (hd : ∀ x ∈ d.value.free, (ρ.get? x).isSome)
    (n : Nat) : Tracks True
      (fun r r' => Env.Alike True (fun x => x ∈ d.pat.names ∨ (ρ.get? x).isSome) r.1 r'.1 ∧
        r.2.Alike True r'.2)
      (Value.evalDefinition n ρ d) (Value.evalDefinition n ρ d) :=
  Value.evalDefinition_tracks n (h.mono hd) (h.mono fun _ hx => hx.1.resolve_left hx.2)

theorem evalDefinition_ne_unbound (h : ρ.Closed) {d : Definition}
    (hd : ∀ x ∈ d.value.free, (ρ.get? x).isSome) (n : Nat) (x : String) :
    Value.evalDefinition n ρ d ≠ .error (.unbound x) := by
  intro herror
  have htracks := h.tracks hd n
  rw [herror] at htracks
  exact htracks trivial x rfl

/-- The environment after a definition is closed, and has the names of the pattern besides
those from before. -/
theorem define (h : ρ.Closed) {d : Definition} (hd : ∀ x ∈ d.value.free, (ρ.get? x).isSome)
    {n : Nat} {v : Value} (heval : Value.evalDefinition n ρ d = .ok (ρ', v)) :
    ρ'.Closed ∧ ∀ x, (ρ'.get? x).isSome ↔ x ∈ d.pat.names ∨ (ρ.get? x).isSome := by
  have htracks := h.tracks hd n
  rw [heval] at htracks
  obtain ⟨_, heq, halike, -⟩ := htracks
  cases heq
  have hnames : ∀ x, (ρ'.get? x).isSome ↔ x ∈ d.pat.names ∨ (ρ.get? x).isSome := by
    refine fun x => ⟨fun hx => or_iff_not_imp_left.2 fun hxp => ?_, halike.bound trivial x⟩
    rwa [← Value.get?_evalDefinition heval hxp]
  exact ⟨halike.mono fun x hx => (hnames x).1 hx, hnames⟩

end Env.Closed

/-! ## Consistent sessions -/

namespace Session

/-- **The names with a type are those with a value**, and the values are closed. -/
structure Consistent (s : Session) : Prop where
  names : ∀ x, (s.types.get? x).isSome ↔ (s.values.get? x).isSome
  closed : s.values.Closed

theorem consistent_new (context : Context) (prelude : List String) :
    Consistent { context, prelude } :=
  ⟨by simp [TypeEnv.get?, TypeEnv.empty, SortedMap.get?], Env.closed_empty⟩

theorem Consistent.same {s s' : Session} (h : s.Consistent) (hsame : s.Same s') :
    s'.Consistent := by
  obtain ⟨htypes, hvalues, -⟩ := hsame
  constructor
  · rw [htypes, hvalues]
    exact h.names
  · rw [hvalues]
    exact h.closed

theorem Consistent.define {s : Session} (h : s.Consistent) (d : Definition) :
    (s.define d).2.Consistent := by
  obtain ⟨f, -, hsame⟩ | ⟨σ, v, context, -, htype, hvalue, -, -⟩ := s.define_cases d
  · exact h.same hsame
  · obtain ⟨st', hgives, -⟩ := Context.gives_of_define htype
    obtain ⟨hp, vt, veqs, st₁, aeqs, st₂, σ, sol, hgen, -, -, -, -, henv⟩ :=
      Infer.gives_define hgives
    have hfree : ∀ x ∈ d.value.free, (s.values.get? x).isSome :=
      fun x hx => (h.names x).1 (Infer.looksUp d.value hgen x hx)
    obtain ⟨hclosed, hnames⟩ := h.closed.define hfree hvalue
    refine ⟨fun x => ?_, hclosed⟩
    have hmap := TypeEnv.isSome_get?_map (Infer.assume s.types d.pat σ) sol.resolve x
    rw [henv, hnames x, ← h.names x]
    exact hmap.trans (Infer.isSome_get?_assume s.types hp σ x)

theorem Consistent.loadFrom {s : Session} (h : s.Consistent) (i : Nat) (sources : List String) :
    (s.loadFrom i sources).2.Consistent := by
  induction sources generalizing s i with
  | nil => exact h
  | cons source sources ih =>
    obtain ⟨f, -, hleft | ⟨d, hleft⟩⟩ | ⟨e, d, o, s₁, -, -, hdefine, hrest⟩ :=
      s.loadFrom_cases i source sources
    · rw [hleft]
      exact h
    · rw [hleft]
      exact h.define d
    · have hs₁ : s₁.Consistent := by
        have hmade := h.define d
        rwa [hdefine] at hmade
      have hkept : Consistent { s₁ with prelude := s₁.prelude ++ [source] } :=
        ⟨hs₁.names, hs₁.closed⟩
      rw [hrest]
      exact ih hkept _

theorem Consistent.eval {s : Session} (h : s.Consistent) (input : String) :
    (s.eval input).2.Consistent := by
  obtain ⟨e, d, -, -, heval⟩ | hkeeps | ⟨-, hreset, -⟩ := s.eval_cases input
  · rw [heval]
    exact h.define d
  · exact h.same hkeeps.same
  · rw [hreset]
    exact (consistent_new s.context []).loadFrom 0 s.prelude

/-- **The sessions that come about**: a new one, and what preludes and inputs make of it,
whether they fail or not. -/
inductive Reachable : Session → Prop
  | new : Reachable {}
  | load {s : Session} (h : Reachable s) (sources : List String) : Reachable (s.load sources).2
  | eval {s : Session} (h : Reachable s) (input : String) : Reachable (s.eval input).2

theorem Reachable.consistent {s : Session} (h : s.Reachable) : s.Consistent := by
  induction h with
  | new => exact consistent_new {} []
  | load _ sources ih => exact ih.loadFrom 0 sources
  | eval _ input ih => exact ih.eval input

/-- An expression that inference accepts does not fail for want of a name. -/
theorem Consistent.eval_ne_unbound {s : Session} (h : s.Consistent) {e : Expr} {t : Ty}
    (hinfer : (s.context.infer s.types e).1 = .ok t) (n : Nat) (x : String) :
    Value.eval n s.values e ≠ .error (.unbound x) := by
  obtain ⟨st', hgives, -⟩ := Context.gives_of_infer (Prod.ext hinfer rfl)
  obtain ⟨vt, E, st₁, sol, hgen, -, -, -⟩ := Infer.gives_infer.1 hgives
  exact h.closed.eval_ne_unbound (fun y hy => (h.names y).1 (Infer.looksUp e hgen y hy)) n x

/-- A definition that inference accepts does not either. -/
theorem Consistent.evalDefinition_ne_unbound {s : Session} (h : s.Consistent) {d : Definition}
    {r : TypeEnv × Ty} (hdefine : (s.context.define s.types (some d)).1 = .ok r) (n : Nat)
    (x : String) : Value.evalDefinition n s.values d ≠ .error (.unbound x) := by
  obtain ⟨st', hgives, -⟩ := Context.gives_of_define (Prod.ext hdefine rfl)
  obtain ⟨-, vt, veqs, st₁, aeqs, st₂, σ, sol, hgen, -⟩ := Infer.gives_define hgives
  exact h.closed.evalDefinition_ne_unbound
    (fun y hy => (h.names y).1 (Infer.looksUp d.value hgen y hy)) n x

/-- No input fails in evaluation for want of a name. -/
theorem Consistent.input_ne_unbound {s : Session} (h : s.Consistent) (input x : String) :
    (s.eval input).1 ≠ .error (.running (.unbound x)) := by
  intro herror
  obtain ⟨d, r, htype, hvalue⟩ | ⟨e, t, htype, hvalue⟩ := eval_running herror
  · exact h.evalDefinition_ne_unbound htype _ x hvalue
  · exact h.eval_ne_unbound htype _ x hvalue

/-- **An input that fails changes nothing**, unless it is `:reset`. -/
theorem same_of_error {s : Session} {input : String} {f : Failure}
    (h : (s.eval input).1 = .error f) (hreset : ¬IsReset input) : s.Same (s.eval input).2 := by
  obtain ⟨e, d, -, -, heval⟩ | hkeeps | ⟨-, -, his⟩ := s.eval_cases input
  · rw [heval] at h ⊢
    obtain ⟨g, -, hsame⟩ | ⟨σ, v, context, hok, -⟩ := s.define_cases d
    · exact hsame
    · rw [h] at hok
      cases hok
  · exact hkeeps.same
  · exact absurd his hreset

end Session

/-- **The consistency of sessions.**  In every session that comes about, the names with a
type are those with a value; an input that fails, other than `:reset`, changes neither
these nor the prelude; and what inference accepts does not fail in evaluation for want of a
name, with any bound on its depth. -/
theorem reachable_consistent (s : Session) (h : s.Reachable) :
    (∀ x, x ∈ s.types.names ↔ x ∈ s.values.names) ∧
      (∀ input f, (s.eval input).1 = .error f → ¬Session.IsReset input →
        s.Same (s.eval input).2) ∧
      (∀ input x, (s.eval input).1 ≠ .error (.running (.unbound x))) ∧
      ∀ e t, (s.context.infer s.types e).1 = .ok t → ∀ n x,
        Value.eval n s.values e ≠ .error (.unbound x) := by
  have hs := h.consistent
  refine ⟨fun x => ?_, fun input f => Session.same_of_error, hs.input_ne_unbound,
    fun e t => hs.eval_ne_unbound⟩
  rw [TypeEnv.mem_names, SortedMap.mem_names]
  exact hs.names x

/-- A definition that inference accepts and evaluation refuses leaves no trace, in a session
whose one function was made by another. -/
theorem reachable_consistent_division :
    let s := (Session.eval {} "val k = x => y => x").2
    let r := s.eval "val n = 1 / 0"
    s.Reachable ∧ "k" ∈ s.types.names ∧ "k" ∈ s.values.names ∧
      ¬Session.IsReset "val n = 1 / 0" ∧ r.1 = .error (.running .divisionByZero) ∧
      s.Same r.2 := by
  intro s r
  let body : Expr := .lambda (.ident "y") none (.ident "x")
  let d : Definition := ⟨.val, .ident "k", none, .lambda (.ident "x") none body⟩
  let scheme : Ty := .poly "4" (.poly "3" (.arrow (.var "3") (.arrow (.var "4") (.var "3"))))
  let closure : Value := .closure (.ident "x") body []
  have hs := Session.eval_of_definition {} "val k = x => y => x" d ⟨5, [("k", scheme)]⟩ scheme
    [("k", closure)] closure (by cbv) (by cbv) (by cbv) rfl
  have hs : s = _ := congrArg Prod.snd hs
  have hreachable : s.Reachable := .eval .new _
  let d' : Definition := ⟨.val, .ident "n", none, .binary .divide (.number 1) (.number 0)⟩
  have hparse : Expr.parseProgram (Text.trim "val n = 1 / 0").toList = .ok d'.expr := by cbv
  have hdefine : r = s.define d' := by
    rw [show r = s.eval "val n = 1 / 0" from rfl, Session.eval, hparse]
    rfl
  have htype : (s.context.define s.types (some d')).1 =
      .ok (⟨5, [("n", .int), ("k", scheme)]⟩, .int) := by
    rw [hs]
    cbv
  have hvalue : Value.evalDefinition Value.programBound s.values d' = .error .divisionByZero := by
    rw [hs]
    rfl
  have hr : r.1 = .error (.running .divisionByZero) := by
    have htype : s.context.define s.types (some d') = (.ok _, _) := Prod.ext htype rfl
    rw [hdefine, Session.define, htype, hvalue]
  obtain ⟨hnames, hfails, -⟩ := reachable_consistent s hreachable
  have hk : "k" ∈ s.values.names := by
    rw [hs]
    exact List.mem_cons_self
  exact ⟨hreachable, (hnames "k").2 hk, hk, by decide, hr,
    hfails "val n = 1 / 0" _ hr (by decide)⟩
end LetPoly
