import LetPoly.Proofs.Generation
import LetPoly.Proofs.Sessions

/-! # What `:reset` restores

Resetting a session drops its types and its values and makes the definitions of its
prelude again, in the context that the inputs before have left.  A context remembers a
failure, a supply of variables and the steps that were told.  A definition starts the
supply afresh and forgets the failure, so only the steps that were told reach it, and no
step of inference reads them (`Built.deaf`).  Hence a definition comes to the same in
every context (`Context.define_eq`), and a prelude that has been loaded once is loaded
again to the same types and values (`Session.loadFrom_same`).

No input takes the prelude away (`Session.Reloads.eval`), hence after any inputs a reset
leaves the session as it was when the prelude had been loaded (`reset_restores`).
-/

namespace LetPoly

/-! ## Inference does not read what was told -/

namespace Infer
variable {α β : Type}

/-- Where the supply is the same, the computation gives the same and leaves the same
supply, whatever was told before. -/
def Deaf (x : Infer α) : Prop :=
  ∀ st st' : State, st.supply = st'.supply →
    (outcome x st).1 = (outcome x st').1 ∧ (outcome x st).2.supply = (outcome x st').2.supply

theorem Deaf.bind {x : Infer α} {f : α → Infer β} (hx : Deaf x) (hf : ∀ a, Deaf (f a)) :
    Deaf (x >>= f) := by
  intro st st' hst
  obtain ⟨hresult, hsupply⟩ := hx st st' hst
  rw [outcome_bind, outcome_bind]
  generalize outcome x st = r, outcome x st' = r' at hresult hsupply ⊢
  obtain ⟨r, st₁⟩ := r
  obtain ⟨r', st₁'⟩ := r'
  obtain rfl : r = r' := hresult
  cases r with
  | none => exact ⟨rfl, hsupply⟩
  | some a => exact hf a st₁ st₁' hsupply

theorem Built.deaf {x : Infer α} (h : Built x) : Deaf x := by
  induction h with
  | pure a => exact fun _ _ hst => ⟨rfl, hst⟩
  | fail e => exact fun _ _ hst => ⟨rfl, hst⟩
  | blame c e => exact fun _ _ hst => ⟨rfl, hst⟩
  | tell e => exact fun _ _ hst => ⟨rfl, hst⟩
  | freshName =>
    intro st st' hst
    simp only [outcome_freshName, hst, and_self]
  | freshNames n =>
    intro st st' hst
    simp only [outcome_freshNames, hst, and_self]
  | solve eqs =>
    intro st st' hst
    rw [outcome_solve, outcome_solve]
    exact ⟨rfl, hst⟩
  | blaming c _ ih =>
    intro st st' hst
    rw [outcome_blaming, outcome_blaming]
    exact ih st st' hst
  | bind _ _ ihx ihf => exact ihx.bind ihf

theorem deaf_define (env : TypeEnv) (d : Definition) : Deaf (define env d) := by
  refine (built_bindWith env d (built_generate env d.value)).deaf.bind fun b => ?_
  refine (Built.solve b.equations).deaf.bind fun s st st' hst => ?_
  -- the end reads the state, of which it takes the supply only
  show some ((b.env.map s.resolve).withNext st.supply.next, s.resolve b.scheme) =
      some ((b.env.map s.resolve).withNext st'.supply.next, s.resolve b.scheme) ∧
    st.supply = st'.supply
  rw [hst]
  exact ⟨rfl, rfl⟩

end Infer

/-- **A definition that is typed in one context is typed in every other**, to the same
environment and scheme. -/
theorem Context.define_eq (ctx ctx' : Context) {env : TypeEnv} {d : Definition}
    {r : TypeEnv × Ty} (h : (ctx.define env (some d)).1 = .ok r) :
    (ctx'.define env (some d)).1 = .ok r := by
  have hdeaf := (Infer.deaf_define env d (ctx.initial env) (ctx'.initial env) rfl).1
  rw [← (ctx.define_outcome env d).1, ← (ctx'.define_outcome env d).1, h] at hdeaf
  cases hdefine : (ctx'.define env (some d)).1 with
  | error e =>
    rw [hdefine] at hdeaf
    cases hdeaf
  | ok r' =>
    rw [hdefine] at hdeaf
    cases hdeaf
    rfl

/-! ## Loading a prelude again -/

namespace Session

theorem define_same {s t s' : Session} (hst : s.Same t) {d : Definition} {o : Outcome}
    (h : s.define d = (.ok o, s')) : ∃ t', t.define d = (.ok o, t') ∧ s'.Same t' := by
  obtain ⟨f, herror, -⟩ | ⟨σ, v, context, hok, htype, hvalue, -, hprelude⟩ := s.define_cases d
  · rw [h] at herror
    cases herror
  · rw [h] at hok htype hvalue hprelude
    cases hok
    have htype' : (t.context.define t.types (some d)).1 = .ok (s'.types, σ) := by
      rw [hst.types]
      exact s.context.define_eq t.context (congrArg Prod.fst htype)
    rw [← hst.values] at hvalue
    exact ⟨_, t.define_of_parts d htype' hvalue, rfl, rfl, hst.prelude.trans hprelude.symm⟩

/-- Sessions that are the same load a prelude to sessions that are the same. -/
theorem loadFrom_same {sources : List String} : ∀ {s t s' : Session} {i : Nat}, s.Same t →
    s.loadFrom i sources = (.ok (), s') →
    ∃ t', t.loadFrom i sources = (.ok (), t') ∧ s'.Same t' := by
  induction sources with
  | nil =>
    intro s t s' i hst h
    cases h
    exact ⟨t, rfl, hst⟩
  | cons source sources ih =>
    intro s t s' i hst h
    obtain ⟨e, d, o, s₁, hparse, hd, hdefine, hload⟩ := loadFrom_cons.1 h
    obtain ⟨t₁, hdefine', hsame⟩ := define_same hst hdefine
    have hkept : Same { s₁ with prelude := s₁.prelude ++ [source] }
        { t₁ with prelude := t₁.prelude ++ [source] } :=
      ⟨hsame.types, hsame.values, congrArg (· ++ [source]) hsame.prelude⟩
    obtain ⟨t', hload', hsame'⟩ := ih hkept hload
    exact ⟨t', loadFrom_cons.2 ⟨e, d, o, t₁, hparse, hd, hdefine', hload'⟩, hsame'⟩

/-- A prelude that is loaded is kept. -/
theorem prelude_loadFrom {sources : List String} : ∀ {s s' : Session} {i : Nat},
    s.loadFrom i sources = (.ok (), s') → s'.prelude = s.prelude ++ sources := by
  induction sources with
  | nil =>
    intro s s' i h
    cases h
    rw [List.append_nil]
  | cons source sources ih =>
    intro s s' i h
    obtain ⟨e, d, o, s₁, -, -, hdefine, hload⟩ := loadFrom_cons.1 h
    have hprelude := s.prelude_define d
    rw [hdefine] at hprelude
    rw [ih hload, hprelude, List.append_assoc]
    rfl

/-! ## What every input leaves -/

/-- The prelude of the second session makes the first of a new one. -/
def Reloads (s₀ s : Session) : Prop := load {} s.prelude = (.ok (), s₀)

theorem Reloads.reset {s₀ s : Session} (h : s₀.Reloads s) :
    s.reset.1 = .ok () ∧ s₀.Same s.reset.2 := by
  have hdropped : Same {} { context := s.context } := ⟨rfl, rfl, rfl⟩
  obtain ⟨s', hload, hsame⟩ := loadFrom_same hdropped h
  rw [Session.reset, load, hload]
  exact ⟨rfl, hsame⟩

/-- No input takes the prelude away. -/
theorem Reloads.eval {s₀ s : Session} (h : s₀.Reloads s) (input : String) :
    s₀.Reloads (s.eval input).2 := by
  have hkept : (s.eval input).2.prelude = s.prelude := by
    obtain ⟨e, d, -, -, heval⟩ | hkeeps | ⟨-, hreset, -⟩ := s.eval_cases input
    · rw [heval, s.prelude_define]
    · exact hkeeps.same.prelude
    · rw [hreset, h.reset.2.prelude]
      exact prelude_loadFrom h
  rw [Reloads, hkept]
  exact h

theorem Reloads.run {s₀ s : Session} (h : s₀.Reloads s) (inputs : List String) :
    s₀.Reloads (s.run inputs) := by
  induction inputs generalizing s with
  | nil => exact h
  | cons input inputs ih =>
    rw [run_cons]
    exact ih (h.eval input)

end Session

/-- **A reset restores the session that the prelude made**: its types with their order and
their next number, its values, and the prelude itself, whatever inputs came between. -/
theorem reset_restores (sources inputs : List String) (input : String) (s : Session)
    (hload : Session.load {} sources = (.ok (), s)) (hreset : Session.IsReset input) :
    ((s.run inputs).eval input).1 = .ok (.told "Session reset") ∧
      s.Same ((s.run inputs).eval input).2 := by
  have hreloads : s.Reloads s := by
    rw [Session.Reloads, Session.prelude_loadFrom hload]
    exact hload
  obtain ⟨hok, hsame⟩ := (hreloads.run inputs).reset
  rw [(s.run inputs).eval_reset hreset, hok]
  exact ⟨rfl, hsame⟩

/-- A prelude of one definition is there again after its name has been defined anew, an
input has failed and another reset has been made. -/
theorem reset_restores_identity :
    let identity : Ty := .poly "2" (.arrow (.var "2") (.var "2"))
    let closure : Value := .closure (.ident "x") (.ident "x") []
    let r := Session.load {} ["val id = x => x"]
    let r' := (r.2.run ["val id = 1", "id id", ":reset", "val y = id"]).eval " :reset "
    r.1 = .ok () ∧ r.2.types = ⟨3, [("id", identity)]⟩ ∧ r.2.values = [("id", closure)] ∧
      Session.IsReset " :reset " ∧ r'.1 = .ok (.told "Session reset") ∧ r.2.Same r'.2 := by
  intro identity closure r r'
  let d : Definition := ⟨.val, .ident "id", none, .lambda (.ident "x") none (.ident "x")⟩
  have hparse : Expr.parseProgram "val id = x => x".toList = .ok d.expr := by cbv
  have htype : (Context.define {} .empty (some d)).1 = .ok (⟨3, [("id", identity)]⟩, identity) := by
    cbv
  have hvalue : Value.evalDefinition Value.programBound [] d = .ok ([("id", closure)], closure) :=
    rfl
  have hdefine := Session.define_of_parts {} d htype hvalue
  have hload : r = _ := Session.loadFrom_cons.2 ⟨d.expr, d, _, _, hparse, rfl, hdefine, rfl⟩
  have hok : r.1 = .ok () := by rw [hload]
  have hrestores := reset_restores _ ["val id = 1", "id id", ":reset", "val y = id"] " :reset " r.2
    (Prod.ext hok rfl) (by decide)
  refine ⟨hok, ?_, ?_, by decide, hrestores⟩ <;> rw [hload]

end LetPoly
