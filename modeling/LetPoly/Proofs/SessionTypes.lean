import LetPoly.Proofs.RoundTrip
import LetPoly.Proofs.Scope
import LetPoly.Proofs.Sessions

/-! # The types of a session

Making a definition resolves every scheme of the environment by the solution of the
definition's own equations, and resolving does not stop at binders.  The schemes of a
session are safe from it as long as no ascription has a binder inside: the schemes are
then closed, and all that they mention are variables numbered before the definition
(`Settled`), which its equations do not mention.  **A definition then changes the type
of its own name only** (`eval_definition_frame`).

With a binder inside an ascription this fails: the name that it binds stays in the
scheme, and a later ascription may mention the same name
(`eval_definition_resolves_binder`).
-/

namespace LetPoly

open Token Word

/-! ## The names in ascriptions -/

theorem Ty.Phrase.names {n : Nat} {w : List Word} {t : Ty} (h : Phrase n w t) {x : String}
    (hx : x ∈ t.binders ++ t.occurrences) : .ident x ∈ w := by
  induction h with
  | base => simp [binders, occurrences] at hx
  | var => simpa [binders, occurrences] using hx
  | paren _ ih | list _ ih => simpa [between] using ih hx
  | app _ _ ihf iha | arrow _ _ ihf iha =>
    simp only [binders, occurrences, List.mem_append] at hx ihf iha
    have hparts := hx.elim (·.imp (ihf ∘ .inl) (iha ∘ .inl)) (·.imp (ihf ∘ .inr) (iha ∘ .inr))
    rcases hparts with h | h <;> simp [h]
  | dot _ ih | tfn _ ih =>
    rcases List.mem_cons.1 hx with rfl | hx
    · simp
    · simp [ih hx]
  | loosen _ ih => exact ih hx

/-- The names of the type, those that it binds included, are as `A` says. -/
def Ty.NamesIn (A : String → Prop) (a : Ty) : Prop := ∀ x ∈ a.binders ++ a.occurrences, A x

namespace Expr

variable {A : String → Prop}

theorem Head.names {w : List Word} {p : Pat} {a : Option Ty} (h : Head w p a)
    (hw : ∀ x, .ident x ∈ w → A x) : ∀ t ∈ a.toList, t.NamesIn A := by
  cases h with
  | plain => simp
  | typed _ ht =>
    simp only [Option.toList_some, List.mem_singleton, forall_eq]
    exact fun x hx => hw x (by simp [between, ht.names hx])

theorem Ascription.names {w : List Word} {a : Option Ty} (h : Ascription w a)
    (hw : ∀ x, .ident x ∈ w → A x) : ∀ t ∈ a.toList, t.NamesIn A := by
  cases h with
  | none => simp
  | some ht =>
    simp only [Option.toList_some, List.mem_singleton, forall_eq]
    exact fun x hx => hw x (by simp [ht.names hx])

/-- **The names in the ascriptions of an expression are among its words.** -/
theorem Phrase.names {n : Nat} {w : List Word} {e : Expr} (h : Phrase n w e)
    (hw : ∀ x, .ident x ∈ w → A x) : e.Ascribes (Ty.NamesIn A) := by
  have hnone {e : Expr} (he : e.ascriptions = []) : ∀ a ∈ e.ascriptions, a.NamesIn A := by simp [he]
  induction h with
  | number | string | boolean | unit | nil | ident =>
    simp [Ascribes, Everywhere, walk, ascriptions]
  | paren _ ih => exact ih fun x hx => hw x (by simp [between, hx])
  | @block w stmts _ hsep _ ih =>
    refine everywhere_block.2 ⟨hnone rfl, ?_⟩
    simp only [List.mem_map, forall_exists_index, and_imp, forall_apply_eq_imp_iff₂]
    intro s hs
    refine ih s hs fun x hx => hw x ?_
    simp [between, (hsep.sublist (List.mem_map_of_mem hs)).subset hx]
  | app _ _ ihf iha =>
    exact everywhere_app.2 ⟨hnone rfl, ihf fun x hx => hw x (by simp [hx]),
      iha fun x hx => hw x (by simp [hx])⟩
  | binary _ _ _ _ ihl ihr =>
    exact everywhere_binary.2 ⟨hnone rfl, ihl fun x hx => hw x (by simp [hx]),
      ihr fun x hx => hw x (by simp [hx])⟩
  | cons _ _ ihh iht =>
    exact everywhere_cons.2 ⟨hnone rfl, ihh fun x hx => hw x (by simp [hx]),
      iht fun x hx => hw x (by simp [hx])⟩
  | lambda hp _ ih =>
    exact everywhere_lambda.2 ⟨hp.names fun x hx => hw x (by simp [hx]),
      ih fun x hx => hw x (by simp [hx])⟩
  | cond _ _ _ ihc ihy ihn =>
    exact everywhere_cond.2 ⟨hnone rfl, ihc fun x hx => hw x (by simp [hx]),
      ihy fun x hx => hw x (by simp [hx]), ihn fun x hx => hw x (by simp [hx])⟩
  | @select v w e arms _ _ _ hsep ihe ihb =>
    refine everywhere_select.2 ⟨hnone rfl, ihe fun x hx => hw x (by simp [hx]), ?_⟩
    simp only [List.mem_map, forall_exists_index, and_imp, forall_apply_eq_imp_iff₂]
    intro arm harm
    refine ihb arm harm fun x hx => hw x ?_
    have hcase : .ident x ∈ caseWords arm := by simp [caseWords, hx]
    simp [between, (hsep.sublist (List.mem_map_of_mem harm)).subset hcase]
  | define _ _ ha _ ih =>
    exact everywhere_define.2 ⟨ha.names fun x hx => hw x (by simp [hx]),
      ih fun x hx => hw x (by simp [hx])⟩
  | loosen _ ih => exact ih hw

end Expr

/-- A name has no number. -/
theorem Token.Named.older {x : String} (h : Named x) : Older 0 x := by
  rintro k - rfl
  obtain ⟨c, cs, hk, hc⟩ := h.exists_letter
  rw [Text.Decimal.natural, String.toList_ofList] at hk
  have hdigit : Text.Decimal.isDigit c :=
    Nat.isDigit_of_mem_toDigits (by decide) (by decide) (hk ▸ List.mem_cons_self)
  simp [isLetter_of_isDigit hdigit] at hc

/-- What is written in a program has no number. -/
theorem Expr.ascribes_of_parse {source : List Char} {e : Expr}
    (h : parseProgram source = .ok e) : e.Ascribes (Ty.NamesIn (Older 0)) := by
  have hw : ∀ x, .ident x ∈ words source → Older 0 x := fun x hx => (named_of_mem_words hx).older
  obtain ⟨-, hprogram⟩ := parseProgram_eq_ok.1 h
  generalize words source = w at hw hprogram
  cases hprogram with
  | statement h => exact h.names hw
  | ended h => exact h.names fun x hx => hw x (by simp [hx])

/-! ## Settled environments -/

namespace TypeEnv

/-- **A settled environment**: variables are taken from `n` on, and its schemes are
closed and bind variables that were taken before. -/
structure Settled (n : Nat) (env : TypeEnv) : Prop where
  pos : 0 < n
  next : env.next = Int64.ofNat n
  prenex : ∀ p ∈ env.bindings, p.2.Prenex
  closed : ∀ p ∈ env.bindings, p.2.freeOccurrences = []
  binders : ∀ p ∈ env.bindings, ∀ x ∈ p.2.binders, Minted 0 n x

theorem settled_empty : empty.Settled 1 := by
  constructor <;> simp [empty]

variable {n : Nat} {env : TypeEnv}

theorem Settled.freeVars_eq_nil (h : env.Settled n) : env.freeVars = [] := by
  refine List.flatMap_eq_nil_iff.2 fun p hp => ?_
  simp [Ty.freeVars, h.closed p hp]

theorem Settled.not_free (h : env.Settled n) (x : String) : ¬env.Free x := fun hx => by
  simpa [h.freeVars_eq_nil] using hx.mem_freeVars

theorem Settled.tidy (h : env.Settled n) (A : String → Prop) : env.Tidy A n where
  prenex := h.prenex
  binders := h.binders
  free p hp x hx := by simp [h.closed p hp] at hx
  apart p _ q hq x _ hx := by simp [h.closed q hq] at hx

/-- All that a scheme mentions has a number. -/
theorem Settled.occurrences (h : env.Settled n) {p : String × Ty} (hp : p ∈ env.bindings)
    {x : String} (hx : x ∈ p.2.occurrences) : Minted 0 n x := by
  rcases Ty.mem_freeOccurrences_or_binders hx with hx | hx
  · simp [h.closed p hp] at hx
  · exact h.binders p hp x hx

theorem Settled.nextNumber_eq (h : env.Settled n) (hn : n < Supply.capacity) :
    env.nextNumber = Int64.ofNat n := by
  have hpos := h.pos
  rw [nextNumber, h.next, if_neg]
  rw [Int64.lt_iff_toInt_lt, Int64.toInt_ofNat_of_lt hn]
  simp
  omega

end TypeEnv

theorem Text.Decimal.signed?_natural {k : Nat} (hk : k < Supply.capacity) :
    signed? (natural k) = some (Int64.ofNat k) := by
  have hcapacity : Supply.capacity = 9223372036854775808 := by decide
  have hfit : fit? k = some (Int64.ofNat k) := by
    have hmin : Int64.minValue.toInt ≤ k := by
      rw [Int64.toInt_minValue]
      omega
    have hmax : (k : Int) ≤ Int64.maxValue.toInt := by
      rw [Int64.toInt_maxValue]
      omega
    rw [fit?, if_pos ⟨hmin, hmax⟩, Int64.ofInt_eq_ofNat]
  rw [signed?_natural_eq, hfit]

namespace Supply

variable {s : Supply} {n : Nat}

/-- What was taken before needs no passing over. -/
theorem skip_eq_self (hs : s.next = Int64.ofNat n) (hn : n < capacity) {x : String}
    (hx : Minted 0 n x) : s.skip x = s := by
  obtain ⟨k, -, hk, rfl⟩ := hx
  have hlt : ¬s.next ≤ Int64.ofNat k := by
    rw [hs, Int64.le_iff_toInt_le, Int64.toInt_ofNat_of_lt hn,
      Int64.toInt_ofNat_of_lt (Nat.lt_trans hk hn)]
    omega
  rw [skip, Text.Decimal.signed?_natural (Nat.lt_trans hk hn)]
  exact if_neg hlt

theorem skipAll_eq_self (hs : s.next = Int64.ofNat n) (hn : n < capacity) {xs : List String}
    (hxs : ∀ x ∈ xs, Minted 0 n x) : s.skipAll xs = s :=
  List.foldlRecOn xs skip (motive := (· = s)) rfl fun _ h x hx =>
    h ▸ skip_eq_self hs hn (hxs x hx)

end Supply

theorem Context.start_supply (ctx : Context) {n : Nat} {env : TypeEnv} (h : env.Settled n)
    (hn : n < Supply.capacity) :
    (ctx.start env).supply = { next := Int64.ofNat n, count := 0 } := by
  rw [start, h.nextNumber_eq hn]
  refine List.foldlRecOn env.entries _ (motive := (· = _)) rfl fun s hs p hp => ?_
  rw [hs]
  exact Supply.skipAll_eq_self rfl hn fun x hx =>
    h.occurrences (List.mem_reverse.1 hp) (List.mem_eraseDups.1 hx)

/-! ## Definitions -/

namespace TypeEnv

theorem map_withNext {env : TypeEnv} {f : Ty → Ty} (h : ∀ p ∈ env.bindings, f p.2 = p.2)
    (k : Int64) : (env.map f).withNext k = env.withNext k := by
  simp only [map, withNext, mk.injEq, true_and]
  conv_rhs => rw [← List.map_id env.bindings]
  exact List.map_congr_left fun p hp => Prod.ext rfl (h p hp)

end TypeEnv

namespace Infer

theorem mem_bindings_assume {env : TypeEnv} {p : Pat} {σ : Ty} {q : String × Ty}
    (h : q ∈ (assume env p σ).bindings) : q ∈ env.bindings ∨ q.2 = σ := by
  cases p with
  | ident x =>
    rcases List.mem_cons.1 h with rfl | h
    · exact .inr rfl
    · exact .inl h
  | _ => exact .inl h

theorem get?_assume (env : TypeEnv) (p : Pat) (σ : Ty) (x : String) :
    (assume env p σ).get? x = if p = .ident x then some σ else env.get? x := by
  cases p with
  | ident y =>
    by_cases hxy : y = x
    · subst hxy
      simp [assume, TypeEnv.get?_set_self]
    · simp [assume, TypeEnv.get?_set_of_ne env σ (Ne.symm hxy), hxy]
  | _ => simp [assume]

section
variable {env : TypeEnv} {m n n' : Nat} {t σ : Ty} {eqs : List Equation} {s : Solution}

/-- The equations of a definition mention no number that was taken before them or after. -/
theorem Defined.resolve_eq_self (h : Defined (Older 0) env m n n' t eqs s σ)
    (henv : env.Settled m) {u : Ty} (hu : ∀ x ∈ u.occurrences, Minted 0 m x ∨ Minted n n' x) :
    s.resolve u = u := by
  rw [Solution.resolve_eq_apply]
  refine Ty.apply_eq_self fun x hx => unify_resolve_var h.inScope.equations h.solution ?_
  rintro (hfree | hold | hnew)
  · exact henv.not_free x hfree
  · rcases hu x hx with hx | hx
    · exact hold.not_minted hx
    · exact hold.not_minted (hx.widen (Nat.zero_le _) (Nat.le_refl _))
  · rcases hu x hx with hx | hx
    · exact hx.older.not_minted hnew
    · exact hnew.older.not_minted hx

theorem Defined.resolve_old (h : Defined (Older 0) env m n n' t eqs s σ) (henv : env.Settled m)
    {p : String × Ty} (hp : p ∈ env.bindings) : s.resolve p.2 = p.2 :=
  h.resolve_eq_self henv fun _ hx => .inl (henv.occurrences hp hx)

theorem Defined.closed (h : Defined (Older 0) env m n n' t eqs s σ) (henv : env.Settled m) :
    σ.freeOccurrences = [] := by
  refine List.eq_nil_iff_forall_not_mem.2 fun x hx => ?_
  obtain ⟨hx, hkept⟩ := h.generalizes.free x hx
  refine hkept (mem_generalized.2 ⟨?_, fun p hp => ?_⟩)
  · rwa [h.resolved.mono.freeOccurrences_eq]
  · simp [h.resolve_old henv hp, henv.closed p hp]

theorem Defined.resolve_scheme (h : Defined (Older 0) env m n n' t eqs s σ)
    (henv : env.Settled m) : s.resolve σ = σ := by
  refine h.resolve_eq_self henv fun x hx => ?_
  rcases Ty.mem_freeOccurrences_or_binders hx with hx | hx
  · simp [h.closed henv] at hx
  · exact .inr (h.generalizes.binders x hx)

theorem Defined.settled (h : Defined (Older 0) env m n n' t eqs s σ) (henv : env.Settled m)
    (p : Pat) : ((assume env p σ).withNext (Int64.ofNat n')).Settled n' where
  pos := Nat.lt_of_lt_of_le henv.pos (Nat.le_trans h.start_le h.le_end)
  next := rfl
  prenex q hq := (mem_bindings_assume hq).elim (henv.prenex q) fun hσ => hσ ▸ h.generalizes.prenex
  closed q hq := (mem_bindings_assume hq).elim (henv.closed q) fun hσ => hσ ▸ h.closed henv
  binders q hq x hx := by
    rcases mem_bindings_assume hq with hq | hσ
    · exact (henv.binders q hq x hx).widen (Nat.le_refl _) (Nat.le_trans h.start_le h.le_end)
    · exact (h.generalizes.binders x (hσ ▸ hx)).widen (Nat.zero_le _) (Nat.le_refl _)

end

/-- **A definition in a settled environment** adds its own scheme, and leaves the others
as they are. -/
theorem define_settled {n : Nat} {env env' : TypeEnv} {d : Definition} {st st' : State} {t : Ty}
    (h : Gives (define env d) st (env', t) st')
    (hst : st.supply = { next := Int64.ofNat n, count := 0 })
    (hfit : st'.number n ≤ Supply.capacity) (henv : env.Settled n)
    (hd : d.expr.Ascribes (Ty.Ascribable (Older 0))) :
    env' = (assume env d.pat t).withNext st'.supply.next ∧ env'.Settled (st'.number n) := by
  have hb : st.From n := by
    rw [State.From, hst]
    rfl
  have hn : st.number n = n := by
    rw [State.number, hst]
    rfl
  obtain ⟨-, vt, veqs, st₁, aeqs, st₂, σ, s, hv, ha, hσ, hs, rfl, rfl⟩ := gives_define h
  obtain ⟨hb₁, -⟩ := hv.leads (steady_generate _ _) hb
  obtain ⟨hb₂, -⟩ := ha.leads (steady_ascribe _ _) hb₁
  obtain ⟨hb₃, -⟩ := hσ.leads (steady_generalize _ _ _) hb₂
  obtain ⟨hascribed, hvalue⟩ := Expr.everywhere_define.1 hd
  obtain ⟨s', hdef⟩ := define_scoped (fun _ => id) hv ha hσ hb hfit (hn.symm ▸ henv.tidy _) hvalue
    hascribed (scopedRuns (fun _ => id) d.value)
  obtain rfl : s' = s := Except.ok.inj (hdef.solution.symm.trans hs)
  rw [hn] at hdef
  have hall : ∀ p ∈ (assume env d.pat σ).bindings, s'.resolve p.2 = p.2 := fun p hp =>
    (mem_bindings_assume hp).elim (hdef.resolve_old henv) fun h => h ▸ hdef.resolve_scheme henv
  rw [TypeEnv.map_withNext hall, hdef.resolve_scheme henv]
  refine ⟨rfl, ?_⟩
  rw [show st'.supply.next = Int64.ofNat (st'.number n) from hb₃]
  exact hdef.settled henv d.pat

end Infer

/-! ## Sessions -/

namespace Session

/-- The variables that the inputs take, as the supply has counted them after each.  An
input that takes none may count as the one before it. -/
def taken (s : Session) : List String → Nat
  | [] => 0
  | input :: inputs => (s.eval input).2.context.supply.count + (s.eval input).2.taken inputs

/-- If the input is a definition, no ascription in it has a binder inside. -/
def RankOne (input : String) : Prop :=
  ∀ e, Expr.parseProgram (Text.trim input).toList = .ok e → e.isDefinition → e.Ascribes Ty.Prenex

theorem taken_append (s : Session) (inputs : List String) (input : String) :
    s.taken (inputs ++ [input]) =
      s.taken inputs + ((s.run inputs).eval input).2.context.supply.count := by
  induction inputs generalizing s with
  | nil => simp [taken, run]
  | cons i inputs ih =>
    rw [List.cons_append, taken, ih, taken, run_cons, Nat.add_assoc]

/-! ### Settled sessions -/

/-- The types of the session are settled, and there is no prelude to load again. -/
structure Settled (n : Nat) (s : Session) : Prop where
  types : s.types.Settled n
  prelude : s.prelude = []

theorem settled_new : Settled 1 {} := ⟨TypeEnv.settled_empty, rfl⟩

variable {s s' : Session} {n : Nat} {input : String}

theorem Settled.congr (hs : s.Settled n) (h : s.Same s') : s'.Settled n :=
  ⟨h.types ▸ hs.types, h.prelude.trans hs.prelude⟩

/-- A definition that keeps to the rank has nothing but schemes for its ascriptions. -/
theorem RankOne.ascribes (h : RankOne input) {e : Expr} {d : Definition}
    (hparse : Expr.parseProgram (Text.trim input).toList = .ok e) (hd : e.definition? = some d) :
    d.expr.Ascribes (Ty.Ascribable (Older 0)) := by
  have he : e = d.expr := by
    cases e with
    | define => cases hd; rfl
    | _ => cases hd
  subst he
  have hprenex := h _ hparse rfl
  have hnames := Expr.ascribes_of_parse hparse
  exact fun c hc a ha => ⟨hprenex c hc a ha, hnames c hc a ha⟩

/-- **A definition in a settled session** changes the type of its own name only. -/
theorem Settled.define (hs : s.Settled n) {d : Definition} {σ : Ty} {v : Value}
    (hd : d.expr.Ascribes (Ty.Ascribable (Older 0)))
    (hroom : n + (s.define d).2.context.supply.count < Supply.capacity)
    (h : (s.define d).1 = .ok (.defined d σ v)) :
    (s.define d).2.Settled (n + (s.define d).2.context.supply.count) ∧
      ∀ x, (s.define d).2.types.get? x = if d.pat = .ident x then some σ else s.types.get? x := by
  obtain ⟨f, herror, -⟩ | ⟨σ', v', context, hok, hdefine, -, hsupply, hprelude⟩ := s.define_cases d
  · rw [herror] at h
    cases h
  · rw [hok] at h
    cases h
    obtain ⟨st, hgives, hst⟩ := Context.gives_of_define hdefine
    have hstart := s.context.start_supply hs.types (by omega)
    rw [hsupply, hst] at hroom ⊢
    obtain ⟨htypes, hsettled⟩ := Infer.define_settled hgives hstart (Nat.le_of_lt hroom) hs.types hd
    refine ⟨⟨hsettled, hprelude.trans hs.prelude⟩, fun x => ?_⟩
    rw [htypes, ← Infer.get?_assume]
    rfl

/-- **An input to a settled session.** -/
theorem Settled.eval (hs : s.Settled n) (hrank : RankOne input)
    (hroom : n + (s.eval input).2.context.supply.count < Supply.capacity) :
    ∃ n' ≤ n + (s.eval input).2.context.supply.count, (s.eval input).2.Settled n' := by
  obtain ⟨e, d, hparse, hd, heval⟩ | hkeeps | ⟨-, hreset, -⟩ := s.eval_cases input
  · rw [heval] at hroom ⊢
    obtain ⟨f, -, hsame⟩ | ⟨σ, v, context, hok, -⟩ := s.define_cases d
    · exact ⟨n, Nat.le_add_right _ _, hs.congr hsame⟩
    · exact ⟨_, Nat.le_refl _, (hs.define (hrank.ascribes hparse hd) hroom hok).1⟩
  · exact ⟨n, Nat.le_add_right _ _, hs.congr hkeeps.same⟩
  · have hpos := hs.types.pos
    rw [hreset, reset, hs.prelude]
    exact ⟨1, by omega, TypeEnv.settled_empty, rfl⟩

/-- **A run of inputs keeps a session settled.** -/
theorem Settled.run (hs : s.Settled n) (inputs : List String)
    (hrank : ∀ i ∈ inputs, RankOne i) (hroom : n + s.taken inputs < Supply.capacity) :
    ∃ n' ≤ n + s.taken inputs, (s.run inputs).Settled n' := by
  induction inputs generalizing s n with
  | nil => exact ⟨n, Nat.le_refl _, hs⟩
  | cons i inputs ih =>
    rw [taken] at hroom ⊢
    rw [run_cons]
    obtain ⟨m, hm, hs⟩ := hs.eval (hrank i List.mem_cons_self) (by omega)
    obtain ⟨n', hn', hs⟩ := ih hs (fun i hi => hrank i (List.mem_cons_of_mem _ hi)) (by omega)
    exact ⟨n', by omega, hs⟩

end Session

/-- **A definition changes the type of its own name only**, and leaves the environment
closed: in every session that some inputs lead to, as long as no ascription of a
definition has a binder inside and the variables that are taken are numbered by words. -/
theorem eval_definition_frame (inputs : List String) (input : String) (d : Definition) (σ : Ty)
    (v : Value) (s : Session) (hrank : ∀ i ∈ inputs ++ [input], Session.RankOne i)
    (hroom : 1 + Session.taken {} (inputs ++ [input]) < Supply.capacity)
    (h : (Session.run {} inputs).eval input = (.ok (.defined d σ v), s)) :
    (∀ x, d.pat ≠ .ident x → s.types.get? x = (Session.run {} inputs).types.get? x) ∧
      (∀ x, d.pat = .ident x → s.types.get? x = some σ) ∧ s.types.freeVars = [] := by
  rw [Session.taken_append] at hroom
  obtain ⟨n, hn, hs⟩ := Session.settled_new.run inputs
    (fun i hi => hrank i (List.mem_append_left _ hi)) (by omega)
  have hinput := hrank input (List.mem_append_right _ List.mem_cons_self)
  obtain ⟨e, d', hparse, hd, heval⟩ | hkeeps | ⟨hother, -⟩ :=
    (Session.run {} inputs).eval_cases input
  · rw [heval] at h hroom
    obtain ⟨f, herror, -⟩ | ⟨σ', v', -, hok, -⟩ := (Session.run {} inputs).define_cases d'
    · simp [h] at herror
    · rw [h] at hok
      cases hok
      have hstep := hs.define (hinput.ascribes hparse hd) (by omega) (congrArg Prod.fst h)
      rw [h] at hstep
      refine ⟨fun x hx => ?_, fun x hx => ?_, hstep.1.types.freeVars_eq_nil⟩
      · rw [hstep.2 x, if_neg hx]
      · rw [hstep.2 x, if_pos hx]
  · exact absurd (congrArg Prod.fst h) (hkeeps.outcome d σ v)
  · exact absurd (congrArg Prod.fst h) (hother d σ v)

/-- The identity function keeps its scheme when a later definition, with an ascription of
its own, is made by means of it. -/
theorem eval_definition_frame_identity :
    let inputs := ["val id : a . a -> a = x => x"]
    let input := "val y : a = id 1"
    let d : Definition := ⟨.val, .ident "y", some (.var "a"), .app (.ident "id") (.number 1)⟩
    (∀ i ∈ inputs ++ [input], Session.RankOne i) ∧
      Session.taken {} (inputs ++ [input]) = 5 ∧
      ((Session.run {} inputs).eval input).1 = .ok (.defined d .int (.int 1)) ∧
      ((Session.run {} inputs).eval input).2.types.get? "id" =
        (Session.run {} inputs).types.get? "id" := by
  intro inputs input d
  let f : Definition := ⟨.val, .ident "id", some (.poly "a" (.arrow (.var "a") (.var "a"))),
    .lambda (.ident "x") none (.ident "x")⟩
  let identity : Ty := .poly "3" (.arrow (.var "3") (.var "3"))
  let closure : Value := .closure (.ident "x") (.ident "x") []
  have hf : Expr.parseProgram (Text.trim "val id : a . a -> a = x => x").toList = .ok f.expr := by
    cbv
  have hd : Expr.parseProgram (Text.trim input).toList = .ok d.expr := by cbv
  have hrank : ∀ i ∈ inputs ++ [input], Session.RankOne i := by
    have hprenex {i : String} {d : Definition} (hparse : Expr.parseProgram (Text.trim i).toList =
        .ok d.expr) (hd : d.expr.Ascribes Ty.Prenex) : Session.RankOne i := by
      intro e he _
      rw [hparse] at he
      cases he
      exact hd
    simp only [inputs, List.cons_append, List.nil_append, List.forall_mem_cons,
      List.not_mem_nil, false_imp_iff, implies_true, and_true]
    exact ⟨hprenex hf (by decide), hprenex hd (by decide)⟩
  -- evaluation stops at the instances of a scheme, whose equation has a side condition
  have hs := Session.eval_of_definition {} "val id : a . a -> a = x => x" f
    ⟨4, [("id", identity)]⟩ identity [("id", closure)] closure (by cbv) hf
    (by cbv; simp only [Infer.instantiate]; cbv) rfl
  have hrun : Session.run {} inputs = _ := congrArg Prod.snd hs
  have hr := Session.eval_of_definition (Session.run {} inputs) input d
    ⟨6, [("y", .int), ("id", identity)]⟩ .int [("id", closure), ("y", .int 1)] (.int 1) (by cbv)
    hd (by rw [hrun]; cbv; simp only [Infer.instantiate]; cbv) (by rw [hrun]; rfl)
  have htaken : Session.taken {} (inputs ++ [input]) = 5 := by
    have hfirst : Session.taken {} inputs = 3 := by
      rw [Session.taken, hs]
      cbv; simp only [Infer.instantiate]; cbv
    rw [Session.taken_append, hfirst, hr, hrun]
    cbv; simp only [Infer.instantiate]; cbv
  have hroom : 1 + Session.taken {} (inputs ++ [input]) < Supply.capacity := by
    rw [htaken]
    decide
  have hframe := (eval_definition_frame inputs input d .int (.int 1) _ hrank hroom hr).1 "id"
    (by decide)
  rw [← hframe, hr]
  exact ⟨hrank, htaken, rfl, rfl⟩

/-- A binder inside an ascription is no protection: the variable that it binds is
resolved with those of a later definition that mentions the same name. -/
theorem eval_definition_resolves_binder :
    let s := Session.run {} ["val f : [a . a -> a] = []"]
    let r := s.eval "val y : a = 1"
    s.types.get? "f" = some (.list (.poly "a" (.arrow (.var "a") (.var "a")))) ∧
      r.1 = .ok (.defined ⟨.val, .ident "y", some (.var "a"), .number 1⟩ .int (.int 1)) ∧
      r.2.types.get? "f" = some (.list (.poly "a" (.arrow .int .int))) := by
  intro s r
  let scheme (t : Ty) : Ty := .list (.poly "a" (.arrow t t))
  have hs := Session.eval_of_definition {} "val f : [a . a -> a] = []"
    ⟨.val, .ident "f", some (scheme (.var "a")), .nil⟩ ⟨2, [("f", scheme (.var "a"))]⟩
    (scheme (.var "a")) [("f", .list [])] (.list []) (by cbv) (by cbv) (by cbv) rfl
  have hs : s = _ := congrArg Prod.snd hs
  have hr := Session.eval_of_definition s "val y : a = 1"
    ⟨.val, .ident "y", some (.var "a"), .number 1⟩ ⟨2, [("y", .int), ("f", scheme .int)]⟩ .int
    [("f", .list []), ("y", .int 1)] (.int 1) (by cbv) (by cbv) (by rw [hs]; cbv)
    (by rw [hs]; rfl)
  refine ⟨by rw [hs]; rfl, congrArg Prod.fst hr, ?_⟩
  rw [show r = _ from hr]
  rfl

end LetPoly
