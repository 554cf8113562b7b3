import LetPoly.Proofs.Compilation
import LetPoly.Proofs.Complaints
import LetPoly.Proofs.RoundTrip

/-! # Validity is decided once

Where definitions may stand and which blocks are allowed is a rule of the grammar, and
inference, evaluation and compilation each refuse a tree that breaks it.  Here it is shown
that the check of placements speaks for all of them.  Whatever a source denotes is valid
(`Expr.Phrase.validate`).  A valid tree that is not a definition is never refused by
inference (`Context.infer_faults`) or by evaluation, as long as the functions of the
environment have valid bodies too (`Value.eval_keeps`), and where no expression of it is
missing it is compiled (`Script.compileTerm_succeeds`).
-/

namespace LetPoly

/-! ## What a source denotes is valid -/

namespace Expr

theorem Placed.validate {e : Expr} (h : e.Placed) : e.validate = .ok () :=
  place_true_eq_ok.2 (.inl h)

/-- A phrase is valid, and up to the level of expressions it is not a definition. -/
theorem Phrase.validate {n : Nat} {w : List Word} {e : Expr} (h : Phrase n w e) :
    e.validate = .ok () ∧ (n ≤ 9 → e.Placed) := by
  have hexpr {n : Nat} {e : Expr} (h : e.Placed) : e.validate = .ok () ∧ (n ≤ 9 → e.Placed) :=
    ⟨h.validate, fun _ => h⟩
  induction h with
  | number | string | boolean | unit | nil | ident => exact hexpr rfl
  | paren h ih => exact hexpr (ih.2 (by omega))
  | @block w stmts hs hw hlast ih =>
    refine hexpr (placed_block.2 ⟨?_, ?_⟩)
    · have hne : stmts ≠ [] := fun h => hw.ne_nil (by rw [h]; rfl)
      have hget := List.getLast?_eq_some_getLast hne
      exact ⟨_, by rw [List.getLast?_map, hget]; rfl, hlast _ hget⟩
    · intro e he
      obtain ⟨s, hs, rfl⟩ := List.mem_map.1 he
      exact (ih s hs).1
  | app hf ha ihf iha => exact hexpr (placed_app.2 ⟨ihf.2 (by omega), iha.2 (by omega)⟩)
  | @binary n v w k op l r hop hlevel hl hr ihl ihr =>
    have := op.level_le
    exact hexpr (placed_binary.2 ⟨ihl.2 (by omega), ihr.2 (by omega)⟩)
  | cons hh ht ihh iht => exact hexpr (placed_cons.2 ⟨ihh.2 (by omega), iht.2 (by omega)⟩)
  | lambda hp hb ih => exact hexpr (placed_lambda.2 (ih.2 (by omega)))
  | cond hc hy hn ihc ihy ihn =>
    exact hexpr (placed_cond.2 ⟨ihc.2 (by omega), ihy.2 (by omega), ihn.2 (by omega)⟩)
  | select he hp hb hw ihe ihb =>
    refine hexpr (placed_select.2 ⟨ihe.2 (by omega), fun arm harm => ?_⟩)
    obtain ⟨spelled, hmem, rfl⟩ := List.mem_map.1 harm
    exact (ihb spelled hmem).2 (by omega)
  | define hk hp ha he ih =>
    exact ⟨place_true_eq_ok.2 (.inr ⟨_, _, _, _, rfl, ih.2 (by omega)⟩), fun h => by omega⟩
  | loosen h ih => exact ⟨ih.1, fun hn => ih.2 (by omega)⟩

theorem validate_of_parse {source : List Char} {e : Expr} (h : parse source = .ok e) :
    e.validate = .ok () := by
  obtain ⟨-, _, _, -, hgives⟩ := Reader.readAll_eq_ok.1 h
  obtain ⟨_, -, hphrase⟩ := reads_read _ hgives
  exact hphrase.validate.1

theorem validate_of_parseProgram {source : List Char} {e : Expr}
    (h : parseProgram source = .ok e) : e.validate = .ok () := by
  obtain ⟨-, hprogram⟩ := parseProgram_eq_ok.1 h
  generalize Token.words source = w at hprogram
  cases hprogram with
  | statement hphrase | ended hphrase => exact hphrase.validate.1

/-- The reader of a sequence reads one statement after the other. -/
theorem validate_of_readSequence {bound n : Nat} {ts rest : List Token} {es : List Expr}
    (h : Reader.Gives (readSequence bound n) ts es rest) : ∀ e ∈ es, e.validate = .ok () := by
  induction n generalizing ts es rest with
  | zero => exact absurd h Reader.not_gives_tooDeep
  | succ n ih =>
    rw [readSequence, Reader.gives_bind] at h
    obtain ⟨t, ts', hpeek, h⟩ := h
    split at h
    · obtain ⟨rfl, -⟩ := Reader.gives_pure.1 h
      simp
    obtain ⟨stmt, mid, hstmt, h⟩ := Reader.gives_bind.1 h
    obtain ⟨_, -, hphrase⟩ := reads_readStatement (reads_read bound) hstmt
    rw [Reader.gives_accept (by decide)] at h
    obtain ⟨_, _, rfl, -, h⟩ | ⟨_, _, rfl, -, h⟩ := h
    · obtain ⟨stmts, _, hstmts, h⟩ := Reader.gives_bind.1 h
      obtain ⟨rfl, -⟩ := Reader.gives_pure.1 h
      exact List.forall_mem_cons.2 ⟨hphrase.validate.1, ih hstmts⟩
    · obtain ⟨rfl, -⟩ := Reader.gives_pure.1 h
      exact List.forall_mem_singleton.2 hphrase.validate.1

theorem validate_of_parseStatements {source : List Char} {es : List Expr}
    (h : parseStatements source = .ok es) : ∀ e ∈ es, e.validate = .ok () := by
  obtain ⟨-, _, _, -, hgives⟩ := Reader.readAll_eq_ok.1 h
  exact validate_of_readSequence hgives

end Expr

/-! ## Evaluation -/

/-- **A value whose functions have well-placed bodies**, also those in the environments of
functions. -/
inductive Value.Placed : Value → Prop
  | int (n : Int64) : Placed (.int n)
  | bool (b : Bool) : Placed (.bool b)
  | string (s : String) : Placed (.string s)
  | unit : Placed .unit
  | nil : Placed (.list [])
  | cons {v : Value} {vs : List Value} (head : Placed v) (tail : Placed (.list vs)) :
    Placed (.list (v :: vs))
  | closure {p : Pat} {b : Expr} {ρ : Env} (body : b.Placed)
    (env : ∀ x v, SortedMap.get? ρ x = some v → Placed v) : Placed (.closure p b ρ)

/-- **The functions of an environment have well-placed bodies.** -/
def Env.Placed (ρ : Env) : Prop := ∀ x v, ρ.get? x = some v → v.Placed

theorem Env.placed_empty : Env.Placed [] := by
  intro x v h
  cases h

theorem Env.Placed.insert {ρ : Env} (hρ : ρ.Placed) (x : String) {v : Value} (hv : v.Placed) :
    Env.Placed (SortedMap.insert ρ x v) := by
  intro y w hw
  by_cases hyx : y = x
  · subst hyx
    rw [SortedMap.get?_insert_self, Option.some.injEq] at hw
    exact hw ▸ hv
  · rw [SortedMap.get?_insert_of_ne _ _ hyx] at hw
    exact hρ y w hw

/-- Evaluation has met a tree that is not valid. -/
def RuntimeError.isMisplacement : RuntimeError → Bool
  | .emptyBlock | .endsInDefinition _ | .strayDefinition _ => true
  | _ => false

/-- A result of some kind, or a failure that is not the fault of a misplaced form. -/
def Keeps {α : Type} (P : α → Prop) (x : Except RuntimeError α) : Prop :=
  match x with
  | .ok a => P a
  | .error err => err.isMisplacement = false

theorem Keeps.bind {α β : Type} {P : α → Prop} {Q : β → Prop} {x : Except RuntimeError α}
    {f : α → Except RuntimeError β} (h : Keeps P x) (hf : ∀ a, P a → Keeps Q (f a)) :
    Keeps Q (x >>= f) := by
  cases x with
  | error err => exact h
  | ok a => exact hf a h

namespace Value

section
variable {v w : Value} {ρ : Env}

theorem Placed.of_cons {vs : List Value} (h : Placed (.list (v :: vs))) :
    v.Placed ∧ Placed (.list vs) := by
  cases h with
  | cons hhead htail => exact ⟨hhead, htail⟩

/-- What a pattern binds are parts of the value. -/
theorem bind_keeps (p : Pat) (hv : v.Placed) (hρ : ρ.Placed) : Env.Placed (bind p v ρ).1 := by
  fun_induction bind p v ρ with
  | case2 x v ρ => exact hρ.insert x hv
  | case8 p q v vs ρ ρ₁ hp ihp ihq =>
    obtain ⟨hhead, htail⟩ := hv.of_cons
    have ihp := ihp hhead hρ
    rw [hp] at ihp
    exact ihq htail ihp
  | case9 p q v vs ρ ρ₁ ok hp hok ihp =>
    have ihp := ihp hv.of_cons.1 hρ
    rwa [hp] at ihp
  | _ => exact hρ

theorem bindValue_keeps (p : Pat) (hv : v.Placed) (hρ : ρ.Placed) :
    Keeps Env.Placed (bindValue p v ρ) := by
  have hbind := bind_keeps p hv hρ
  rw [bindValue]
  split
  · next h =>
    rw [h] at hbind
    exact hbind
  · rfl

theorem operate_keeps (op : Op) (v w : Value) : Keeps Placed (operate op v w) := by
  have hints (m n : Int64) : Keeps Placed (operateInts op m n) := by
    cases op with
    | plus | minus | times => exact .int _
    | less | lessEq | greater | greaterEq => exact .bool _
    | divide =>
      rw [operateInts]
      split
      · rfl
      · exact .int _
    | equal | notEqual | and | or | unknown => rfl
  unfold operate
  split
  · exact .bool _
  split
  · exact .bool _
  split
  · exact hints _ _
  · rfl

theorem cell_keeps (hv : v.Placed) (hw : w.Placed) : Keeps Placed (cell v w) := by
  cases hw with
  | nil => exact .cons hv .nil
  | cons hhead htail => exact .cons hv (.cons hhead htail)
  | _ => rfl

/-- The body of a call is well placed, and so are the functions of its environment. -/
theorem enter_keeps (hv : v.Placed) (hw : w.Placed) :
    Keeps (fun called => Env.Placed called.1 ∧ called.2.Placed) (enter v w) := by
  cases hv with
  | @closure p b ρ hbody hρ =>
    have hbind := bind_keeps p hw hρ
    rw [enter]
    split
    · next h =>
      rw [h] at hbind
      exact ⟨hbind, hbody⟩
    · rfl
  | _ => rfl

theorem leadUp_keeps {value : Env → Expr → Except RuntimeError Value}
    (hvalue : ∀ {e : Expr} {ρ : Env}, e.Placed → ρ.Placed → Keeps Placed (value ρ e))
    {ss : List Expr} (hss : (Expr.block ss).Placed) {ρ : Env} (hρ : ρ.Placed) :
    Keeps (fun last => Env.Placed last.1 ∧ last.2.Placed) (leadUp value ρ ss) := by
  induction ss generalizing ρ with
  | nil => exact absurd hss Expr.not_placed_block_nil
  | cons e ss ih =>
    cases ss with
    | nil =>
      have he := Expr.placed_block_last.1 hss
      rw [leadUp_last value ρ he.not_definition]
      exact ⟨hρ, he⟩
    | cons s ss =>
      cases hdef : e.isDefinition with
      | true =>
        obtain ⟨k, p, a, v, rfl⟩ := Expr.isDefinition_iff.1 hdef
        obtain ⟨hv, hrest⟩ := Expr.placed_block_define.1 hss
        rw [leadUp_define]
        exact (hvalue hv hρ).bind fun w hw => (bindValue_keeps p hw hρ).bind fun _ hρ' =>
          ih hrest hρ'
      | false =>
        obtain ⟨he, hrest⟩ := (Expr.placed_block_stmt hdef).1 hss
        rw [leadUp_stmt value ρ hdef]
        exact (hvalue he hρ).bind fun _ _ => ih hrest hρ

end

/-- **Evaluation of a well-placed expression meets well-placed expressions only**, if the
functions of the environment have well-placed bodies. -/
theorem eval_keeps (n : Nat) {e : Expr} {ρ : Env} (he : e.Placed) (hρ : ρ.Placed) :
    Keeps Placed (eval n ρ e) := by
  induction n generalizing e ρ with
  | zero => rfl
  | succ n ih =>
    cases e with
    | number k => exact .int k
    | string s => exact .string s
    | boolean b => exact .bool b
    | unit => exact .unit
    | nil => exact .nil
    | ident x =>
      rw [eval]
      split
      · next v hv => exact hρ x v hv
      · rfl
    | binary op l r =>
      obtain ⟨hl, hr⟩ := Expr.placed_binary.1 he
      cases hop : op.isLogical with
      | false =>
        rw [eval_operation n ρ hop]
        exact (ih hl hρ).bind fun v _ => (ih hr hρ).bind fun w _ => operate_keeps op v w
      | true =>
        rw [eval_logical n ρ hop]
        refine (ih hl hρ).bind fun v hv => ?_
        cases hv with
        | bool b =>
          by_cases hb : decides op b
          · simp only [hb, if_true]
            exact .bool b
          · simp only [hb]
            refine (ih hr hρ).bind fun w hw => ?_
            cases hw with
            | bool c => exact .bool c
            | _ => rfl
        | _ => rfl
    | cons h t =>
      obtain ⟨hh, ht⟩ := Expr.placed_cons.1 he
      rw [eval_cons]
      exact (ih hh hρ).bind fun _ hv => (ih ht hρ).bind fun _ hw => cell_keeps hv hw
    | cond c y no =>
      obtain ⟨hc, hy, hno⟩ := Expr.placed_cond.1 he
      rw [eval_cond]
      refine (ih hc hρ).bind fun v hv => ?_
      cases hv with
      | bool b =>
        cases b with
        | true => exact ih hy hρ
        | false => exact ih hno hρ
      | _ => rfl
    | lambda p a b => exact .closure (Expr.placed_lambda.1 he) hρ
    | app f a =>
      obtain ⟨hf, ha⟩ := Expr.placed_app.1 he
      rw [eval_app]
      exact (ih hf hρ).bind fun _ hv => (ih ha hρ).bind fun _ hw =>
        (enter_keeps hv hw).bind fun _ hcalled => ih hcalled.2 hcalled.1
    | block ss => exact (leadUp_keeps ih he hρ).bind fun _ hlast => ih hlast.2 hlast.1
    | select v arms =>
      obtain ⟨hv, harms⟩ := Expr.placed_select.1 he
      rw [eval_select]
      refine (ih hv hρ).bind fun w hw => ?_
      split
      · next ρ' b hchosen =>
        obtain ⟨p, hmem, hbind⟩ := chosen?_eq_some hchosen
        have hρ' := bind_keeps p hw hρ
        rw [hbind] at hρ'
        exact ih (harms _ hmem) hρ'
      · rfl
    | define => exact absurd he Expr.not_placed_define
    | missing => rfl

end Value

/-! ## Compilation -/

namespace Expr

mutual
/-- **No expression of the tree is missing.** -/
def isWhole : Expr → Bool
  | .binary _ l r => l.isWhole && r.isWhole
  | .cons h t => h.isWhole && t.isWhole
  | .cond c y n => c.isWhole && y.isWhole && n.isWhole
  | .lambda _ _ b => b.isWhole
  | .app f a => f.isWhole && a.isWhole
  | .block ss => stmtsWhole ss
  | .select v arms => v.isWhole && armsWhole arms
  | .define _ _ _ v => v.isWhole
  | .missing => false
  | _ => true

def stmtsWhole : List Expr → Bool
  | [] => true
  | e :: es => e.isWhole && stmtsWhole es

def armsWhole : List (Pat × Expr) → Bool
  | [] => true
  | (_, e) :: arms => e.isWhole && armsWhole arms
end

theorem stmtsWhole_iff {ss : List Expr} : stmtsWhole ss ↔ ∀ s ∈ ss, s.isWhole := by
  induction ss with
  | nil => simp [stmtsWhole]
  | cons s ss ih => simp [stmtsWhole, ih]

theorem armsWhole_iff {arms : List (Pat × Expr)} : armsWhole arms ↔ ∀ arm ∈ arms, arm.2.isWhole := by
  induction arms with
  | nil => simp [armsWhole]
  | cons arm arms ih => simp [armsWhole, ih]

end Expr

namespace Script

/-- The computation succeeds, whatever names have been given before. -/
def Succeeds {α : Type} (m : Emit α) : Prop := ∀ ns, ∃ a ns', Emits m ns a ns'

section
variable {α β : Type}

theorem succeeds_pure (a : α) : Succeeds (pure a) := fun ns => ⟨a, ns, emits_pure.2 ⟨rfl, rfl⟩⟩

theorem succeeds_fresh (x : String) : Succeeds (fresh x) :=
  fun _ => ⟨_, _, emits_fresh.2 rfl⟩

theorem succeeds_temp : Succeeds temp := fun _ => ⟨_, _, emits_temp.2 rfl⟩

theorem Succeeds.bind {m : Emit α} {f : α → Emit β} (hm : Succeeds m) (hf : ∀ a, Succeeds (f a)) :
    Succeeds (m >>= f) := by
  intro ns
  obtain ⟨a, ns₁, ha⟩ := hm ns
  obtain ⟨b, ns₂, hb⟩ := hf a ns₁
  exact ⟨b, ns₂, emits_bind.2 ⟨a, ns₁, ha, hb⟩⟩

end

/-- A pattern of any form is compiled. -/
theorem compilePattern_succeeds (p : Pat) (path : Path) (sc : Scope) :
    Succeeds (compilePattern path sc p) := by
  induction p generalizing path sc with
  | ident x => exact (succeeds_fresh x).bind fun _ => succeeds_pure _
  | cons p q ihp ihq => exact (ihp _ _).bind fun _ => (ihq _ _).bind fun _ => succeeds_pure _
  | _ => exact succeeds_pure _

theorem compileBinding_succeeds (p : Pat) (value : Term) (sc : Scope) :
    Succeeds (compileBinding p value sc) := by
  unfold compileBinding
  split
  · exact (succeeds_fresh _).bind fun _ => succeeds_pure _
  · exact succeeds_temp.bind fun _ => (compilePattern_succeeds _ _ _).bind fun _ => succeeds_pure _

theorem compileArms_succeeds {arms : List (Pat × Expr)}
    (h : ∀ arm ∈ arms, ∀ sc, Succeeds (compileTerm sc arm.2)) (path : Path) (sc : Scope) :
    Succeeds (compileArms path sc arms) := by
  induction arms with
  | nil => exact succeeds_pure _
  | cons arm arms ih =>
    obtain ⟨harm, hrest⟩ := List.forall_mem_cons.1 h
    rw [compileArms]
    exact (compilePattern_succeeds _ _ _).bind fun _ => (harm _).bind fun _ =>
      (ih hrest).bind fun _ => succeeds_pure _

theorem compileBlock_succeeds {ss : List Expr} (hss : (Expr.block ss).Placed)
    (hstmts : ∀ s ∈ ss, s.Placed → ∀ sc, Succeeds (compileTerm sc s))
    (hvalues : ∀ k p a v, .define k p a v ∈ ss → v.Placed → ∀ sc, Succeeds (compileTerm sc v))
    (sc : Scope) : Succeeds (compileBlock sc ss) := by
  induction ss generalizing sc with
  | nil => exact absurd hss Expr.not_placed_block_nil
  | cons e ss ih =>
    cases ss with
    | nil =>
      have he := hstmts e (by simp) (Expr.placed_block_last.1 hss) sc
      rw [compileBlock]
      exact he.bind fun _ => succeeds_pure _
    | cons s ss =>
      have hrest (h : (Expr.block (s :: ss)).Placed) :=
        ih h (fun e he => hstmts e (List.mem_cons_of_mem _ he))
          fun k p a v hv => hvalues k p a v (List.mem_cons_of_mem _ hv)
      cases hdef : e.isDefinition with
      | true =>
        obtain ⟨k, p, a, v, rfl⟩ := Expr.isDefinition_iff.1 hdef
        obtain ⟨hv, hplaced⟩ := Expr.placed_block_define.1 hss
        rw [compileBlock_define]
        exact (hvalues k p a v (by simp) hv sc).bind fun _ =>
          (compileBinding_succeeds _ _ _).bind fun _ => (hrest hplaced _).bind fun _ =>
            succeeds_pure _
      | false =>
        obtain ⟨he, hplaced⟩ := (Expr.placed_block_stmt hdef).1 hss
        rw [compileBlock_stmt sc hdef]
        exact (hstmts e (by simp) he sc).bind fun _ => (hrest hplaced sc).bind fun _ =>
          succeeds_pure _

/-- **A well-placed expression without a missing part is compiled.** -/
theorem compileTerm_succeeds (e : Expr) (he : e.Placed) (hwhole : e.isWhole) (sc : Scope) :
    Succeeds (compileTerm sc e) := by
  induction e using Expr.induction generalizing sc with
  | number | string | boolean | unit | nil | ident => exact succeeds_pure _
  | binary op l r ihl ihr =>
    obtain ⟨hl, hr⟩ := Expr.placed_binary.1 he
    simp only [Expr.isWhole, Bool.and_eq_true] at hwhole
    rw [compileTerm]
    exact (ihl hl hwhole.1 sc).bind fun _ => (ihr hr hwhole.2 sc).bind fun _ => succeeds_pure _
  | cons h t ihh iht =>
    obtain ⟨hh, ht⟩ := Expr.placed_cons.1 he
    simp only [Expr.isWhole, Bool.and_eq_true] at hwhole
    rw [compileTerm]
    exact (ihh hh hwhole.1 sc).bind fun _ => (iht ht hwhole.2 sc).bind fun _ => succeeds_pure _
  | cond c y n ihc ihy ihn =>
    obtain ⟨hc, hy, hn⟩ := Expr.placed_cond.1 he
    simp only [Expr.isWhole, Bool.and_eq_true] at hwhole
    rw [compileTerm]
    exact (ihc hc hwhole.1.1 sc).bind fun _ => (ihy hy hwhole.1.2 sc).bind fun _ =>
      (ihn hn hwhole.2 sc).bind fun _ => succeeds_pure _
  | lambda p a b ih =>
    have hb (sc : Scope) := ih (Expr.placed_lambda.1 he) (by simpa [Expr.isWhole] using hwhole) sc
    cases p with
    | ident x =>
      exact (succeeds_fresh x).bind fun _ => (hb _).bind fun _ => succeeds_pure _
    | wildcard =>
      exact (hb sc).bind fun _ => succeeds_temp.bind fun _ => succeeds_pure _
    | _ =>
      exact succeeds_temp.bind fun _ => (compilePattern_succeeds _ _ _).bind fun _ =>
        (hb _).bind fun _ => succeeds_pure _
  | app f a ihf iha =>
    obtain ⟨hf, ha⟩ := Expr.placed_app.1 he
    simp only [Expr.isWhole, Bool.and_eq_true] at hwhole
    rw [compileTerm]
    exact (ihf hf hwhole.1 sc).bind fun _ => (iha ha hwhole.2 sc).bind fun _ => succeeds_pure _
  | block ss hstmts hvalues =>
    rw [Expr.isWhole, Expr.stmtsWhole_iff] at hwhole
    rw [compileTerm]
    refine (compileBlock_succeeds he (fun s hs hp => hstmts s hs hp (hwhole s hs)) ?_ sc).bind
      fun _ => succeeds_pure _
    exact fun k p a v hs hp => hvalues k p a v hs hp
      (by simpa [Expr.isWhole] using hwhole _ hs)
  | select v arms ihv iharms =>
    obtain ⟨hv, harms⟩ := Expr.placed_select.1 he
    rw [Expr.isWhole, Bool.and_eq_true, Expr.armsWhole_iff] at hwhole
    rw [compileTerm]
    refine (ihv hv hwhole.1 sc).bind fun _ => succeeds_temp.bind fun _ =>
      (compileArms_succeeds (fun arm hmem => ?_) _ sc).bind fun _ => succeeds_pure _
    exact iharms arm hmem (harms arm hmem) (hwhole.2 arm hmem)
  | define => exact absurd he Expr.not_placed_define
  | missing => cases hwhole

theorem compile_expression {e : Expr} (he : e.isDefinition = false) :
    compile e = checkPlacement e >>= fun _ => compileTerm [] e {} >>= fun r => pure r.1 := by
  cases e with
  | define => cases he
  | _ => rfl

/-- What is compiled are the well-placed expressions, from an unused supply of names. -/
theorem compile_eq_ok {e : Expr} {t : Term} :
    compile e = .ok t ↔ e.Placed ∧ ∃ ns, Emits (compileTerm [] e) {} t ns := by
  cases hdef : e.isDefinition with
  | true =>
    obtain ⟨k, p, a, v, rfl⟩ := Expr.isDefinition_iff.1 hdef
    refine iff_of_false (fun h => ?_) fun h => Expr.not_placed_define h.1
    rw [compile, checkPlacement] at h
    cases hvalid : (Expr.define k p a v).validate <;> rw [hvalid] at h <;> cases h
  | false =>
    rw [compile_expression hdef, checkPlacement, ← Expr.validate_eq_ok hdef]
    rcases e.validate with m | _
    · refine iff_of_false (fun h => ?_) fun h => ?_
      · cases h
      · cases h.1
    · change (compileTerm [] e {} >>= fun r => pure r.1) = .ok t ↔ _
      rcases hterm : compileTerm [] e {} with err | ⟨t', ns⟩
      · simp [Emits, hterm, Bind.bind, Except.bind]
      · simp [Emits, hterm, Bind.bind, Except.bind, pure, Except.pure]

end Script

/-- **Validity is decided once.**  The trees that sources denote are valid.  Of a valid
tree that is not a definition, inference disallows no form other than a pattern of a
definition, whatever is assumed; evaluation meets no misplaced form, with any bound on its
depth and in every environment whose functions have valid bodies; and if no expression of
the tree is missing, it is compiled. -/
theorem validity_decided :
    (∀ source e, Expr.parse source = .ok e → e.validate = .ok ()) ∧
      (∀ source e, Expr.parseProgram source = .ok e → e.validate = .ok ()) ∧
      (∀ source es, Expr.parseStatements source = .ok es → ∀ e ∈ es, e.validate = .ok ()) ∧
      ∀ e : Expr, e.validate = .ok () → e.isDefinition = false →
        (∀ (ctx : Context) env form, (ctx.infer env e).1 = .error (.disallowed form) →
          ∃ p, form = .definedPattern p) ∧
        (∀ n (ρ : Env) err, ρ.Placed → Value.eval n ρ e = .error err →
          err.isMisplacement = false) ∧
        (e.isWhole → ∃ t, Script.compile e = .ok t) := by
  refine ⟨fun _ _ => Expr.validate_of_parse, fun _ _ => Expr.validate_of_parseProgram,
    fun _ _ => Expr.validate_of_parseStatements, fun e hvalid he => ?_⟩
  have hplaced : e.Placed := (Expr.validate_eq_ok he).1 hvalid
  refine ⟨fun ctx env form herror => ?_, fun n ρ err hρ herror => ?_, fun hwhole => ?_⟩
  · have hfault := Context.infer_faults hplaced herror
    cases hfault with
    | definedPattern p => exact ⟨p, rfl⟩
  · have hkeeps := Value.eval_keeps n hplaced hρ
    rwa [herror] at hkeeps
  · obtain ⟨t, ns, hrun⟩ := Script.compileTerm_succeeds e hplaced hwhole [] {}
    exact ⟨t, Script.compile_eq_ok.2 ⟨hplaced, ns, hrun⟩⟩

/-- A call of a function of the environment, whose body is a block. -/
theorem validity_decided_call :
    let e : Expr := .app (.ident "f") (.number 1)
    let ρ : Env := SortedMap.insert [] "f" (.closure (.ident "x") (.block [.ident "x"]) [])
    e.validate = .ok () ∧ ρ.Placed ∧
      (∀ n err, Value.eval n ρ e = .error err → err.isMisplacement = false) ∧
      ∃ t, Script.compile e = .ok t := by
  intro e ρ
  have hρ : ρ.Placed := Env.placed_empty.insert "f" (.closure rfl Env.placed_empty)
  obtain ⟨-, heval, hcompile⟩ := validity_decided.2.2.2 e rfl rfl
  exact ⟨rfl, hρ, fun n err => heval n ρ err hρ, hcompile rfl⟩

/-- The environment may hold a function that no valid tree makes; its body is not seen
before the call. -/
theorem eval_function_without_statements :
    let e : Expr := .app (.ident "f") (.number 1)
    let ρ : Env := SortedMap.insert [] "f" (.closure (.ident "x") (.block []) [])
    e.validate = .ok () ∧ e.isDefinition = false ∧ e.isWhole ∧
      Value.eval 2 ρ e = .error .emptyBlock :=
  ⟨rfl, rfl, rfl, rfl⟩

end LetPoly
