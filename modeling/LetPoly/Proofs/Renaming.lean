import LetPoly.Proofs.Pruning

/-! # Renaming without capture

A program may be written with other names, if each identifier still stands for the same
binding.  Here `f` gives the old name of each new one, and several new names may have the
same old name: what was bound twice may be told apart.  An expression is **resolved** where
each identifier is the innermost one in scope among the names with its old name
(`Expr.Resolved`); then renaming captures none.

Evaluation of a resolved program and of the renamed one go in step (`eval_rename`).  A name
of the first that is the innermost with its old name has a value in the one environment,
and its old name has the same value in the other, up to the names within functions
(`Env.Renamed`).  Binding a pattern puts its names in front, the last one innermost, for it
is the last that is bound.
-/

namespace LetPoly

/-! ## Other names -/

/-- The pattern with each name replaced. -/
def Pat.rename (f : String → String) : Pat → Pat
  | .ident x => .ident (f x)
  | .cons h t => .cons (h.rename f) (t.rename f)
  | .number n => .number n
  | .string s => .string s
  | .boolean b => .boolean b
  | .unit => .unit
  | .wildcard => .wildcard
  | .nil => .nil
  | .missing => .missing

/-- A pattern without names stays as it is. -/
theorem Pat.rename_eq_self {f : String → String} {p : Pat} (h : p.names = []) :
    p.rename f = p := by
  induction p with
  | ident x => cases h
  | cons p q ihp ihq =>
    obtain ⟨hp, hq⟩ := List.append_eq_nil_iff.1 h
    rw [rename, ihp hp, ihq hq]
  | number | string | boolean | unit | wildcard | nil | missing => rfl

namespace Expr

mutual
/-- **The expression with each name replaced**, where it is bound and where it is used. -/
def rename (f : String → String) : Expr → Expr
  | .number n => .number n
  | .string s => .string s
  | .boolean b => .boolean b
  | .unit => .unit
  | .nil => .nil
  | .ident x => .ident (f x)
  | .binary op l r => .binary op (l.rename f) (r.rename f)
  | .cons h t => .cons (h.rename f) (t.rename f)
  | .cond c y n => .cond (c.rename f) (y.rename f) (n.rename f)
  | .lambda p a b => .lambda (p.rename f) a (b.rename f)
  | .app g a => .app (g.rename f) (a.rename f)
  | .block ss => .block (renameStmts f ss)
  | .select v arms => .select (v.rename f) (renameArms f arms)
  | .define k p a v => .define k (p.rename f) a (v.rename f)
  | .missing => .missing

def renameStmts (f : String → String) : List Expr → List Expr
  | [] => []
  | e :: es => e.rename f :: renameStmts f es

def renameArms (f : String → String) : List (Pat × Expr) → List (Pat × Expr)
  | [] => []
  | (p, b) :: arms => (p.rename f, b.rename f) :: renameArms f arms
end

mutual
/-- **Each identifier stands for the innermost binding among those with its old name.**  The
names in scope are listed with the innermost first: those of a pattern are bound from left to
right, and so the last one hides the others. -/
def Resolved (f : String → String) (scope : List String) : Expr → Prop
  | .ident x => scope.find? (f · == f x) = some x
  | .binary _ l r => l.Resolved f scope ∧ r.Resolved f scope
  | .cons h t => h.Resolved f scope ∧ t.Resolved f scope
  | .cond c y n => c.Resolved f scope ∧ y.Resolved f scope ∧ n.Resolved f scope
  | .lambda p _ b => b.Resolved f (p.names.reverse ++ scope)
  | .app g a => g.Resolved f scope ∧ a.Resolved f scope
  | .block ss => ResolvedStmts f scope ss
  | .select v arms => v.Resolved f scope ∧ ResolvedArms f scope arms
  | .define _ _ _ v => v.Resolved f scope
  | .number _ | .string _ | .boolean _ | .unit | .nil | .missing => True

/-- What a statement defines is in scope in those after it. -/
def ResolvedStmts (f : String → String) (scope : List String) : List Expr → Prop
  | [] => True
  | .define _ p _ v :: ss => v.Resolved f scope ∧ ResolvedStmts f (p.names.reverse ++ scope) ss
  | e :: ss => e.Resolved f scope ∧ ResolvedStmts f scope ss

def ResolvedArms (f : String → String) (scope : List String) : List (Pat × Expr) → Prop
  | [] => True
  | (p, b) :: arms => b.Resolved f (p.names.reverse ++ scope) ∧ ResolvedArms f scope arms
end

theorem resolvedStmts_stmt {f : String → String} {scope : List String} {e : Expr}
    (he : e.isDefinition = false) (ss : List Expr) :
    ResolvedStmts f scope (e :: ss) ↔ e.Resolved f scope ∧ ResolvedStmts f scope ss := by
  cases e with
  | define => cases he
  | _ => rfl

theorem isDefinition_rename (f : String → String) (e : Expr) :
    (e.rename f).isDefinition = e.isDefinition := by
  cases e <;> rfl

end Expr

/-! ## Values up to names -/

/-- **Values that differ in the names within their functions only**, the renamed one second. -/
inductive Value.Renamed (f : String → String) : Value → Value → Prop
  | int (n : Int64) : Renamed f (.int n) (.int n)
  | bool (b : Bool) : Renamed f (.bool b) (.bool b)
  | string (s : String) : Renamed f (.string s) (.string s)
  | unit : Renamed f .unit .unit
  | nil : Renamed f (.list []) (.list [])
  | cons {v w : Value} {vs ws : List Value} (head : Renamed f v w)
    (tail : Renamed f (.list vs) (.list ws)) : Renamed f (.list (v :: vs)) (.list (w :: ws))
  | closure {p : Pat} {b : Expr} {scope : List String} {ρ ρ' : Env}
    (resolved : b.Resolved f (p.names.reverse ++ scope))
    (bound : ∀ x, scope.find? (f · == f x) = some x →
      (SortedMap.get? ρ x).isSome ∧ (SortedMap.get? ρ' (f x)).isSome)
    (renamed : ∀ x, scope.find? (f · == f x) = some x → ∀ v w, SortedMap.get? ρ x = some v →
      SortedMap.get? ρ' (f x) = some w → Renamed f v w) :
    Renamed f (.closure p b ρ) (.closure (p.rename f) (b.rename f) ρ')

/-- **Environments with the same values, up to names**: a name that is the innermost with
its old name has the value that its old name has on the other side. -/
def Env.Renamed (f : String → String) (scope : List String) (ρ ρ' : Env) : Prop :=
  ∀ x, scope.find? (f · == f x) = some x →
    ∃ v w, ρ.get? x = some v ∧ ρ'.get? (f x) = some w ∧ v.Renamed f w

section
variable {f : String → String} {scope : List String} {ρ ρ' : Env} {v w v' w' : Value}

theorem Env.renamed_empty : Env.Renamed f [] ρ ρ' := by
  intro x hx
  cases hx

theorem Env.Renamed.insert (h : Env.Renamed f scope ρ ρ') (x : String) (hv : v.Renamed f w) :
    Env.Renamed f (x :: scope) (ρ.insert x v) (ρ'.insert (f x) w) := by
  intro y hy
  rw [List.find?_cons] at hy
  by_cases hxy : f x = f y
  · -- Both environments have just been given a value for it.
    simp only [hxy, BEq.rfl, Option.some.injEq] at hy
    subst hy
    exact ⟨v, w, SortedMap.get?_insert_self _ _ _, SortedMap.get?_insert_self _ _ _, hv⟩
  · have hb : (f x == f y) = false := by simpa using hxy
    simp only [hb] at hy
    obtain ⟨u, u', hu, hu', hren⟩ := h y hy
    refine ⟨u, u', ?_, ?_, hren⟩
    · rwa [SortedMap.get?_insert_of_ne _ _ (by rintro rfl; exact hxy rfl)]
    · rwa [SortedMap.get?_insert_of_ne _ _ (Ne.symm hxy)]

namespace Value

theorem renamed_closure {p : Pat} {b : Expr} (hb : b.Resolved f (p.names.reverse ++ scope))
    (h : Env.Renamed f scope ρ ρ') :
    Renamed f (.closure p b ρ) (.closure (p.rename f) (b.rename f) ρ') := by
  refine .closure hb (fun x hx => ?_) fun x hx u u' hu hu' => ?_
  · obtain ⟨u, u', hu, hu', -⟩ := h x hx
    exact ⟨Option.isSome_iff_exists.2 ⟨u, hu⟩, Option.isSome_iff_exists.2 ⟨u', hu'⟩⟩
  · obtain ⟨w, w', hw, hw', hren⟩ := h x hx
    obtain rfl : w = u := Option.some.inj (hw.symm.trans hu)
    obtain rfl : w' = u' := Option.some.inj (hw'.symm.trans hu')
    exact hren

/-- A function on one side is the renamed function on the other. -/
theorem Renamed.of_closure {p : Pat} {b : Expr} (h : Renamed f (.closure p b ρ) w) :
    ∃ scope ρ', w = .closure (p.rename f) (b.rename f) ρ' ∧
      b.Resolved f (p.names.reverse ++ scope) ∧ Env.Renamed f scope ρ ρ' := by
  cases h with
  | @closure _ _ scope _ ρ' hb hbound hren =>
    refine ⟨scope, ρ', rfl, hb, fun x hx => ?_⟩
    obtain ⟨hs, hs'⟩ := hbound x hx
    obtain ⟨u, hu⟩ := Option.isSome_iff_exists.1 hs
    obtain ⟨u', hu'⟩ := Option.isSome_iff_exists.1 hs'
    exact ⟨u, u', hu, hu', hren x hx u u' hu hu'⟩

/-- Values up to names compare the same way. -/
theorem Renamed.equal_eq (h : Renamed f v w) (h' : Renamed f v' w') :
    v.equal v' = w.equal w' := by
  induction h generalizing v' w' with
  | int | bool | string | unit | nil | closure => cases h' <;> rfl
  | cons _ _ ihv ihvs =>
    cases h' with
    | cons hv' hvs' => exact congrArg₂ (· && ·) (ihv hv') (ihvs hvs')
    | _ => rfl

/-- **A pattern and the renamed one match the same values**, and leave environments with the
same values. -/
theorem bind_rename (p : Pat) (hv : Renamed f v w) (hρ : Env.Renamed f scope ρ ρ') :
    (bind p v ρ).2 = (bind (p.rename f) w ρ').2 ∧ ((bind p v ρ).2 = true →
      Env.Renamed f (p.names.reverse ++ scope) (bind p v ρ).1 (bind (p.rename f) w ρ').1) := by
  induction p generalizing v w scope ρ ρ' with
  | wildcard | number | string | boolean | unit | nil | missing =>
    cases hv <;> exact ⟨rfl, fun _ => hρ⟩
  | ident x =>
    rw [Pat.rename, bind, bind]
    exact ⟨rfl, fun _ => hρ.insert x hv⟩
  | cons p q ihp ihq =>
    cases hv with
    | @cons v w vs ws hv hvs =>
      obtain ⟨hok, hp⟩ := ihp hv hρ
      rw [Pat.rename, bind, bind]
      rcases hb : bind p v ρ with ⟨ρ₁, ok⟩
      rcases hb' : bind (p.rename f) w ρ' with ⟨ρ₁', ok'⟩
      rw [hb, hb'] at hok hp
      obtain rfl : ok = ok' := hok
      cases ok with
      | false => exact ⟨rfl, by simp⟩
      | true =>
        obtain ⟨hok, hq⟩ := ihq hvs (hp rfl)
        refine ⟨hok, fun h => ?_⟩
        rw [Pat.names, List.reverse_append, List.append_assoc]
        exact hq h
    | _ => exact ⟨rfl, by simp [bind]⟩

/-- A value and the renamed one are both matched, or both are not. -/
theorem bind_rename_cases (p : Pat) (hv : Renamed f v w) (hρ : Env.Renamed f scope ρ ρ') :
    (∃ ρ₁ ρ₁', bind p v ρ = (ρ₁, true) ∧ bind (p.rename f) w ρ' = (ρ₁', true) ∧
      Env.Renamed f (p.names.reverse ++ scope) ρ₁ ρ₁') ∨
      ∃ ρ₁ ρ₁', bind p v ρ = (ρ₁, false) ∧ bind (p.rename f) w ρ' = (ρ₁', false) := by
  obtain ⟨hok, hren⟩ := bind_rename p hv hρ
  rcases hb : bind p v ρ with ⟨ρ₁, ok⟩
  rcases hb' : bind (p.rename f) w ρ' with ⟨ρ₁', ok'⟩
  rw [hb, hb'] at hok hren
  obtain rfl : ok = ok' := hok
  cases ok with
  | false => exact .inr ⟨ρ₁, ρ₁', rfl, rfl⟩
  | true => exact .inl ⟨ρ₁, ρ₁', rfl, rfl, hren rfl⟩

end Value

end

/-! ## Runs in step -/

/-- **Two runs go in step**: both have related results, or both fail, and neither is
exhausted without the other. -/
def InStep {α : Type} (R : α → α → Prop) (x y : Except RuntimeError α) : Prop :=
  match x with
  | .ok v => ∃ w, y = .ok w ∧ R v w
  | .error err => ∃ err', y = .error err' ∧ (err = .exhausted ↔ err' = .exhausted)

section
variable {α β : Type} {R : α → α → Prop} {S : β → β → Prop}

theorem inStep_ok {v w : α} (h : R v w) : InStep R (.ok v) (.ok w) := ⟨w, rfl, h⟩

theorem inStep_error {err err' : RuntimeError} (h : err = .exhausted ↔ err' = .exhausted) :
    InStep R (.error err) (.error err') := ⟨err', rfl, h⟩

theorem InStep.bind {x y : Except RuntimeError α} {g h : α → Except RuntimeError β}
    (hxy : InStep R x y) (hgh : ∀ v w, R v w → InStep S (g v) (h w)) :
    InStep S (x >>= g) (y >>= h) := by
  cases x with
  | error err =>
    obtain ⟨err', rfl, hexhausted⟩ := hxy
    exact inStep_error hexhausted
  | ok v =>
    obtain ⟨w, rfl, hvw⟩ := hxy
    exact hgh v w hvw

end

namespace Value
variable {f : String → String} {scope : List String} {ρ ρ' : Env} {v w v' w' : Value}

theorem bindValue_rename (p : Pat) (hv : Renamed f v w) (hρ : Env.Renamed f scope ρ ρ') :
    InStep (Env.Renamed f (p.names.reverse ++ scope)) (bindValue p v ρ)
      (bindValue (p.rename f) w ρ') := by
  obtain ⟨ρ₁, ρ₁', hb, hb', hren⟩ | ⟨ρ₁, ρ₁', hb, hb'⟩ := bind_rename_cases p hv hρ
  · rw [bindValue, bindValue, hb, hb']
    exact inStep_ok hren
  · rw [bindValue, bindValue, hb, hb']
    exact inStep_error (by simp)

theorem operateInts_inStep (op : Op) (m n : Int64) :
    InStep (Renamed f) (operateInts op m n) (operateInts op m n) := by
  cases op with
  | plus | minus | times => exact inStep_ok (.int _)
  | less | lessEq | greater | greaterEq => exact inStep_ok (.bool _)
  | divide =>
    rw [operateInts]
    split
    · exact inStep_error Iff.rfl
    · exact inStep_ok (.int _)
  | equal | notEqual | and | or | unknown => exact inStep_error Iff.rfl

theorem operate_inStep (op : Op) (h : Renamed f v w) (h' : Renamed f v' w') :
    InStep (Renamed f) (operate op v v') (operate op w w') := by
  simp only [operate, h.equal_eq h']
  split
  · exact inStep_ok (.bool _)
  split
  · exact inStep_ok (.bool _)
  cases h with
  | int m =>
    cases h' with
    | int n => exact operateInts_inStep op m n
    | _ => exact inStep_error (by simp)
  | _ => exact inStep_error (by simp)

theorem cell_inStep (h : Renamed f v w) (h' : Renamed f v' w') :
    InStep (Renamed f) (cell v v') (cell w w') := by
  cases h' with
  | nil => exact inStep_ok (.cons h .nil)
  | cons hv hvs => exact inStep_ok (.cons h (.cons hv hvs))
  | _ => exact inStep_error (by simp)

/-- An expression to be evaluated next, and the renamed one. -/
def Prepared (f : String → String) (c c' : Env × Expr) : Prop :=
  ∃ scope, c.2.Resolved f scope ∧ c'.2 = c.2.rename f ∧ Env.Renamed f scope c.1 c'.1

/-- The same body is evaluated in both calls, up to names. -/
theorem enter_rename (h : Renamed f v w) (h' : Renamed f v' w') :
    InStep (Prepared f) (enter v v') (enter w w') := by
  cases v with
  | closure p b ρ =>
    obtain ⟨scope, ρ', rfl, hb, hρ⟩ := h.of_closure
    obtain ⟨ρ₁, ρ₁', hbind, hbind', hren⟩ | ⟨ρ₁, ρ₁', hbind, hbind'⟩ := bind_rename_cases p h' hρ
    · rw [enter, enter, hbind, hbind']
      exact inStep_ok ⟨_, hb, rfl, hren⟩
    · rw [enter, enter, hbind, hbind']
      exact inStep_error (by simp)
  | _ => cases h <;> exact inStep_error (by simp)

/-- The same case is chosen for both values, if any is. -/
theorem chosen?_rename (h : Renamed f v w) {arms : List (Pat × Expr)}
    (harms : Expr.ResolvedArms f scope arms) (hρ : Env.Renamed f scope ρ ρ') :
    (∃ c c', chosen? v ρ arms = some c ∧ chosen? w ρ' (Expr.renameArms f arms) = some c' ∧
      Prepared f c c') ∨
    chosen? v ρ arms = none ∧ chosen? w ρ' (Expr.renameArms f arms) = none := by
  induction arms with
  | nil => exact .inr ⟨rfl, rfl⟩
  | cons arm arms ih =>
    obtain ⟨p, b⟩ := arm
    obtain ⟨hb, hrest⟩ := harms
    rw [Expr.renameArms, chosen?, chosen?]
    obtain ⟨ρ₁, ρ₁', hbind, hbind', hren⟩ | ⟨ρ₁, ρ₁', hbind, hbind'⟩ := bind_rename_cases p h hρ
    · rw [hbind, hbind']
      exact .inl ⟨_, _, rfl, rfl, _, hb, rfl, hren⟩
    · rw [hbind, hbind']
      exact ih hrest

/-- The statements of a block are gone through in step, up to the last one. -/
theorem leadUp_rename {value : Env → Expr → Except RuntimeError Value}
    (hvalue : ∀ {e : Expr} {scope : List String} {ρ ρ' : Env}, e.Resolved f scope →
      Env.Renamed f scope ρ ρ' → InStep (Renamed f) (value ρ e) (value ρ' (e.rename f)))
    {ss : List Expr} (hss : Expr.ResolvedStmts f scope ss) (hρ : Env.Renamed f scope ρ ρ') :
    InStep (Prepared f) (leadUp value ρ ss) (leadUp value ρ' (Expr.renameStmts f ss)) := by
  induction ss generalizing scope ρ ρ' with
  | nil => exact inStep_error Iff.rfl
  | cons s ss ih =>
    cases hs : s.isDefinition with
    | true =>
      obtain ⟨k, p, a, v, rfl⟩ := Expr.isDefinition_iff.1 hs
      obtain ⟨hv, hrest⟩ := hss
      cases ss with
      | nil => exact inStep_error (by simp)
      | cons s' ss =>
        rw [Expr.renameStmts, Expr.renameStmts, Expr.rename, leadUp_define, leadUp_define]
        exact (hvalue hv hρ).bind fun u u' hu => (bindValue_rename p hu hρ).bind fun ρ₁ ρ₁' hρ₁ =>
          ih hrest hρ₁
    | false =>
      have hs' : (s.rename f).isDefinition = false := (s.isDefinition_rename f).trans hs
      obtain ⟨he, hrest⟩ := (Expr.resolvedStmts_stmt hs ss).1 hss
      cases ss with
      | nil =>
        rw [Expr.renameStmts, Expr.renameStmts, leadUp_last value ρ hs, leadUp_last value ρ' hs']
        exact inStep_ok ⟨scope, he, rfl, hρ⟩
      | cons s' ss =>
        rw [Expr.renameStmts, Expr.renameStmts, leadUp_stmt value ρ hs, leadUp_stmt value ρ' hs']
        exact (hvalue he hρ).bind fun _ _ _ => ih hrest hρ

/-- **A resolved expression and the renamed one are evaluated in step**: renaming changes no
binding that an identifier stands for. -/
theorem eval_rename (n : Nat) {e : Expr} (he : e.Resolved f scope)
    (hρ : Env.Renamed f scope ρ ρ') :
    InStep (Renamed f) (eval n ρ e) (eval n ρ' (e.rename f)) := by
  induction n generalizing e scope ρ ρ' with
  | zero => exact inStep_error Iff.rfl
  | succ n ih =>
    cases e with
    | number k => exact inStep_ok (.int k)
    | string s => exact inStep_ok (.string s)
    | boolean b => exact inStep_ok (.bool b)
    | unit => exact inStep_ok .unit
    | nil => exact inStep_ok .nil
    | ident x =>
      obtain ⟨v, w, hv, hw, hvw⟩ := hρ x he
      rw [Expr.rename, eval_ident n ρ hv, eval_ident n ρ' hw]
      exact inStep_ok hvw
    | binary op l r =>
      obtain ⟨hl, hr⟩ := he
      rw [Expr.rename]
      cases hop : op.isLogical with
      | false =>
        rw [eval_operation n ρ hop, eval_operation n ρ' hop]
        exact (ih hl hρ).bind fun _ _ hlv => (ih hr hρ).bind fun _ _ hrv =>
          operate_inStep op hlv hrv
      | true =>
        rw [eval_logical n ρ hop, eval_logical n ρ' hop]
        refine (ih hl hρ).bind fun lv lw hlv => ?_
        cases hlv with
        | bool b =>
          by_cases hb : decides op b
          · simp only [hb, if_true]
            exact inStep_ok (.bool b)
          · simp only [hb]
            refine (ih hr hρ).bind fun rv rw hrv => ?_
            cases hrv with
            | bool c => exact inStep_ok (.bool c)
            | _ => exact inStep_error (by simp)
        | _ => exact inStep_error (by simp)
    | cons h t =>
      obtain ⟨hh, ht⟩ := he
      rw [Expr.rename, eval_cons, eval_cons]
      exact (ih hh hρ).bind fun _ _ hhv => (ih ht hρ).bind fun _ _ htv => cell_inStep hhv htv
    | cond c y no =>
      obtain ⟨hc, hy, hno⟩ := he
      rw [Expr.rename, eval_cond, eval_cond]
      refine (ih hc hρ).bind fun cv cw hcv => ?_
      cases hcv with
      | bool b =>
        cases b with
        | true => exact ih hy hρ
        | false => exact ih hno hρ
      | _ => exact inStep_error (by simp)
    | lambda p a b => exact inStep_ok (renamed_closure he hρ)
    | app g a =>
      obtain ⟨hg, ha⟩ := he
      rw [Expr.rename, eval_app, eval_app]
      refine (ih hg hρ).bind fun _ _ hgv => (ih ha hρ).bind fun _ _ hav =>
        (enter_rename hgv hav).bind ?_
      rintro ⟨ρ₁, b⟩ ⟨ρ₁', _⟩ ⟨scope₁, hb, rfl, hρ₁⟩
      exact ih hb hρ₁
    | block ss =>
      refine (leadUp_rename ih he hρ).bind ?_
      rintro ⟨ρ₁, b⟩ ⟨ρ₁', _⟩ ⟨scope₁, hb, rfl, hρ₁⟩
      exact ih hb hρ₁
    | select v arms =>
      obtain ⟨hv, harms⟩ := he
      rw [Expr.rename, eval_select, eval_select]
      refine (ih hv hρ).bind fun u u' hu => ?_
      obtain ⟨⟨ρ₁, b⟩, ⟨ρ₁', _⟩, hc, hc', scope₁, hb, rfl, hρ₁⟩ | ⟨hc, hc'⟩ :=
        chosen?_rename hu harms hρ
      · rw [hc, hc']
        exact ih hb hρ₁
      · rw [hc, hc']
        exact inStep_error (by simp)
    | define => exact inStep_error (by simp)
    | missing => exact inStep_error Iff.rfl

/-- A statement and the renamed one leave the same values, up to names. -/
theorem evalStatement_rename (n : Nat) {e : Expr} {ss : List Expr}
    (h : Expr.ResolvedStmts f scope (e :: ss)) (hρ : Env.Renamed f scope ρ ρ') :
    InStep (fun r r' => (∃ scope₁, Expr.ResolvedStmts f scope₁ ss ∧
      Env.Renamed f scope₁ r.1 r'.1) ∧ Renamed f r.2 r'.2)
      (evalStatement n ρ e) (evalStatement n ρ' (e.rename f)) := by
  cases e with
  | define k p a v =>
    obtain ⟨hv, hrest⟩ := h
    exact (eval_rename n hv hρ).bind fun u u' hu => (bindValue_rename p hu hρ).bind
      fun ρ₁ ρ₁' hρ₁ => inStep_ok ⟨⟨_, hrest, hρ₁⟩, hu⟩
  | _ =>
    exact (eval_rename n h.1 hρ).bind fun u u' hu => inStep_ok ⟨⟨scope, h.2, hρ⟩, hu⟩

/-- **A resolved program and the renamed one are run in step.** -/
theorem evalProgram_rename (n : Nat) {ss : List Expr} (hss : Expr.ResolvedStmts f scope ss)
    (hρ : Env.Renamed f scope ρ ρ') :
    InStep (List.Forall₂ (Renamed f)) (evalProgram n ρ ss)
      (evalProgram n ρ' (Expr.renameStmts f ss)) := by
  induction ss generalizing scope ρ ρ' with
  | nil => exact inStep_ok .nil
  | cons s ss ih =>
    refine (evalStatement_rename n hss hρ).bind ?_
    rintro ⟨ρ₁, u⟩ ⟨ρ₁', u'⟩ ⟨⟨scope₁, hrest, hρ₁⟩, hu⟩
    exact (ih hrest hρ₁).bind fun us us' hus => inStep_ok (.cons hu hus)

end Value

end LetPoly
