import LetPoly.Proofs.Evaluation

/-! # The names that evaluation looks up

An expression refers to names that it does not bind itself (`Expr.free`), and evaluation
looks up no others.  Two environments that hold **alike** values for these names
therefore give alike results.  Values are alike where they differ at most in what their
functions hold of names that the function does not refer to: they have the same text,
compare the same way and are matched by the same patterns.

Likeness is taken in two strengths.  Where it is not `closed`, it goes in one direction:
a name without a value on the left says nothing about the right, and so a run that fails
on the left says nothing.  Where it is `closed`, every name that is referred to has a
value, in the environment and in every function in it, and no run fails for want of one.
Both are proved in one induction (`eval_tracks`).
-/

namespace LetPoly

namespace Expr

mutual
/-- **The names that an expression refers to**, in order and as often as it does.  Names
that are bound around a reference do not count. -/
def free : Expr → List String
  | .ident x => [x]
  | .binary _ l r => l.free ++ r.free
  | .cons h t => h.free ++ t.free
  | .cond c y n => c.free ++ y.free ++ n.free
  | .lambda p _ b => b.free.filter (· ∉ p.names)
  | .app f a => f.free ++ a.free
  | .block ss => freeStmts ss
  | .select v arms => v.free ++ freeArms arms
  | .number _ | .string _ | .boolean _ | .unit | .nil | .define .. | .missing => []

/-- The names that statements refer to: what one of them defines is bound in those after
it. -/
def freeStmts : List Expr → List String
  | [] => []
  | .define _ p _ v :: ss => v.free ++ (freeStmts ss).filter (· ∉ p.names)
  | e :: ss => e.free ++ freeStmts ss

def freeArms : List (Pat × Expr) → List String
  | [] => []
  | (p, b) :: arms => b.free.filter (· ∉ p.names) ++ freeArms arms
end

theorem freeStmts_define (k : Binder) (p : Pat) (a : Option Ty) (v : Expr) (ss : List Expr) :
    freeStmts (.define k p a v :: ss) = v.free ++ (freeStmts ss).filter (· ∉ p.names) := rfl

theorem freeStmts_stmt {e : Expr} (he : e.isDefinition = false) (ss : List Expr) :
    freeStmts (e :: ss) = e.free ++ freeStmts ss := by
  cases e with
  | define => cases he
  | _ => rfl

theorem mem_freeArms {arms : List (Pat × Expr)} {x : String} :
    x ∈ freeArms arms ↔ ∃ arm ∈ arms, x ∈ arm.2.free ∧ x ∉ arm.1.names := by
  induction arms with
  | nil => simp [freeArms]
  | cons arm arms ih => simp [freeArms, ih]

end Expr

/-! ## Values that are alike -/

/-- **Values that differ at most in what their functions do not refer to.** -/
inductive Value.Alike (closed : Prop) : Value → Value → Prop
  | int (n : Int64) : Alike closed (.int n) (.int n)
  | bool (b : Bool) : Alike closed (.bool b) (.bool b)
  | string (s : String) : Alike closed (.string s) (.string s)
  | unit : Alike closed .unit .unit
  | nil : Alike closed (.list []) (.list [])
  | cons {v w : Value} {vs ws : List Value} (head : Alike closed v w)
    (tail : Alike closed (.list vs) (.list ws)) : Alike closed (.list (v :: vs)) (.list (w :: ws))
  | closure {p : Pat} {b : Expr} {ρ ρ' : Env}
    (bound : closed → ∀ x ∈ b.free, x ∉ p.names → (SortedMap.get? ρ x).isSome)
    (kept : ∀ x ∈ b.free, x ∉ p.names →
      (SortedMap.get? ρ x).isSome → (SortedMap.get? ρ' x).isSome)
    (alike : ∀ x ∈ b.free, x ∉ p.names → ∀ v w, SortedMap.get? ρ x = some v →
      SortedMap.get? ρ' x = some w → Alike closed v w) :
    Alike closed (.closure p b ρ) (.closure p b ρ')

/-- **Environments with alike values for some names.**  Where likeness is closed, each of
the names has a value. -/
structure Env.Alike (closed : Prop) (N : String → Prop) (ρ ρ' : Env) : Prop where
  bound : closed → ∀ x, N x → (ρ.get? x).isSome
  alike : ∀ x v, N x → ρ.get? x = some v → ∃ w, ρ'.get? x = some w ∧ v.Alike closed w

section
variable {closed : Prop}

namespace Env.Alike
variable {N M : String → Prop} {ρ ρ' : Env}

theorem mono (h : Alike closed N ρ ρ') (hM : ∀ x, M x → N x) : Alike closed M ρ ρ' where
  bound hc x hx := h.bound hc x (hM x hx)
  alike x v hx := h.alike x v (hM x hx)

theorem insert (h : Alike closed N ρ ρ') (x : String) {v w : Value} (hv : v.Alike closed w) :
    Alike closed (fun y => N y ∨ y = x) (ρ.insert x v) (ρ'.insert x w) := by
  refine ⟨fun hc y hy => ?_, fun y u hy hu => ?_⟩ <;> by_cases hyx : y = x
  · simp [hyx]
  · rw [SortedMap.get?_insert_of_ne _ _ hyx]
    exact h.bound hc y (hy.resolve_right hyx)
  · subst hyx
    rw [SortedMap.get?_insert_self, Option.some.injEq] at hu
    exact ⟨w, SortedMap.get?_insert_self _ _ _, hu ▸ hv⟩
  · rw [SortedMap.get?_insert_of_ne _ _ hyx] at hu ⊢
    exact h.alike y u (hy.resolve_right hyx) hu

end Env.Alike

namespace Value

/-- Functions are alike where their environments are, for the names that they refer to. -/
theorem alike_closure {p : Pat} {b : Expr} {ρ ρ' : Env} :
    Alike closed (.closure p b ρ) (.closure p b ρ') ↔
      Env.Alike closed (fun x => x ∈ b.free ∧ x ∉ p.names) ρ ρ' := by
  constructor
  · rintro (_ | _ | _ | _ | _ | _ | ⟨hbound, hkept, halike⟩)
    refine ⟨fun hc x hx => hbound hc x hx.1 hx.2, fun x v hx hv => ?_⟩
    obtain ⟨w, hw⟩ := Option.isSome_iff_exists.1 (hkept x hx.1 hx.2 (by rw [hv]; rfl))
    exact ⟨w, hw, halike x hx.1 hx.2 v w hv hw⟩
  · intro h
    refine .closure (fun hc x hx hp => h.bound hc x ⟨hx, hp⟩) (fun x hx hp hs => ?_)
      fun x hx hp v w hv hw => ?_
    · obtain ⟨v, hv⟩ := Option.isSome_iff_exists.1 hs
      obtain ⟨w, hw, -⟩ := h.alike x v ⟨hx, hp⟩ hv
      rw [show SortedMap.get? ρ' x = some w from hw]
      rfl
    · obtain ⟨w', hw', hvw⟩ := h.alike x v ⟨hx, hp⟩ hv
      obtain rfl : w' = w := Option.some.inj (hw'.symm.trans hw)
      exact hvw

namespace Alike
variable {v w v' w' : Value}

/-- Values that are alike have the same text. -/
theorem text_eq (h : Alike closed v w) : v.text = w.text := by
  suffices key : v.text = w.text ∧ texts v.elements = texts w.elements from key.1
  induction h with
  | int | bool | string | unit | nil | closure => exact ⟨rfl, rfl⟩
  | @cons v w vs ws _ _ ihv ihvs =>
    have htexts : texts (v :: vs) = texts (w :: ws) := by
      rw [texts, texts, ihv.1]
      exact congrArg _ ihvs.2
    exact ⟨by rw [text, text, htexts], htexts⟩

/-- Values that are alike compare the same way. -/
theorem equal_eq (h : Alike closed v w) (h' : Alike closed v' w') :
    v.equal v' = w.equal w' := by
  induction h generalizing v' w' with
  | int | bool | string | unit | nil | closure => cases h' <;> rfl
  | cons _ _ ihv ihvs =>
    cases h' with
    | cons hv' hvs' => exact congrArg₂ (· && ·) (ihv hv') (ihvs hvs')
    | _ => rfl

end Alike

/-- Values that are alike are matched by the same patterns, and leave environments that are
alike. -/
theorem bind_alike (p : Pat) {v w : Value} {N : String → Prop} {ρ ρ' : Env}
    (hv : v.Alike closed w) (hρ : Env.Alike closed N ρ ρ') :
    (bind p v ρ).2 = (bind p w ρ').2 ∧ ((bind p v ρ).2 = true →
      Env.Alike closed (fun x => N x ∨ x ∈ p.names) (bind p v ρ).1 (bind p w ρ').1) := by
  induction p generalizing v w N ρ ρ' with
  | wildcard | number | string | boolean | unit | nil | missing =>
    cases hv <;> exact ⟨rfl, fun _ => hρ.mono fun x hx => by simpa [Pat.names] using hx⟩
  | ident x =>
    have hins := hρ.insert x hv
    rw [bind, bind]
    exact ⟨rfl, fun _ => hins.mono fun y hy => by simpa [Pat.names] using hy⟩
  | cons p q ihp ihq =>
    cases hv with
    | @cons v w vs ws hv hvs =>
      obtain ⟨hok, hp⟩ := ihp hv hρ
      rw [bind, bind]
      rcases hb : bind p v ρ with ⟨ρ₁, ok⟩
      rcases hb' : bind p w ρ' with ⟨ρ₁', ok'⟩
      rw [hb, hb'] at hok hp
      obtain rfl : ok = ok' := hok
      cases ok with
      | false => exact ⟨rfl, by simp⟩
      | true =>
        obtain ⟨hok, hq⟩ := ihq hvs (hp rfl)
        refine ⟨hok, fun h => (hq h).mono fun x hx => ?_⟩
        rwa [Pat.names, List.mem_append, ← or_assoc] at hx
    | _ => exact ⟨rfl, by simp [bind]⟩

/-- Two values that are alike are both matched by a pattern, or both are not. -/
theorem bind_cases (p : Pat) {v w : Value} {N : String → Prop} {ρ ρ' : Env}
    (hv : v.Alike closed w) (hρ : Env.Alike closed (fun x => N x ∧ x ∉ p.names) ρ ρ') :
    (∃ ρ₁ ρ₁', bind p v ρ = (ρ₁, true) ∧ bind p w ρ' = (ρ₁', true) ∧ Env.Alike closed N ρ₁ ρ₁') ∨
      ∃ ρ₁ ρ₁', bind p v ρ = (ρ₁, false) ∧ bind p w ρ' = (ρ₁', false) := by
  obtain ⟨hok, halike⟩ := bind_alike p hv hρ
  generalize bind p v ρ = r at hok halike ⊢
  generalize bind p w ρ' = r' at hok halike ⊢
  obtain ⟨ρ₁, ok⟩ := r
  obtain ⟨ρ₁', ok'⟩ := r'
  obtain rfl : ok = ok' := hok
  cases ok with
  | false => exact .inr ⟨ρ₁, ρ₁', rfl, rfl⟩
  | true =>
    refine .inl ⟨ρ₁, ρ₁', rfl, rfl, (halike rfl).mono fun x hx => ?_⟩
    exact or_iff_not_imp_right.2 fun hp => ⟨hx, hp⟩

end Value

/-! ## Runs that are alike -/

/-- **The second run follows the first**: it has a related result where the first one has
a result.  Where likeness is closed, the first does not fail for want of a name. -/
def Tracks (closed : Prop) {α : Type} (R : α → α → Prop) (x y : Except RuntimeError α) : Prop :=
  match x with
  | .ok v => ∃ w, y = .ok w ∧ R v w
  | .error err => closed → ∀ z, err ≠ .unbound z

section
variable {α β : Type} {R : α → α → Prop} {S : β → β → Prop}

theorem tracks_ok {v w : α} (h : R v w) : Tracks closed R (.ok v) (.ok w) := ⟨w, rfl, h⟩

theorem tracks_error {err : RuntimeError} (h : ∀ z, err ≠ .unbound z)
    (y : Except RuntimeError α) : Tracks closed R (.error err) y := fun _ => h

theorem Tracks.bind {x y : Except RuntimeError α} {f g : α → Except RuntimeError β}
    (h : Tracks closed R x y) (hfg : ∀ v w, R v w → Tracks closed S (f v) (g w)) :
    Tracks closed S (x >>= f) (y >>= g) := by
  cases x with
  | error err => exact h
  | ok v =>
    obtain ⟨w, rfl, hvw⟩ := h
    exact hfg v w hvw

end

namespace Value

section
variable {v w v' w' : Value} {ρ ρ' : Env}

theorem bindValue_tracks (p : Pat) {N : String → Prop} (hv : v.Alike closed w)
    (hρ : Env.Alike closed (fun x => N x ∧ x ∉ p.names) ρ ρ') :
    Tracks closed (Env.Alike closed N) (bindValue p v ρ) (bindValue p w ρ') := by
  obtain ⟨ρ₁, ρ₁', hb, hb', halike⟩ | ⟨ρ₁, ρ₁', hb, hb'⟩ := bind_cases p hv hρ
  · rw [bindValue, bindValue, hb, hb']
    exact tracks_ok halike
  · rw [bindValue, hb]
    exact tracks_error (by simp) _

theorem operateInts_tracks (op : Op) (m n : Int64) :
    Tracks closed (Alike closed) (operateInts op m n) (operateInts op m n) := by
  cases op with
  | plus | minus | times => exact tracks_ok (.int _)
  | less | lessEq | greater | greaterEq => exact tracks_ok (.bool _)
  | divide =>
    rw [operateInts]
    split
    · exact tracks_error (by simp) _
    · exact tracks_ok (.int _)
  | equal | notEqual | and | or | unknown => exact tracks_error (by simp) _

theorem operate_tracks (op : Op) (h : v.Alike closed w) (h' : v'.Alike closed w') :
    Tracks closed (Alike closed) (operate op v v') (operate op w w') := by
  simp only [operate, h.equal_eq h']
  split
  · exact tracks_ok (.bool _)
  split
  · exact tracks_ok (.bool _)
  cases h with
  | int m =>
    cases h' with
    | int n => exact operateInts_tracks op m n
    | _ => exact tracks_error (by simp) _
  | _ => exact tracks_error (by simp) _

theorem cell_tracks (h : v.Alike closed w) (h' : v'.Alike closed w') :
    Tracks closed (Alike closed) (cell v v') (cell w w') := by
  cases h' with
  | nil => exact tracks_ok (.cons h .nil)
  | cons hv hvs => exact tracks_ok (.cons h (.cons hv hvs))
  | _ => exact tracks_error (by simp) _

/-- The same body is evaluated in both calls, in environments that are alike. -/
theorem enter_tracks (h : v.Alike closed w) (h' : v'.Alike closed w') :
    Tracks closed (fun c c' => c.2 = c'.2 ∧ Env.Alike closed (· ∈ c.2.free) c.1 c'.1)
      (enter v v') (enter w w') := by
  cases h with
  | @closure p b ρ ρ' hbound hkept halike =>
    have hρ := alike_closure.1 (.closure hbound hkept halike)
    obtain ⟨ρ₁, ρ₁', hb, hb', halike⟩ | ⟨ρ₁, ρ₁', hb, hb'⟩ := bind_cases p h' hρ
    · rw [enter, enter, hb, hb']
      exact tracks_ok ⟨rfl, halike⟩
    · rw [enter, hb]
      exact tracks_error (by simp) _
  | _ => exact tracks_error (by simp) _

/-- The same case is chosen for both values, if any is. -/
theorem chosen?_alike (h : v.Alike closed w) {arms : List (Pat × Expr)}
    (hρ : Env.Alike closed (· ∈ Expr.freeArms arms) ρ ρ') :
    (∃ ρ₁ ρ₁' b, chosen? v ρ arms = some (ρ₁, b) ∧ chosen? w ρ' arms = some (ρ₁', b) ∧
      Env.Alike closed (· ∈ b.free) ρ₁ ρ₁') ∨
    chosen? v ρ arms = none ∧ chosen? w ρ' arms = none := by
  induction arms with
  | nil => exact .inr ⟨rfl, rfl⟩
  | cons arm arms ih =>
    have harm : Env.Alike closed (fun x => x ∈ arm.2.free ∧ x ∉ arm.1.names) ρ ρ' :=
      hρ.mono fun x hx => Expr.mem_freeArms.2 ⟨arm, List.mem_cons_self, hx⟩
    have hrest : Env.Alike closed (· ∈ Expr.freeArms arms) ρ ρ' := hρ.mono fun x hx => by
      obtain ⟨arm', hmem, hx⟩ := Expr.mem_freeArms.1 hx
      exact Expr.mem_freeArms.2 ⟨arm', List.mem_cons_of_mem _ hmem, hx⟩
    rw [chosen?, chosen?]
    obtain ⟨ρ₁, ρ₁', hb, hb', halike⟩ | ⟨ρ₁, ρ₁', hb, hb'⟩ := bind_cases arm.1 h harm
    · rw [hb, hb']
      exact .inl ⟨ρ₁, ρ₁', arm.2, rfl, rfl, halike⟩
    · rw [hb, hb']
      exact ih hrest

end

/-! ## Statements and expressions -/

theorem leadUp_last (value : Env → Expr → Except RuntimeError Value) (ρ : Env) {e : Expr}
    (he : e.isDefinition = false) : leadUp value ρ [e] = .ok (ρ, e) := by
  cases e with
  | define => cases he
  | _ => rfl

theorem leadUp_define (value : Env → Expr → Except RuntimeError Value) (ρ : Env) (k : Binder)
    (p : Pat) (a : Option Ty) (v s : Expr) (ss : List Expr) :
    leadUp value ρ (.define k p a v :: s :: ss) = (do
      let w ← value ρ v
      let ρ' ← bindValue p w ρ
      leadUp value ρ' (s :: ss)) := rfl

theorem leadUp_stmt (value : Env → Expr → Except RuntimeError Value) (ρ : Env) {e : Expr}
    (he : e.isDefinition = false) (s : Expr) (ss : List Expr) :
    leadUp value ρ (e :: s :: ss) = value ρ e >>= fun _ => leadUp value ρ (s :: ss) := by
  cases e with
  | define => cases he
  | _ => rfl

/-- The statements of a block are gone through in step, up to the last one. -/
theorem leadUp_tracks {value : Env → Expr → Except RuntimeError Value}
    (hvalue : ∀ {e : Expr} {ρ ρ' : Env}, Env.Alike closed (· ∈ e.free) ρ ρ' →
      Tracks closed (Alike closed) (value ρ e) (value ρ' e))
    {ss : List Expr} {ρ ρ' : Env} (hρ : Env.Alike closed (· ∈ Expr.freeStmts ss) ρ ρ') :
    Tracks closed (fun c c' => c.2 = c'.2 ∧ Env.Alike closed (· ∈ c.2.free) c.1 c'.1)
      (leadUp value ρ ss) (leadUp value ρ' ss) := by
  induction ss generalizing ρ ρ' with
  | nil => exact tracks_error (by simp) _
  | cons s ss ih =>
    cases hs : s.isDefinition with
    | true =>
      obtain ⟨k, p, a, v, rfl⟩ := Expr.isDefinition_iff.1 hs
      cases ss with
      | nil => exact tracks_error (by simp) _
      | cons s' ss =>
        rw [Expr.freeStmts_define] at hρ
        rw [leadUp_define, leadUp_define]
        refine (hvalue (hρ.mono fun x hx => ?_)).bind fun w w' hw => ?_
        · exact List.mem_append_left _ hx
        refine (bindValue_tracks p hw (hρ.mono fun x hx => ?_)).bind fun ρ₁ ρ₁' hρ₁ => ih hρ₁
        exact List.mem_append_right _ (List.mem_filter.2 ⟨hx.1, by simpa using hx.2⟩)
    | false =>
      rw [Expr.freeStmts_stmt hs] at hρ
      cases ss with
      | nil =>
        rw [leadUp_last value ρ hs, leadUp_last value ρ' hs]
        exact tracks_ok ⟨rfl, hρ.mono fun x hx => List.mem_append_left _ hx⟩
      | cons s' ss =>
        rw [leadUp_stmt value ρ hs, leadUp_stmt value ρ' hs]
        refine (hvalue (hρ.mono fun x hx => List.mem_append_left _ hx)).bind fun _ _ _ => ?_
        exact ih (hρ.mono fun x hx => List.mem_append_right _ hx)

/-- **Evaluation looks up the names that an expression refers to, and no others**: in
environments with alike values for them it has alike results. -/
theorem eval_tracks (n : Nat) {e : Expr} {ρ ρ' : Env}
    (hρ : Env.Alike closed (· ∈ e.free) ρ ρ') :
    Tracks closed (Alike closed) (eval n ρ e) (eval n ρ' e) := by
  induction n generalizing e ρ ρ' with
  | zero => exact tracks_error (by simp) _
  | succ n ih =>
    cases e with
    | number k => exact tracks_ok (.int k)
    | string s => exact tracks_ok (.string s)
    | boolean b => exact tracks_ok (.bool b)
    | unit => exact tracks_ok .unit
    | nil => exact tracks_ok .nil
    | ident x =>
      have hx : x ∈ (Expr.ident x).free := List.mem_cons_self
      cases hv : ρ.get? x with
      | some v =>
        obtain ⟨w, hw, hvw⟩ := hρ.alike x v hx hv
        rw [eval_ident n ρ hv, eval_ident n ρ' hw]
        exact tracks_ok hvw
      | none =>
        rw [eval, hv]
        intro hc
        have hsome := hρ.bound hc x hx
        simp [hv] at hsome
    | binary op l r =>
      have hl := ih (hρ.mono fun x hx => List.mem_append_left r.free hx)
      have hr := ih (hρ.mono fun x hx => List.mem_append_right l.free hx)
      cases hop : op.isLogical with
      | false =>
        rw [eval_operation n ρ hop, eval_operation n ρ' hop]
        exact hl.bind fun _ _ hlv => hr.bind fun _ _ hrv => operate_tracks op hlv hrv
      | true =>
        rw [eval_logical n ρ hop, eval_logical n ρ' hop]
        refine hl.bind fun lv lw hlv => ?_
        cases hlv with
        | bool b =>
          by_cases hb : decides op b
          · simp only [hb, if_true]
            exact tracks_ok (.bool b)
          · simp only [hb]
            refine hr.bind fun rv rw hrv => ?_
            cases hrv with
            | bool c => exact tracks_ok (.bool c)
            | _ => exact tracks_error (by simp) _
        | _ => exact tracks_error (by simp) _
    | cons h t =>
      rw [eval_cons, eval_cons]
      exact (ih (hρ.mono fun x hx => List.mem_append_left t.free hx)).bind fun _ _ hh =>
        (ih (hρ.mono fun x hx => List.mem_append_right h.free hx)).bind fun _ _ ht =>
          cell_tracks hh ht
    | cond c y no =>
      simp only [Expr.free, List.mem_append] at hρ
      rw [eval_cond, eval_cond]
      refine (ih (hρ.mono fun x hx => .inl (.inl hx))).bind fun cv cw hcv => ?_
      cases hcv with
      | bool b =>
        cases b with
        | true => exact ih (hρ.mono fun x hx => .inl (.inr hx))
        | false => exact ih (hρ.mono fun x hx => .inr hx)
      | _ => exact tracks_error (by simp) _
    | lambda p a b =>
      refine tracks_ok (alike_closure.2 (hρ.mono fun x hx => ?_))
      exact List.mem_filter.2 ⟨hx.1, by simpa using hx.2⟩
    | app f a =>
      rw [eval_app, eval_app]
      refine (ih (hρ.mono fun x hx => List.mem_append_left a.free hx)).bind fun _ _ hf =>
        (ih (hρ.mono fun x hx => List.mem_append_right f.free hx)).bind fun _ _ ha =>
          (enter_tracks hf ha).bind ?_
      rintro ⟨ρ₁, b⟩ ⟨ρ₁', _⟩ ⟨rfl, hρ₁⟩
      exact ih hρ₁
    | block ss =>
      refine (leadUp_tracks ih hρ).bind ?_
      rintro ⟨ρ₁, b⟩ ⟨ρ₁', _⟩ ⟨rfl, hρ₁⟩
      exact ih hρ₁
    | select v arms =>
      rw [eval_select, eval_select]
      refine (ih (hρ.mono fun x hx => List.mem_append_left _ hx)).bind fun u u' hu => ?_
      have harms : Env.Alike closed (· ∈ Expr.freeArms arms) ρ ρ' :=
        hρ.mono fun x hx => List.mem_append_right v.free hx
      obtain ⟨ρ₁, ρ₁', b, hch, hch', hρ₁⟩ | ⟨hch, hch'⟩ := chosen?_alike hu harms
      · rw [hch, hch']
        exact ih hρ₁
      · rw [hch]
        exact tracks_error (by simp) _
    | define | missing => exact tracks_error (by simp) _

/-- A definition looks up the names that its value refers to. -/
theorem evalDefinition_tracks (n : Nat) {d : Definition} {N : String → Prop} {ρ ρ' : Env}
    (hfree : Env.Alike closed (· ∈ d.value.free) ρ ρ')
    (hρ : Env.Alike closed (fun x => N x ∧ x ∉ d.pat.names) ρ ρ') :
    Tracks closed (fun r r' => Env.Alike closed N r.1 r'.1 ∧ r.2.Alike closed r'.2)
      (evalDefinition n ρ d) (evalDefinition n ρ' d) :=
  (eval_tracks n hfree).bind fun _ _ hv => (bindValue_tracks d.pat hv hρ).bind fun _ _ hρ₁ =>
    tracks_ok ⟨hρ₁, hv⟩

end Value

end

end LetPoly
