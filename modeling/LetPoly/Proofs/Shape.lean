import LetPoly.Expr.Basic
import LetPoly.Proofs.Assignment

/-! # The shape of expressions

Expressions hold lists of expressions, so their induction principle speaks of the
members of those lists (`Expr.induction`).  A definition is an expression by form
only; what counts of it is its value, and the principle gives the property of the
values that a block defines beside that of its statements.

`Expr.Plain` says of a whole tree what inference and evaluation both rely on.  It is
stated over `Expr.walk`, and so holds of every part of a tree that it holds of.
-/

namespace LetPoly

namespace Expr

/-- **Induction over expressions.** -/
@[elab_as_elim]
theorem induction {motive : Expr → Prop}
    (number : ∀ n, motive (.number n))
    (string : ∀ s, motive (.string s))
    (boolean : ∀ b, motive (.boolean b))
    (unit : motive .unit)
    (nil : motive .nil)
    (ident : ∀ x, motive (.ident x))
    (binary : ∀ op l r, motive l → motive r → motive (.binary op l r))
    (cons : ∀ h t, motive h → motive t → motive (.cons h t))
    (cond : ∀ c y n, motive c → motive y → motive n → motive (.cond c y n))
    (lambda : ∀ p a b, motive b → motive (.lambda p a b))
    (app : ∀ f a, motive f → motive a → motive (.app f a))
    (block : ∀ ss, (∀ s ∈ ss, motive s) → (∀ k p a v, .define k p a v ∈ ss → motive v) →
      motive (.block ss))
    (select : ∀ v arms, motive v → (∀ arm ∈ arms, motive arm.2) → motive (.select v arms))
    (define : ∀ k p a v, motive v → motive (.define k p a v))
    (missing : motive .missing) : ∀ e, motive e := by
  -- the size of a tree is that of its parts and more, whatever list holds them
  suffices key : ∀ n e, sizeOf e ≤ n → motive e from fun e => key (sizeOf e) e (Nat.le_refl _)
  intro n
  induction n with
  | zero => intro e he; cases e <;> simp at he
  | succ n ih =>
    intro e he
    cases e with
    | number k => exact number k
    | string s => exact string s
    | boolean b => exact boolean b
    | unit => exact unit
    | nil => exact nil
    | ident x => exact ident x
    | binary op l r =>
      rw [Expr.binary.sizeOf_spec] at he
      exact binary op l r (ih l (by omega)) (ih r (by omega))
    | cons h t =>
      rw [Expr.cons.sizeOf_spec] at he
      exact cons h t (ih h (by omega)) (ih t (by omega))
    | cond c y n =>
      rw [Expr.cond.sizeOf_spec] at he
      exact cond c y n (ih c (by omega)) (ih y (by omega)) (ih n (by omega))
    | lambda p a b =>
      rw [Expr.lambda.sizeOf_spec] at he
      exact lambda p a b (ih b (by omega))
    | app f a =>
      rw [Expr.app.sizeOf_spec] at he
      exact app f a (ih f (by omega)) (ih a (by omega))
    | block ss =>
      rw [Expr.block.sizeOf_spec] at he
      refine block ss (fun s hs => ih s ?_) fun k p a v hv => ih v ?_
      · have := List.sizeOf_lt_of_mem hs
        omega
      · have := List.sizeOf_lt_of_mem hv
        rw [Expr.define.sizeOf_spec] at this
        omega
    | select v arms =>
      rw [Expr.select.sizeOf_spec] at he
      refine select v arms (ih v (by omega)) fun arm harm => ih arm.2 ?_
      have := List.sizeOf_lt_of_mem harm
      rw [Prod.mk.sizeOf_spec] at this
      omega
    | define k p a v =>
      rw [Expr.define.sizeOf_spec] at he
      exact define k p a v (ih v (by omega))
    | missing => exact missing

/-! ## What stands in a node -/

/-- The patterns of an expression itself, not of its parts. -/
def patterns : Expr → List Pat
  | .lambda p _ _ | .define _ p _ _ => [p]
  | .select _ arms => arms.map (·.1)
  | _ => []

/-- The ascriptions of an expression itself, not of its parts. -/
def ascriptions : Expr → List Ty
  | .lambda _ a _ | .define _ _ a _ => a.toList
  | _ => []

theorem isDefinition_iff {e : Expr} : e.isDefinition ↔ ∃ k p a v, e = .define k p a v := by
  cases e <;> simp [isDefinition, definition?]

/-- The statements of a block before the last one. -/
def leading : Expr → List Expr
  | .block ss => ss.dropLast
  | _ => []

/-! ## Parts of a tree -/

theorem mem_walkStmts {ss : List Expr} {d : Expr} :
    d ∈ walkStmts ss ↔ ∃ s ∈ ss, d ∈ s.walk := by
  induction ss with
  | nil => simp [walkStmts]
  | cons s ss ih => simp [walkStmts, ih]

theorem mem_walkArms {arms : List (Pat × Expr)} {d : Expr} :
    d ∈ walkArms arms ↔ ∃ arm ∈ arms, d ∈ arm.2.walk := by
  induction arms with
  | nil => simp [walkArms]
  | cons arm arms ih => simp [walkArms, ih]

/-- The property holds of a tree and of all its parts. -/
def Everywhere (Q : Expr → Prop) (e : Expr) : Prop := ∀ d ∈ e.walk, Q d

section
variable {Q : Expr → Prop}

theorem everywhere_of_walk {e : Expr} {parts : List Expr} (h : e.walk = e :: parts) :
    e.Everywhere Q ↔ Q e ∧ ∀ d ∈ parts, Q d := by
  rw [Everywhere, h]
  exact List.forall_mem_cons

theorem everywhere_walkStmts {ss : List Expr} :
    (∀ d ∈ walkStmts ss, Q d) ↔ ∀ s ∈ ss, s.Everywhere Q := by
  simp only [mem_walkStmts, forall_exists_index, and_imp]
  exact ⟨fun h s hs d hd => h d s hs hd, fun h d s hs hd => h s hs d hd⟩

theorem everywhere_walkArms {arms : List (Pat × Expr)} :
    (∀ d ∈ walkArms arms, Q d) ↔ ∀ arm ∈ arms, arm.2.Everywhere Q := by
  simp only [mem_walkArms, forall_exists_index, and_imp]
  exact ⟨fun h arm harm d hd => h d arm harm hd, fun h d arm harm hd => h arm harm d hd⟩

theorem everywhere_binary {op : Op} {l r : Expr} : (binary op l r).Everywhere Q ↔
    Q (binary op l r) ∧ l.Everywhere Q ∧ r.Everywhere Q :=
  (everywhere_of_walk rfl).trans (and_congr_right' List.forall_mem_append)

theorem everywhere_cons {u t : Expr} : (cons u t).Everywhere Q ↔
    Q (cons u t) ∧ u.Everywhere Q ∧ t.Everywhere Q :=
  (everywhere_of_walk rfl).trans (and_congr_right' List.forall_mem_append)

theorem everywhere_cond {c y n : Expr} : (cond c y n).Everywhere Q ↔
    Q (cond c y n) ∧ c.Everywhere Q ∧ y.Everywhere Q ∧ n.Everywhere Q := by
  rw [everywhere_of_walk rfl, List.forall_mem_append, List.forall_mem_append, and_assoc]
  rfl

theorem everywhere_lambda {p : Pat} {a : Option Ty} {b : Expr} :
    (lambda p a b).Everywhere Q ↔ Q (lambda p a b) ∧ b.Everywhere Q :=
  everywhere_of_walk rfl

theorem everywhere_app {f a : Expr} : (app f a).Everywhere Q ↔
    Q (app f a) ∧ f.Everywhere Q ∧ a.Everywhere Q :=
  (everywhere_of_walk rfl).trans (and_congr_right' List.forall_mem_append)

theorem everywhere_block {ss : List Expr} : (block ss).Everywhere Q ↔
    Q (block ss) ∧ ∀ s ∈ ss, s.Everywhere Q :=
  (everywhere_of_walk rfl).trans (and_congr_right' everywhere_walkStmts)

theorem everywhere_select {v : Expr} {arms : List (Pat × Expr)} : (select v arms).Everywhere Q ↔
    Q (select v arms) ∧ v.Everywhere Q ∧ ∀ arm ∈ arms, arm.2.Everywhere Q := by
  rw [everywhere_of_walk rfl, List.forall_mem_append, everywhere_walkArms]
  rfl

theorem everywhere_define {k : Binder} {p : Pat} {a : Option Ty} {v : Expr} :
    (define k p a v).Everywhere Q ↔ Q (define k p a v) ∧ v.Everywhere Q :=
  everywhere_of_walk rfl

end

/-- The ascriptions of a tree are as `ascribable` allows. -/
def Ascribes (ascribable : Ty → Prop) : Expr → Prop :=
  Everywhere fun d => ∀ a ∈ d.ascriptions, ascribable a

instance {P : Ty → Prop} [DecidablePred P] (e : Expr) : Decidable (e.Ascribes P) :=
  inferInstanceAs (Decidable (∀ d ∈ e.walk, ∀ a ∈ d.ascriptions, P a))

/-- **What inference and evaluation rely on in a tree**: every function, definition
and case has a pattern, and it binds no name twice; the statements of a block before
the last are definitions; ascriptions are as `ascribable` allows. -/
structure Plain (ascribable : Ty → Prop) (e : Expr) : Prop where
  patterns : ∀ d ∈ e.walk, ∀ p ∈ d.patterns, p ≠ .missing ∧ p.names.Nodup
  leading : ∀ d ∈ e.walk, ∀ s ∈ d.leading, s.isDefinition
  ascriptions : ∀ d ∈ e.walk, ∀ a ∈ d.ascriptions, ascribable a

theorem plain_iff {P : Ty → Prop} {e : Expr} : e.Plain P ↔ e.Everywhere fun d =>
    (∀ p ∈ d.patterns, p ≠ .missing ∧ p.names.Nodup) ∧ (∀ s ∈ d.leading, s.isDefinition) ∧
      ∀ a ∈ d.ascriptions, P a :=
  ⟨fun h d hd => ⟨h.patterns d hd, h.leading d hd, h.ascriptions d hd⟩,
    fun h => ⟨fun d hd => (h d hd).1, fun d hd => (h d hd).2.1, fun d hd => (h d hd).2.2⟩⟩

theorem Plain.ascribes {P : Ty → Prop} {e : Expr} (h : e.Plain P) : e.Ascribes P := h.ascriptions

theorem Plain.imp {P Q : Ty → Prop} {e : Expr} (h : e.Plain P) (hPQ : ∀ a, P a → Q a) :
    e.Plain Q where
  patterns := h.patterns
  leading := h.leading
  ascriptions d hd a ha := hPQ a (h.ascriptions d hd a ha)

instance {P : Ty → Prop} [DecidablePred P] (e : Expr) : Decidable (e.Plain P) :=
  decidable_of_iff
    ((∀ d ∈ e.walk, ∀ p ∈ d.patterns, p ≠ .missing ∧ p.names.Nodup) ∧
      (∀ d ∈ e.walk, ∀ s ∈ d.leading, s.isDefinition) ∧
      ∀ d ∈ e.walk, ∀ a ∈ d.ascriptions, P a)
    ⟨fun h => ⟨h.1, h.2.1, h.2.2⟩, fun h => ⟨h.patterns, h.leading, h.ascriptions⟩⟩

section
variable {P : Ty → Prop}

theorem Plain.binary {op : Op} {l r : Expr} (h : (binary op l r).Plain P) :
    l.Plain P ∧ r.Plain P := by
  obtain ⟨-, hl, hr⟩ := everywhere_binary.1 (plain_iff.1 h)
  exact ⟨plain_iff.2 hl, plain_iff.2 hr⟩

theorem Plain.cons {u t : Expr} (h : (cons u t).Plain P) : u.Plain P ∧ t.Plain P := by
  obtain ⟨-, hu, ht⟩ := everywhere_cons.1 (plain_iff.1 h)
  exact ⟨plain_iff.2 hu, plain_iff.2 ht⟩

theorem Plain.cond {c y n : Expr} (h : (cond c y n).Plain P) :
    c.Plain P ∧ y.Plain P ∧ n.Plain P := by
  obtain ⟨-, hc, hy, hn⟩ := everywhere_cond.1 (plain_iff.1 h)
  exact ⟨plain_iff.2 hc, plain_iff.2 hy, plain_iff.2 hn⟩

theorem Plain.lambda {p : Pat} {a : Option Ty} {b : Expr} (h : (lambda p a b).Plain P) :
    p.names.Nodup ∧ (∀ u ∈ a.toList, P u) ∧ b.Plain P := by
  obtain ⟨⟨hp, -, ha⟩, hb⟩ := everywhere_lambda.1 (plain_iff.1 h)
  exact ⟨(hp p List.mem_cons_self).2, ha, plain_iff.2 hb⟩

theorem Plain.app {f a : Expr} (h : (app f a).Plain P) : f.Plain P ∧ a.Plain P := by
  obtain ⟨-, hf, ha⟩ := everywhere_app.1 (plain_iff.1 h)
  exact ⟨plain_iff.2 hf, plain_iff.2 ha⟩

theorem Plain.select {v : Expr} {arms : List (Pat × Expr)} (h : (select v arms).Plain P) :
    v.Plain P ∧ ∀ arm ∈ arms, arm.1.names.Nodup ∧ arm.2.Plain P := by
  obtain ⟨⟨hp, -⟩, hv, harms⟩ := everywhere_select.1 (plain_iff.1 h)
  exact ⟨plain_iff.2 hv, fun arm harm =>
    ⟨(hp arm.1 (List.mem_map_of_mem harm)).2, plain_iff.2 (harms arm harm)⟩⟩

theorem Plain.stmt {ss : List Expr} (h : (block ss).Plain P) {s : Expr} (hs : s ∈ ss) :
    s.Plain P :=
  plain_iff.2 ((everywhere_block.1 (plain_iff.1 h)).2 s hs)

theorem Plain.define {k : Binder} {p : Pat} {a : Option Ty} {v : Expr}
    (h : (define k p a v).Plain P) : p ≠ .missing ∧ (∀ u ∈ a.toList, P u) ∧ v.Plain P := by
  obtain ⟨⟨hp, -, ha⟩, hv⟩ := everywhere_define.1 (plain_iff.1 h)
  exact ⟨(hp p List.mem_cons_self).1, ha, plain_iff.2 hv⟩

/-- The first of several statements is a definition, and the others are a block. -/
theorem Plain.block_cons {s s' : Expr} {ss : List Expr} (h : (block (s :: s' :: ss)).Plain P) :
    s.isDefinition ∧ (block (s' :: ss)).Plain P := by
  obtain ⟨⟨-, hlead, -⟩, hparts⟩ := everywhere_block.1 (plain_iff.1 h)
  refine ⟨hlead s List.mem_cons_self, plain_iff.2 (everywhere_block.2 ⟨⟨?_, ?_, ?_⟩, ?_⟩)⟩
  · exact nofun
  · exact fun e he => hlead e (List.mem_cons_of_mem _ he)
  · exact nofun
  · exact fun e he => hparts e (List.mem_cons_of_mem _ he)

end

end Expr

end LetPoly
