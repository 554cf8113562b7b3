import LetPoly.Proofs.Compilation
import LetPoly.Proofs.ScriptGrammar

/-! # Globals that a script hides

A script refers to globals: some in the function that shows values, some in what operations,
patterns and matches become.  None of them is to be hidden by a name that the program binds,
and no reserved word may be bound at all.

All names that are handed out are decorated with a dollar sign, but for the first binding of a
source name that is not reserved.  So a name without a dollar sign is bound if and only if the
program binds it and it is not reserved (`Names.Serves`).  Every reserved word is reserved,
and so are three of the globals; `Error`, `JSON` and `String` are not, and a program that binds
one of them hides it (`compileProgram_hides_iff`).
-/

namespace LetPoly

/-! ## The names that a program binds -/

namespace Expr

/-- A pattern of the expression or of a part of it binds the name. -/
def Binds (e : Expr) (x : String) : Prop := ∃ d ∈ e.walk, ∃ p ∈ d.patterns, x ∈ p.names

instance (e : Expr) (x : String) : Decidable (e.Binds x) :=
  inferInstanceAs (Decidable (∃ d ∈ e.walk, ∃ p ∈ d.patterns, x ∈ p.names))

theorem binds_iff {e : Expr} {x : String} :
    e.Binds x ↔ ¬e.Everywhere fun d => ∀ p ∈ d.patterns, x ∉ p.names := by
  simp [Binds, Everywhere]

section
variable {x : String}

theorem binds_binary {op : Op} {l r : Expr} : (binary op l r).Binds x ↔ l.Binds x ∨ r.Binds x := by
  simp [Binds, walk, patterns, or_and_right, exists_or]

theorem binds_cons {u t : Expr} : (cons u t).Binds x ↔ u.Binds x ∨ t.Binds x := by
  simp [Binds, walk, patterns, or_and_right, exists_or]

theorem binds_cond {c y n : Expr} :
    (cond c y n).Binds x ↔ c.Binds x ∨ y.Binds x ∨ n.Binds x := by
  simp [Binds, walk, patterns, or_and_right, exists_or]

theorem binds_lambda {p : Pat} {a : Option Ty} {b : Expr} :
    (lambda p a b).Binds x ↔ x ∈ p.names ∨ b.Binds x := by
  simp [Binds, walk, patterns]

theorem binds_app {f a : Expr} : (app f a).Binds x ↔ f.Binds x ∨ a.Binds x := by
  simp [Binds, walk, patterns, or_and_right, exists_or]

theorem binds_block {ss : List Expr} : (block ss).Binds x ↔ ∃ s ∈ ss, s.Binds x := by
  simp [binds_iff, everywhere_block, patterns]

theorem binds_select {v : Expr} {arms : List (Pat × Expr)} : (select v arms).Binds x ↔
    v.Binds x ∨ ∃ arm ∈ arms, x ∈ arm.1.names ∨ arm.2.Binds x := by
  simp only [binds_iff, everywhere_select, patterns, List.forall_mem_map]
  grind

theorem binds_define {k : Binder} {p : Pat} {a : Option Ty} {v : Expr} :
    (define k p a v).Binds x ↔ x ∈ p.names ∨ v.Binds x := by
  simp [Binds, walk, patterns]

end

end Expr

namespace Script

/-! ## The supply of names -/

/-- No name for a further binding lacks the dollar sign, nor does one for a reserved name. -/
theorem numbered_eq_iff {x y : String} {n : Nat} (hy : '$' ∉ y.toList) :
    Names.numbered x n = y ↔ n = 0 ∧ x = y ∧ y ∉ reserved := by
  rw [Names.numbered, mangle]
  constructor
  · rintro rfl
    split at hy
    · next hn =>
      split at hy
      · simp at hy
      · next hx => simp [hn, hx]
    · simp at hy
  · rintro ⟨rfl, rfl, hreserved⟩
    rw [if_pos rfl, if_neg hreserved]

/-- **Names are handed out for bindings of source names.**  `B` are the source names that get
one between the two states, and `xs` are the names handed out: of those without a dollar sign,
a source name itself, if it is its first binding and it is not reserved. -/
structure Names.Serves (ns ns' : Names) (B : String → Prop) (xs : List String) : Prop where
  counts : ∀ x, 0 < ns'.count x ↔ 0 < ns.count x ∨ B x
  plain : ∀ y, '$' ∉ y.toList → (y ∈ xs ↔ B y ∧ ns.count y = 0 ∧ y ∉ reserved)

namespace Names

variable {ns ns₁ ns₂ : Names} {B C : String → Prop} {xs ys : List String}

theorem Serves.nil : Serves ns ns (fun _ => False) [] := ⟨by simp, by simp⟩

theorem Serves.append (h : Serves ns ns₁ B xs) (h' : Serves ns₁ ns₂ C ys) :
    Serves ns ns₂ (fun x => B x ∨ C x) (xs ++ ys) where
  counts x := by rw [h'.counts, h.counts, or_assoc]
  plain y hy := by
    have hfirst : ns₁.count y = 0 ↔ ns.count y = 0 ∧ ¬B y := by
      have := h.counts y
      grind
    rw [List.mem_append, h.plain y hy, h'.plain y hy, hfirst]
    grind

theorem Serves.congr (h : Serves ns ns₁ B xs) (hB : ∀ x, B x ↔ C x) : Serves ns ns₁ C xs :=
  (funext fun x => propext (hB x) : B = C) ▸ h

theorem serves_fresh (ns : Names) (x : String) :
    Serves ns (ns.fresh x).2 (· = x) [(ns.fresh x).1] where
  counts y := by
    rw [count_fresh]
    grind
  plain y hy := by
    have hname := numbered_eq_iff (x := x) (n := ns.count x) hy
    rw [List.mem_singleton, eq_comm]
    refine hname.trans ?_
    grind

theorem serves_temp (ns : Names) : Serves ns ns.temp.2 (fun _ => False) [ns.temp.1] where
  counts y := by simp [temp, count]
  plain y hy := by
    have hne : y ≠ ns.temp.1 := by
      rintro rfl
      simp [temp] at hy
    simp [hne]

end Names

/-! ## Computations that give names -/

/-- The computation takes names for bindings of the source names `B`, and what it gives is
related to these names. -/
def Takes {α : Type} (m : Emit α) (B : String → Prop) (P : α → List String → Prop) : Prop :=
  ∀ ⦃ns : Names⦄ ⦃a : α⦄ ⦃ns' : Names⦄, Emits m ns a ns' → ∃ xs, ns.Serves ns' B xs ∧ P a xs

section
variable {α β : Type} {B C : String → Prop} {P : α → List String → Prop}
  {Q : β → List String → Prop}

theorem takes_pure {a : α} (h : P a []) : Takes (pure a) (fun _ => False) P := by
  intro ns b ns' hb
  obtain ⟨rfl, rfl⟩ := emits_pure.1 hb
  exact ⟨[], .nil, h⟩

theorem takes_throw (e : CompileError) : Takes (throw e) B P :=
  fun _ _ _ h => absurd h not_emits_throw

theorem Takes.bind {m : Emit α} {k : α → Emit β} (hm : Takes m B P)
    (hk : ∀ a xs, P a xs → Takes (k a) C fun b ys => Q b (xs ++ ys)) :
    Takes (m >>= k) (fun x => B x ∨ C x) Q := by
  intro ns b ns' h
  obtain ⟨a, ns₁, ha, hb⟩ := emits_bind.1 h
  obtain ⟨xs, hxs, hP⟩ := hm ha
  obtain ⟨ys, hys, hQ⟩ := hk a xs hP hb
  exact ⟨xs ++ ys, hxs.append hys, hQ⟩

theorem Takes.congr {m : Emit α} (h : Takes m B P) (hB : ∀ x, B x ↔ C x) : Takes m C P := by
  intro ns a ns' ha
  obtain ⟨xs, hxs, hP⟩ := h ha
  exact ⟨xs, hxs.congr hB, hP⟩

end

theorem takes_fresh (x : String) : Takes (fresh x) (· = x) fun js xs => xs = [js] := by
  intro ns js ns' h
  have hserves := ns.serves_fresh x
  rw [emits_fresh.1 h] at hserves
  exact ⟨[js], hserves, rfl⟩

theorem takes_temp : Takes temp (fun _ => False) fun tmp xs => xs = [tmp] := by
  intro ns tmp ns' h
  have hserves := ns.serves_temp
  rw [emits_temp.1 h] at hserves
  exact ⟨[tmp], hserves, rfl⟩

/-! ## Patterns and definitions -/

/-- The statements bind the names. -/
def BodyBinds (ss : List Stmt) (xs : List String) : Prop := ∀ y, y ∈ bodyBinders ss ↔ y ∈ xs

theorem compilePattern_takes (path : Path) (sc : Scope) (p : Pat) :
    Takes (compilePattern path sc p) (· ∈ p.names) fun m xs => BodyBinds m.parts xs := by
  induction p generalizing path sc with
  | ident x =>
    refine ((takes_fresh x).bind fun js xs hxs => takes_pure ?_).congr (by simp [Pat.names])
    simp [BodyBinds, bodyBinders, Stmt.binders, hxs]
  | cons p q ihp ihq =>
    rw [compilePattern]
    refine ((ihp path.head sc).bind fun hm xs hxs => (ihq path.tail hm.scope).bind
      fun tm ys hys => takes_pure ?_).congr (by simp [Pat.names])
    intro y
    simp [hxs y, hys y]
  | number | string | boolean | nil | unit | wildcard | missing =>
    refine (takes_pure ?_).congr (by simp [Pat.names])
    simp [BodyBinds, bodyBinders]

theorem compileBinding_takes (p : Pat) (value : Term) (sc : Scope) :
    Takes (compileBinding p value sc) (· ∈ p.names)
      fun r xs => ∀ y, y ∈ bodyBinders r.1 ↔ y ∈ value.binders ∨ y ∈ xs := by
  unfold compileBinding
  split
  · next x =>
    refine ((takes_fresh x).bind fun js xs hxs => takes_pure fun y => ?_).congr
      (by simp [Pat.names])
    simp [bodyBinders, Stmt.binders, hxs, or_comm]
  · refine (takes_temp.bind fun tmp xs hxs => (compilePattern_takes (.name tmp) sc _).bind
      fun m ys hys => takes_pure fun y => ?_).congr (by simp)
    simp [bodyBinders, Stmt.binders, hxs, hys y, or_left_comm]

/-! ## Expressions -/

/-- **The expression is compiled with a name for each of its bindings.** -/
def Served (e : Expr) : Prop :=
  ∀ sc, Takes (compileTerm sc e) e.Binds fun t xs => ∀ y, y ∈ t.binders ↔ y ∈ xs

theorem compileBlock_takes {ss : List Expr} (hstmts : ∀ s ∈ ss, Served s)
    (hvalues : ∀ k p a v, .define k p a v ∈ ss → Served v) (sc : Scope) :
    Takes (compileBlock sc ss) (fun x => ∃ s ∈ ss, s.Binds x) BodyBinds := by
  induction ss generalizing sc with
  | nil => exact takes_throw _
  | cons e ss ih =>
    cases ss with
    | nil =>
      rw [compileBlock]
      refine ((hstmts e (by simp) sc).bind fun t xs hxs => takes_pure fun y => ?_).congr (by simp)
      simp [bodyBinders, Stmt.binders, hxs y]
    | cons s ss =>
      have hmore := ih (fun s hs => hstmts s (List.mem_cons_of_mem _ hs))
        fun k p a v hs => hvalues k p a v (List.mem_cons_of_mem _ hs)
      cases hdef : e.isDefinition with
      | true =>
        obtain ⟨k, p, a, v, rfl⟩ := Expr.isDefinition_iff.1 hdef
        rw [compileBlock_define]
        refine ((hvalues k p a v (by simp) sc).bind fun t xs hxs =>
          (compileBinding_takes p t sc).bind fun r ys hys => (hmore r.2).bind
            fun more zs hzs => takes_pure fun y => ?_).congr fun x => ?_
        · simp [hxs y, hys y, hzs y, or_assoc]
        · simp [Expr.binds_define, or_left_comm, or_assoc]
      | false =>
        rw [compileBlock_stmt sc hdef]
        refine ((hstmts e (by simp) sc).bind fun t xs hxs => (hmore sc).bind
          fun more ys hys => takes_pure fun y => ?_).congr (by simp)
        simp [bodyBinders, Stmt.binders, hxs y, hys y]

theorem compileArms_takes {arms : List (Pat × Expr)} (harms : ∀ arm ∈ arms, Served arm.2)
    (path : Path) (sc : Scope) : Takes (compileArms path sc arms)
      (fun x => ∃ arm ∈ arms, x ∈ arm.1.names ∨ arm.2.Binds x) BodyBinds := by
  induction arms with
  | nil => exact (takes_pure fun y => by simp [bodyBinders]).congr (by simp)
  | cons arm arms ih =>
    obtain ⟨p, b⟩ := arm
    obtain ⟨hb, hrest⟩ := List.forall_mem_cons.1 harms
    rw [compileArms]
    refine ((compilePattern_takes path sc p).bind fun m xs hxs => (hb m.scope).bind
      fun t ys hys => (ih hrest).bind fun more zs hzs => takes_pure fun y => ?_).congr fun x => ?_
    · simp [bodyBinders, Stmt.binders, hxs y, hys y, hzs y]
    · simp [or_assoc]

/-- A function is compiled in one of three ways, by its pattern. -/
theorem lambda_served (p : Pat) (a : Option Ty) {b : Expr} (hb : Served b) :
    Served (.lambda p a b) := by
  intro sc
  unfold compileTerm
  split <;> cases ‹Expr.lambda p a b = _›
  · next x =>
    refine ((takes_fresh x).bind fun js xs hxs => (hb _).bind
      fun t ys hys => takes_pure fun y => ?_).congr fun z => ?_
    · simp [Term.binders, hxs, hys y]
    · simp [Expr.binds_lambda, Pat.names]
  · refine ((hb sc).bind fun t xs hxs => takes_temp.bind
      fun tmp ys hys => takes_pure fun y => ?_).congr fun z => ?_
    · simp [Term.binders, hxs y, hys, or_comm]
    · simp [Expr.binds_lambda, Pat.names]
  · refine (takes_temp.bind fun tmp xs hxs => (compilePattern_takes (.name tmp) sc p).bind
      fun m ys hys => (hb m.scope).bind fun t zs hzs => takes_pure fun y => ?_).congr fun z => ?_
    · simp [Term.binders, bodyBinders, Stmt.binders, hxs, hys y, hzs y]
    · simp [Expr.binds_lambda]

/-- **Every expression is compiled with a name for each of its bindings.** -/
theorem compileTerm_served (e : Expr) : Served e := by
  induction e using Expr.induction with
  | number | string | boolean | unit | nil | ident =>
    intro sc
    refine (takes_pure fun y => ?_).congr fun x => ?_
    · simp [Term.binders]
    · simp [Expr.Binds, Expr.walk, Expr.patterns]
  | binary op l r ihl ihr =>
    intro sc
    rw [compileTerm]
    refine ((ihl sc).bind fun l' xs hxs => (ihr sc).bind fun r' ys hys =>
      takes_pure fun y => ?_).congr (by simp [Expr.binds_binary])
    simp [hxs y, hys y]
  | cons u v ihu ihv =>
    intro sc
    rw [compileTerm]
    refine ((ihu sc).bind fun u' xs hxs => (ihv sc).bind fun v' ys hys =>
      takes_pure fun y => ?_).congr (by simp [Expr.binds_cons])
    simp [Term.binders, hxs y, hys y]
  | cond c y n ihc ihy ihn =>
    intro sc
    rw [compileTerm]
    refine ((ihc sc).bind fun c' xs hxs => (ihy sc).bind fun y' ys hys => (ihn sc).bind
      fun n' zs hzs => takes_pure fun z => ?_).congr (by simp [Expr.binds_cond])
    simp [Term.binders, hxs z, hys z, hzs z]
  | lambda p a b ih => exact lambda_served p a ih
  | app f a ihf iha =>
    intro sc
    rw [compileTerm]
    refine ((ihf sc).bind fun f' xs hxs => (iha sc).bind fun a' ys hys =>
      takes_pure fun y => ?_).congr (by simp [Expr.binds_app])
    simp [Term.binders, hxs y, hys y]
  | block ss ihs ihv =>
    intro sc
    rw [compileTerm]
    refine ((compileBlock_takes ihs ihv sc).bind fun body xs hxs =>
      takes_pure fun y => ?_).congr (by simp [Expr.binds_block])
    simp [Term.binders, hxs y]
  | select v arms ihv ihb =>
    intro sc
    rw [compileTerm]
    refine ((ihv sc).bind fun v' xs hxs => takes_temp.bind fun tmp ys hys =>
      (compileArms_takes ihb (.name tmp) sc).bind
        fun body zs hzs => takes_pure fun y => ?_).congr (by simp [Expr.binds_select])
    simp [Term.binders, bodyBinders, Stmt.binders, hxs y, hys, hzs y, or_comm, or_left_comm]
  | define k p a v _ => exact fun sc => takes_throw _
  | missing => exact fun sc => takes_throw _

/-! ## Programs -/

theorem compileAll_takes (sc : Scope) (defs : List Definition) (result : Option Expr) :
    Takes (compileAll sc defs result) (fun x => ∃ s ∈ statements defs result, s.Binds x)
      fun prog xs => ∀ y, y ∈ prog.binders ↔ y ∈ xs := by
  induction defs generalizing sc with
  | nil =>
    intro ns prog ns' h
    obtain ⟨r, ns₁, hdefs, h⟩ := emits_bind.1 h
    obtain ⟨rfl, rfl⟩ := emits_pure.1 hdefs
    cases result with
    | none =>
      obtain ⟨rfl, rfl⟩ := emits_pure.1 h
      exact ⟨[], Names.Serves.nil.congr (by simp [statements]), by simp [Program.binders]⟩
    | some e =>
      obtain ⟨_, _, hplace, h⟩ := emits_bind.1 h
      obtain ⟨-, rfl⟩ := emits_lift.1 hplace
      obtain ⟨t, ns₂, ht, h⟩ := emits_bind.1 h
      obtain ⟨rfl, rfl⟩ := emits_pure.1 h
      obtain ⟨xs, hserves, hxs⟩ := compileTerm_served e sc ht
      exact ⟨xs, hserves.congr (by simp [statements]), by simpa [Program.binders] using hxs⟩
  | cons d ds ih =>
    intro ns prog ns' h
    obtain ⟨value, line, sc₁, rest, ns₁, ns₂, hvalue, hline, hrest, rfl⟩ := compileAll_cons h
    obtain ⟨xs, hserves, hxs⟩ := compileTerm_served d.value sc hvalue
    obtain ⟨ys, hserves₁, hys⟩ := compileBinding_takes d.pat value sc hline
    obtain ⟨zs, hserves₂, hzs⟩ := ih sc₁ hrest
    refine ⟨xs ++ ys ++ zs, ((hserves.append hserves₁).append hserves₂).congr fun x => ?_,
      fun y => ?_⟩
    · simp [statements, Definition.expr, Expr.binds_define, or_comm]
    · have hbinders : Program.binders ⟨line :: rest.lines, rest.result⟩ =
          bodyBinders line ++ rest.binders := by simp [Program.binders]
      rw [hbinders, List.mem_append, hys, hzs, hxs]
      simp [or_assoc]

/-- The globals that a script refers to. -/
def globals : List String := ["console", "Math", "Error", "JSON", "String", "undefined"]

/-- The names that the function for showing values binds. -/
def showBinders : List String := ["$show", "v", "xs", "l"]

/-- **A script binds no reserved word and hides no global it refers to, but for `Error`, `JSON`
and `String`**: each of them is hidden if and only if the program binds it. -/
theorem compileProgram_hides_iff (defs : List Definition) (result : Option Expr) (prog : Program)
    (hcompile : compileProgram defs result = .ok prog) (x : String)
    (hx : x ∈ keywords ++ ["arguments", "eval"] ++ globals) :
    x ∈ showBinders ++ prog.binders ↔
      x ∈ ["Error", "JSON", "String"] ∧ ∃ s ∈ statements defs result, s.Binds x := by
  obtain ⟨ns, h⟩ := emits_of_compileProgram hcompile
  obtain ⟨xs, hserves, hxs⟩ := compileAll_takes [] defs result h
  have hwords : ∀ w ∈ keywords ++ ["arguments", "eval"] ++ globals,
      '$' ∉ w.toList ∧ w ∉ showBinders ∧ (w ∉ reserved ↔ w ∈ ["Error", "JSON", "String"]) := by
    decide
  obtain ⟨hplain, hshow, hreserved⟩ := hwords x hx
  have hcount : Names.count {} x = 0 := rfl
  rw [List.mem_append, or_iff_right hshow, hxs, hserves.plain x hplain, ← hreserved]
  simp [hcount, and_comm]

/-- A definition of `Math` is renamed, one of `JSON` is not. -/
theorem compileProgram_hides_json :
    let defs : List Definition :=
      [⟨.val, .ident "Math", none, .number 1⟩, ⟨.val, .ident "JSON", none, .number 2⟩]
    ∃ prog, compileProgram defs none = .ok prog ∧
      "Math" ∉ showBinders ++ prog.binders ∧ "JSON" ∈ showBinders ++ prog.binders := by
  intro defs
  refine ⟨_, rfl, fun hmath => ?_, ?_⟩
  · have hhidden := (compileProgram_hides_iff defs none _ rfl "Math" (by decide)).1 hmath
    exact absurd hhidden.1 (by decide)
  · exact (compileProgram_hides_iff defs none _ rfl "JSON" (by decide)).2 ⟨by decide, by decide⟩

/-- `String` is a name of the language, and its definition hides the function by which words are
shown. -/
theorem compileProgram_binds_string :
    Token.Named "String" ∧ "String" ∈ globals ∧
      ∃ prog, compileProgram [⟨.val, .ident "String", none, .number 1⟩]
          (some (.ident "String")) = .ok prog ∧ "String" ∈ prog.binders := by
  refine ⟨⟨by decide, by decide⟩, by decide, ?_⟩
  exact ⟨⟨[[.const "String" (.number 1)]], some (.name "String")⟩, rfl, by decide⟩

end Script

end LetPoly
