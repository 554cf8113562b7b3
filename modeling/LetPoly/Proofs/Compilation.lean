import LetPoly.Proofs.Renaming
import LetPoly.Proofs.ScriptNames
import LetPoly.Script.Compile

/-! # Names in compiled programs

Compiling gives every binding a script name of its own and writes each identifier with the
script name of the binding that it stands for.  What a script says is therefore told in two
steps.  A script **writes** a program with the names of that program as they stand
(`Writes`): this says nothing of scopes.  And the program that it writes is the source
program, but for its names: renaming each script name to its source name gives the source
back, and each identifier is the innermost binding in scope with its source name
(`Expr.Resolved`).

The compiler is followed through its supply of names and its scope.  For each kind of syntax
a lemma says that what is written is resolved in the scope (`Rendered`) and that the names it
binds have been handed out on the way (`Names.HandsOut`), hence are bound once.  Since a
resolved program is evaluated in step with the renamed one, the bindings are those that
evaluation uses (`compileProgram_names`).
-/

namespace LetPoly.Script

/-! ## The names that a script binds -/

mutual
/-- The names that a term binds, in the order of its text. -/
def Term.binders : Term → List String
  | .number _ | .string _ | .boolean _ | .undefined | .null | .name _ => []
  | .quotient l r | .operation _ l r | .cell l r | .call l r => l.binders ++ r.binders
  | .choice c y n => c.binders ++ y.binders ++ n.binders
  | .arrow x b => x :: b.binders
  | .function x b => x :: bodyBinders b
  | .run b => bodyBinders b

def Stmt.binders : Stmt → List String
  | .const x t => x :: t.binders
  | .part x _ => [x]
  | .arm _ b => bodyBinders b
  | .expression t | .return t => t.binders
  | .guard _ | .noCase => []

def bodyBinders : List Stmt → List String
  | [] => []
  | s :: ss => s.binders ++ bodyBinders ss
end

/-- **The names that a script binds**: parameters of functions, constants, parts of values
and temporaries. -/
def Program.binders (p : Program) : List String :=
  p.lines.flatMap bodyBinders ++ (p.result.map Term.binders).getD []

@[simp] theorem bodyBinders_append (ss ss' : List Stmt) :
    bodyBinders (ss ++ ss') = bodyBinders ss ++ bodyBinders ss' := by
  induction ss with
  | nil => rfl
  | cons s ss ih => simp [bodyBinders, ih]

@[simp] theorem bodyBinders_guards (tests : List Test) : bodyBinders (guards tests) = [] := by
  rw [guards]
  split <;> rfl

@[simp] theorem binders_operation (op : Op) (l r : Term) :
    (operation op l r).binders = l.binders ++ r.binders := by
  cases op <;> rfl

/-! ## What a script writes -/

/-- The conditions under which a pattern accepts the value at a path. -/
def testsOf (path : Path) : Pat → List Test
  | .number n => [.equals path (.number n)]
  | .string s => [.equals path (.string s)]
  | .boolean b => [.equals path (.boolean b)]
  | .nil => [.equals path .null]
  | .cons h t => .isCell path :: (testsOf path.head h ++ testsOf path.tail t)
  | .ident _ | .unit | .wildcard | .missing => []

/-- The names that a pattern gives to the parts of the value at a path. -/
def partsOf (path : Path) : Pat → List Stmt
  | .ident x => [.part x path]
  | .cons h t => partsOf path.head h ++ partsOf path.tail t
  | .number _ | .string _ | .boolean _ | .unit | .wildcard | .nil | .missing => []

@[simp] theorem bodyBinders_partsOf (path : Path) (p : Pat) :
    bodyBinders (partsOf path p) = p.names := by
  induction p generalizing path with
  | ident x => rfl
  | cons h t ihh iht => simp [partsOf, ihh, iht, Pat.names]
  | number | string | boolean | unit | wildcard | nil | missing => rfl

/-- A definition of a value, with its names as they stand. -/
inductive WritesBinding : Pat → Term → List Stmt → Prop
  | ident (x : String) (t : Term) : WritesBinding (.ident x) t [.const x t]
  | parts (p : Pat) (t : Term) (tmp : String) : WritesBinding p t
      (.const tmp t :: (guards (testsOf (.name tmp) p) ++ partsOf (.name tmp) p))

mutual
/-- **The term writes the expression with its names as they stand.** -/
inductive Writes : Expr → Term → Prop
  | number (n : Int64) : Writes (.number n) (.number n)
  | string (s : String) : Writes (.string s) (.string s)
  | boolean (b : Bool) : Writes (.boolean b) (.boolean b)
  | unit : Writes .unit .undefined
  | nil : Writes .nil .null
  | ident (x : String) : Writes (.ident x) (.name x)
  | binary (op : Op) {l r : Expr} {tl tr : Term} (hl : Writes l tl) (hr : Writes r tr) :
    Writes (.binary op l r) (operation op tl tr)
  | cons {h t : Expr} {th tt : Term} (hh : Writes h th) (ht : Writes t tt) :
    Writes (.cons h t) (.cell th tt)
  | cond {c y n : Expr} {tc ty tn : Term} (hc : Writes c tc) (hy : Writes y ty)
    (hn : Writes n tn) : Writes (.cond c y n) (.choice tc ty tn)
  | arrow (x : String) (a : Option Ty) {b : Expr} {t : Term} (hb : Writes b t) :
    Writes (.lambda (.ident x) a b) (.arrow x t)
  | ignore (tmp : String) (a : Option Ty) {b : Expr} {t : Term} (hb : Writes b t) :
    Writes (.lambda .wildcard a b) (.arrow tmp t)
  | function (p : Pat) (tmp : String) (a : Option Ty) {b : Expr} {t : Term} (hb : Writes b t) :
    Writes (.lambda p a b) (.function tmp
      (guards (testsOf (.name tmp) p) ++ partsOf (.name tmp) p ++ [.return t]))
  | app {f a : Expr} {tf ta : Term} (hf : Writes f tf) (ha : Writes a ta) :
    Writes (.app f a) (.call tf ta)
  | block {ss : List Expr} {body : List Stmt} (h : WritesBody ss body) :
    Writes (.block ss) (.run body)
  | select {v : Expr} {arms : List (Pat × Expr)} {tv : Term} {tmp : String} {body : List Stmt}
    (hv : Writes v tv) (harms : WritesArms tmp arms body) :
    Writes (.select v arms) (.call (.function tmp (body ++ [.noCase])) tv)

/-- The statements of a block. -/
inductive WritesBody : List Expr → List Stmt → Prop
  | last {e : Expr} {t : Term} (h : Writes e t) : WritesBody [e] [.return t]
  | define (k : Binder) {p : Pat} (a : Option Ty) {v : Expr} {t : Term} {line : List Stmt}
    {ss : List Expr} {body : List Stmt} (hv : Writes v t) (hp : WritesBinding p t line)
    (hss : WritesBody ss body) : WritesBody (.define k p a v :: ss) (line ++ body)
  | stmt {e : Expr} {t : Term} {ss : List Expr} {body : List Stmt} (h : Writes e t)
    (hss : WritesBody ss body) : WritesBody (e :: ss) (.expression t :: body)

/-- The cases of a match on the value of a temporary. -/
inductive WritesArms : String → List (Pat × Expr) → List Stmt → Prop
  | nil (tmp : String) : WritesArms tmp [] []
  | cons {tmp : String} (p : Pat) {b : Expr} {t : Term} {arms : List (Pat × Expr)}
    {body : List Stmt} (hb : Writes b t) (harms : WritesArms tmp arms body) :
    WritesArms tmp ((p, b) :: arms)
      (.arm (testsOf (.name tmp) p) (partsOf (.name tmp) p ++ [.return t]) :: body)
end

/-- **The script writes the program with its names as they stand**: a line for each
definition, and the result. -/
inductive Program.Writes : Program → List Expr → Prop
  | nothing : Program.Writes ⟨[], none⟩ []
  | result {e : Expr} {t : Term} (h : Script.Writes e t) : Program.Writes ⟨[], some t⟩ [e]
  | define (k : Binder) {p : Pat} (a : Option Ty) {v : Expr} {t : Term} {line : List Stmt}
    {lines : List (List Stmt)} {result : Option Term} {ss : List Expr} (hv : Script.Writes v t)
    (hp : WritesBinding p t line) (hss : Program.Writes ⟨lines, result⟩ ss) :
    Program.Writes ⟨line :: lines, result⟩ (.define k p a v :: ss)

/-! ## Computations that give names -/

/-- The computation succeeds, and takes the supply from one state to another. -/
def Emits {α : Type} (m : Emit α) (ns : Names) (a : α) (ns' : Names) : Prop :=
  m ns = .ok (a, ns')

section
variable {α β : Type} {ns ns' : Names}

theorem emits_bind {m : Emit α} {k : α → Emit β} {b : β} :
    Emits (m >>= k) ns b ns' ↔ ∃ a ns₁, Emits m ns a ns₁ ∧ Emits (k a) ns₁ b ns' := by
  change (m ns >>= fun r => k r.1 r.2) = .ok (b, ns') ↔ _
  rcases hm : m ns with e | ⟨a, ns₁⟩ <;> simp [Emits, hm, bind, Except.bind]

theorem emits_pure {a b : α} : Emits (pure a) ns b ns' ↔ a = b ∧ ns = ns' := by
  change Except.ok (a, ns) = .ok (b, ns') ↔ _
  simp

theorem not_emits_throw {e : CompileError} {a : α} : ¬Emits (throw e) ns a ns' := by
  intro h
  cases h

theorem emits_lift {x : Except CompileError α} {a : α} :
    Emits (liftM x : Emit α) ns a ns' ↔ x = .ok a ∧ ns = ns' := by
  cases x with
  | error e => exact ⟨fun h => (by cases h), fun h => (by cases h.1)⟩
  | ok b =>
    change Except.ok (b, ns) = .ok (a, ns') ↔ _
    simp

theorem emits_fresh {x js : String} : Emits (fresh x) ns js ns' ↔ ns.fresh x = (js, ns') := by
  change Except.ok (ns.fresh x) = .ok (js, ns') ↔ _
  simp

theorem emits_temp {tmp : String} : Emits temp ns tmp ns' ↔ ns.temp = (tmp, ns') := by
  change Except.ok ns.temp = .ok (tmp, ns') ↔ _
  simp

theorem Emits.fresh_handsOut {x js : String} (h : Emits (fresh x) ns js ns') (hx : Bare x) :
    source js = x ∧ Names.HandsOut ns ns' [js] := by
  have hfresh := Names.handsOut_fresh hx ns
  have hsource : source (ns.fresh x).1 = x := source_numbered hx _
  rw [emits_fresh.1 h] at hfresh hsource
  exact ⟨hsource, hfresh⟩

theorem Emits.temp_handsOut {tmp : String} (h : Emits temp ns tmp ns') :
    Names.HandsOut ns ns' [tmp] := by
  have htemp := Names.handsOut_temp ns
  rwa [emits_temp.1 h] at htemp

end

/-! ## Scopes -/

/-- Each script name in scope stands for its source name. -/
def Sourced (sc : Scope) : Prop := ∀ b ∈ sc, source b.2 = b.1

/-- What is looked up is the innermost script name with the source name. -/
theorem find?_scope {sc : Scope} (h : Sourced sc) (x : String) :
    (sc.map (·.2)).find? (source · == x) = sc.lookup x := by
  induction sc with
  | nil => rfl
  | cons b sc ih =>
    obtain ⟨y, js⟩ := b
    obtain ⟨hy, hsc⟩ := List.forall_mem_cons.1 h
    obtain rfl : source js = y := hy
    rw [List.map_cons, List.find?_cons, List.lookup_cons, ih hsc]
    by_cases hx : x = source js
    · simp [hx]
    · have hb : (x == source js) = false := by simpa using hx
      have hb' : (source js == x) = false := by simpa using Ne.symm hx
      simp only [hb, hb']

/-- **An identifier in scope is written as the innermost script name with its source name.** -/
theorem resolve_resolved {sc : Scope} (h : Sourced sc) {x : String} (hx : x ∈ sc.map (·.1)) :
    source (sc.resolve x) = x ∧
      (Expr.ident (sc.resolve x)).Resolved source (sc.map (·.2)) := by
  have hsome : ((sc.map (·.2)).find? (source · == x)).isSome := by
    obtain ⟨b, hb, rfl⟩ := List.mem_map.1 hx
    rw [List.find?_isSome]
    exact ⟨b.2, List.mem_map_of_mem hb, by simp [h b hb]⟩
  obtain ⟨js, hjs⟩ := Option.isSome_iff_exists.1 hsome
  have hsource : source js = x := by simpa using List.find?_some hjs
  have hres : sc.resolve x = js := by
    rw [Scope.resolve, ← find?_scope h, hjs, Option.getD_some]
  rw [hres, Expr.Resolved, hsource]
  exact ⟨rfl, hjs⟩

/-- The scope after a pattern, whose names are put in front one by one. -/
structure Extends (sc sc' : Scope) (q : Pat) : Prop where
  sourced : Sourced sc'
  names : sc'.map (·.2) = q.names.reverse ++ sc.map (·.2)
  sources : sc'.map (·.1) = (q.rename source).names.reverse ++ sc.map (·.1)

theorem Extends.mem {sc sc' : Scope} {q : Pat} {x : String} (h : Extends sc sc' q)
    (hx : x ∈ (q.rename source).names ∨ x ∈ sc.map (·.1)) : x ∈ sc'.map (·.1) := by
  rw [h.sources, List.mem_append, List.mem_reverse]
  exact hx

theorem Sourced.extend {sc : Scope} (h : Sourced sc) {x js : String} (hjs : source js = x) :
    Extends sc ((x, js) :: sc) (.ident js) :=
  ⟨List.forall_mem_cons.2 ⟨hjs, h⟩, rfl, by simp [Pat.rename, Pat.names, hjs]⟩

/-! ## Patterns -/

/-- **A pattern is written with a script name for each of its names.** -/
theorem compilePattern_writes {path : Path} {sc : Scope} {p : Pat} {ns ns' : Names} {m : Matched}
    (h : Emits (compilePattern path sc p) ns m ns') (hp : ∀ x ∈ p.names, Bare x)
    (hsc : Sourced sc) : ∃ q, q.rename source = p ∧ m.tests = testsOf path q ∧
      m.parts = partsOf path q ∧ Extends sc m.scope q ∧ Names.HandsOut ns ns' q.names := by
  induction p generalizing path sc ns ns' m with
  | ident x =>
    obtain ⟨js, ns₁, hfresh, h⟩ := emits_bind.1 h
    obtain ⟨rfl, rfl⟩ := emits_pure.1 h
    obtain ⟨hsource, hout⟩ := hfresh.fresh_handsOut (hp x (by simp [Pat.names]))
    exact ⟨.ident js, by rw [Pat.rename, hsource], rfl, rfl, hsc.extend hsource, hout⟩
  | cons h t ihh iht =>
    rw [compilePattern] at h
    obtain ⟨hm, ns₁, hhead, h⟩ := emits_bind.1 h
    obtain ⟨tm, ns₂, htail, h⟩ := emits_bind.1 h
    obtain ⟨rfl, rfl⟩ := emits_pure.1 h
    obtain ⟨q, rfl, htests, hparts, hext, hout⟩ :=
      ihh hhead (fun x hx => hp x (by simp [Pat.names, hx])) hsc
    obtain ⟨r, rfl, htests', hparts', hext', hout'⟩ :=
      iht htail (fun x hx => hp x (by simp [Pat.names, hx])) hext.sourced
    refine ⟨.cons q r, rfl, by simp [testsOf, htests, htests'], by simp [partsOf, hparts, hparts'],
      ⟨hext'.sourced, ?_, ?_⟩, hout.append hout'⟩
    · simp [hext'.names, hext.names, Pat.names]
    · simp [hext'.sources, hext.sources, Pat.rename, Pat.names]
  | number | string | boolean | nil | unit | wildcard | missing =>
    obtain ⟨rfl, rfl⟩ := emits_pure.1 h
    exact ⟨_, Pat.rename_eq_self rfl, rfl, rfl, ⟨hsc, rfl, rfl⟩, .nil⟩

/-- A definition of a value that has been written. -/
theorem compileBinding_writes {p : Pat} {value : Term} {sc sc' : Scope} {ns ns' : Names}
    {line : List Stmt} (h : Emits (compileBinding p value sc) ns (line, sc') ns')
    (hp : ∀ x ∈ p.names, Bare x) (hsc : Sourced sc) :
    ∃ q xs, q.rename source = p ∧ WritesBinding q value line ∧ Extends sc sc' q ∧
      Names.HandsOut ns ns' xs ∧ (value.binders ++ xs).Perm (bodyBinders line) := by
  by_cases hident : ∃ x, p = .ident x
  · obtain ⟨x, rfl⟩ := hident
    obtain ⟨js, ns₁, hfresh, h⟩ := emits_bind.1 h
    obtain ⟨heq, rfl⟩ := emits_pure.1 h
    obtain ⟨rfl, rfl⟩ := Prod.mk.inj heq
    obtain ⟨hsource, hout⟩ := hfresh.fresh_handsOut (hp x (by simp [Pat.names]))
    refine ⟨.ident js, [js], by rw [Pat.rename, hsource], .ident js value, hsc.extend hsource, hout,
      ?_⟩
    simp [bodyBinders, Stmt.binders]
  · have hbinding : compileBinding p value sc = (do
        let tmp ← temp
        let m ← compilePattern (.name tmp) sc p
        return (.const tmp value :: (guards m.tests ++ m.parts), m.scope)) := by
      cases p with
      | ident x => exact absurd ⟨x, rfl⟩ hident
      | _ => rfl
    rw [hbinding] at h
    obtain ⟨tmp, ns₁, htemp, h⟩ := emits_bind.1 h
    obtain ⟨m, ns₂, hpat, h⟩ := emits_bind.1 h
    obtain ⟨heq, rfl⟩ := emits_pure.1 h
    obtain ⟨rfl, rfl⟩ := Prod.mk.inj heq
    obtain ⟨q, rfl, htests, hparts, hext, hout⟩ := compilePattern_writes hpat hp hsc
    rw [htests, hparts]
    refine ⟨q, tmp :: q.names, rfl, .parts q value tmp, hext, htemp.temp_handsOut.append hout, ?_⟩
    simp [bodyBinders, Stmt.binders]

/-! ## Expressions -/

/-- The names that an expression binds itself are bare. -/
def BindsBare (e : Expr) : Prop := ∀ p ∈ e.patterns, ∀ x ∈ p.names, Bare x

/-- **What an expression becomes in a scope**: a term that writes it with a script name for
each of its names, each identifier resolved, and each binding with a name of its own. -/
def Rendered (sc : Scope) (ns ns' : Names) (e : Expr) (t : Term) : Prop :=
  ∃ e' : Expr, e'.rename source = e ∧ Writes e' t ∧ e'.Resolved source (sc.map (·.2)) ∧
    Names.HandsOut ns ns' t.binders

/-- Wherever the expression stands, it is rendered, if its names are in scope. -/
def Renders (e : Expr) : Prop :=
  ∀ ⦃sc : Scope⦄ ⦃ns ns' : Names⦄ ⦃t : Term⦄, Sourced sc → (∀ x ∈ e.free, x ∈ sc.map (·.1)) →
    e.Everywhere BindsBare → Emits (compileTerm sc e) ns t ns' → Rendered sc ns ns' e t

/-- An expression without names. -/
theorem renders_constant {e : Expr} {t : Term} (hwrites : Writes e t)
    (hcompile : ∀ sc, compileTerm sc e = pure t) (hrename : e.rename source = e)
    (hbinders : t.binders = []) (hres : ∀ scope, e.Resolved source scope) : Renders e := by
  intro sc ns ns' t' _ _ _ h
  rw [hcompile] at h
  obtain ⟨rfl, rfl⟩ := emits_pure.1 h
  exact ⟨e, hrename, hwrites, hres _, hbinders ▸ .nil⟩

theorem renders_lambda {p : Pat} {a : Option Ty} {b : Expr} (hb : Renders b) :
    Renders (.lambda p a b) := by
  intro sc ns ns' t hsc hfree hbare h
  obtain ⟨hpat, hbody⟩ := Expr.everywhere_lambda.1 hbare
  have hp : ∀ x ∈ p.names, Bare x := hpat p (by simp [Expr.patterns])
  have hscope {sc' : Scope} {q : Pat} (hext : Extends sc sc' q) (hq : q.rename source = p) :
      ∀ x ∈ b.free, x ∈ sc'.map (·.1) := by
    intro x hx
    refine hext.mem ?_
    rw [hq]
    by_cases hxp : x ∈ p.names
    · exact .inl hxp
    · exact .inr (hfree x (by simp [Expr.free, hx, hxp]))
  by_cases hident : ∃ x, p = .ident x
  · obtain ⟨x, rfl⟩ := hident
    rw [compileTerm] at h
    obtain ⟨js, ns₁, hfresh, h⟩ := emits_bind.1 h
    obtain ⟨body, ns₂, hrun, h⟩ := emits_bind.1 h
    obtain ⟨rfl, rfl⟩ := emits_pure.1 h
    obtain ⟨hsource, hout⟩ := hfresh.fresh_handsOut (hp x (by simp [Pat.names]))
    have hext := hsc.extend hsource
    have hq : (Pat.ident js).rename source = .ident x := by rw [Pat.rename, hsource]
    obtain ⟨b', rfl, hwrites, hres, hout'⟩ := hb hext.sourced (hscope hext hq) hbody hrun
    refine ⟨.lambda (.ident js) a b', by rw [Expr.rename, hq], .arrow js a hwrites, ?_, ?_⟩
    · rwa [Expr.Resolved, ← hext.names]
    · exact hout.append hout'
  by_cases hwild : p = .wildcard
  · subst hwild
    rw [compileTerm] at h
    obtain ⟨body, ns₁, hrun, h⟩ := emits_bind.1 h
    obtain ⟨tmp, ns₂, htemp, h⟩ := emits_bind.1 h
    obtain ⟨rfl, rfl⟩ := emits_pure.1 h
    have hext : Extends sc sc .wildcard := ⟨hsc, rfl, rfl⟩
    obtain ⟨b', rfl, hwrites, hres, hout⟩ := hb hsc (hscope hext rfl) hbody hrun
    refine ⟨.lambda .wildcard a b', rfl, .ignore tmp a hwrites, hres, ?_⟩
    exact (hout.append htemp.temp_handsOut).perm List.perm_append_comm
  · have hlambda : compileTerm sc (.lambda p a b) = (do
        let tmp ← temp
        let m ← compilePattern (.name tmp) sc p
        let body ← compileTerm m.scope b
        return .function tmp (guards m.tests ++ m.parts ++ [.return body])) := by
      rw [compileTerm]
      · exact fun x hx => hident ⟨x, hx⟩
      · exact hwild
    rw [hlambda] at h
    obtain ⟨tmp, ns₁, htemp, h⟩ := emits_bind.1 h
    obtain ⟨m, ns₂, hmatch, h⟩ := emits_bind.1 h
    obtain ⟨body, ns₃, hrun, h⟩ := emits_bind.1 h
    obtain ⟨rfl, rfl⟩ := emits_pure.1 h
    obtain ⟨q, hq, htests, hparts, hext, hout⟩ := compilePattern_writes hmatch hp hsc
    obtain ⟨b', rfl, hwrites, hres, hout'⟩ := hb hext.sourced (hscope hext hq) hbody hrun
    rw [htests, hparts]
    refine ⟨.lambda q a b', by rw [Expr.rename, hq], .function q tmp a hwrites, ?_, ?_⟩
    · rwa [Expr.Resolved, ← hext.names]
    · have hall := (htemp.temp_handsOut.append hout).append hout'
      simpa [Term.binders, bodyBinders, Stmt.binders] using hall

theorem compileBlock_define (sc : Scope) (k : Binder) (p : Pat) (a : Option Ty) (v s : Expr)
    (ss : List Expr) : compileBlock sc (.define k p a v :: s :: ss) = (do
      let value ← compileTerm sc v
      let r ← compileBinding p value sc
      return r.1 ++ (← compileBlock r.2 (s :: ss))) := by
  rw [compileBlock]
  simp

theorem compileBlock_stmt (sc : Scope) {e : Expr} (he : e.isDefinition = false) (s : Expr)
    (ss : List Expr) : compileBlock sc (e :: s :: ss) = (do
      let t ← compileTerm sc e
      return .expression t :: (← compileBlock sc (s :: ss))) := by
  rw [compileBlock]
  · simp
  · rintro k p a v rfl
    cases he

/-- **The statements of a block**, if its parts are rendered. -/
theorem compileBlock_writes {ss : List Expr} (hstmts : ∀ s ∈ ss, Renders s)
    (hvalues : ∀ k p a v, .define k p a v ∈ ss → Renders v) {sc : Scope} {ns ns' : Names}
    {body : List Stmt} (hsc : Sourced sc) (hfree : ∀ x ∈ Expr.freeStmts ss, x ∈ sc.map (·.1))
    (hbare : ∀ s ∈ ss, s.Everywhere BindsBare) (h : Emits (compileBlock sc ss) ns body ns') :
    ∃ ss', Expr.renameStmts source ss' = ss ∧ WritesBody ss' body ∧
      Expr.ResolvedStmts source (sc.map (·.2)) ss' ∧ Names.HandsOut ns ns' (bodyBinders body) := by
  induction ss generalizing sc ns ns' body with
  | nil => exact absurd h not_emits_throw
  | cons e ss ih =>
    obtain ⟨he, hrest⟩ := List.forall_mem_cons.1 hbare
    cases ss with
    | nil =>
      rw [compileBlock] at h
      obtain ⟨t, ns₁, hrun, h⟩ := emits_bind.1 h
      obtain ⟨rfl, rfl⟩ := emits_pure.1 h
      have hdef : e.isDefinition = false := by
        cases e with
        | define => exact absurd hrun not_emits_throw
        | _ => rfl
      obtain ⟨e', rfl, hwrites, hres, hout⟩ := hstmts e (by simp) hsc
        (fun x hx => hfree x (by simp [Expr.freeStmts_stmt hdef, hx])) he hrun
      rw [Expr.isDefinition_rename] at hdef
      refine ⟨[e'], rfl, .last hwrites, ?_, by simpa [bodyBinders, Stmt.binders] using hout⟩
      exact (Expr.resolvedStmts_stmt hdef []).2 ⟨hres, trivial⟩
    | cons s ss =>
      cases hdef : e.isDefinition with
      | true =>
        obtain ⟨k, p, a, v, rfl⟩ := Expr.isDefinition_iff.1 hdef
        obtain ⟨hpat, hv⟩ := Expr.everywhere_define.1 he
        rw [Expr.freeStmts_define] at hfree
        rw [compileBlock_define] at h
        obtain ⟨t, ns₁, hrun, h⟩ := emits_bind.1 h
        obtain ⟨⟨line, sc'⟩, ns₂, hbind, h⟩ := emits_bind.1 h
        obtain ⟨more, ns₃, hmore, h⟩ := emits_bind.1 h
        obtain ⟨rfl, rfl⟩ := emits_pure.1 h
        obtain ⟨v', rfl, hwrites, hres, hout⟩ := hvalues k p a v (by simp) hsc
          (fun x hx => hfree x (List.mem_append_left _ hx)) hv hrun
        obtain ⟨q, xs, rfl, hline, hext, hout₁, hperm⟩ :=
          compileBinding_writes hbind (hpat p (by simp [Expr.patterns])) hsc
        have hscope : ∀ x ∈ Expr.freeStmts (s :: ss), x ∈ sc'.map (·.1) := by
          intro x hx
          refine hext.mem ?_
          by_cases hxq : x ∈ (q.rename source).names
          · exact .inl hxq
          · exact .inr (hfree x (List.mem_append_right _ (by simp [hx, hxq])))
        obtain ⟨ss', hss', hbody, hres', hout₂⟩ :=
          ih (fun s hs => hstmts s (List.mem_cons_of_mem _ hs))
            (fun k p a v hs => hvalues k p a v (List.mem_cons_of_mem _ hs)) hext.sourced hscope
            hrest hmore
        refine ⟨.define k q a v' :: ss', by rw [Expr.renameStmts, hss', Expr.rename],
          .define k a hwrites hline hbody, ⟨hres, by rwa [← hext.names]⟩, ?_⟩
        rw [bodyBinders_append]
        exact ((hout.append hout₁).perm hperm).append hout₂
      | false =>
        rw [Expr.freeStmts_stmt hdef] at hfree
        rw [compileBlock_stmt sc hdef] at h
        obtain ⟨t, ns₁, hrun, h⟩ := emits_bind.1 h
        obtain ⟨more, ns₂, hmore, h⟩ := emits_bind.1 h
        obtain ⟨rfl, rfl⟩ := emits_pure.1 h
        obtain ⟨e', rfl, hwrites, hres, hout⟩ := hstmts e (by simp) hsc
          (fun x hx => hfree x (List.mem_append_left _ hx)) he hrun
        obtain ⟨ss', hss', hbody, hres', hout'⟩ :=
          ih (fun s hs => hstmts s (List.mem_cons_of_mem _ hs))
            (fun k p a v hs => hvalues k p a v (List.mem_cons_of_mem _ hs)) hsc
            (fun x hx => hfree x (List.mem_append_right _ hx)) hrest hmore
        rw [Expr.isDefinition_rename] at hdef
        refine ⟨e' :: ss', by rw [Expr.renameStmts, hss'], .stmt hwrites hbody, ?_,
          hout.append hout'⟩
        exact (Expr.resolvedStmts_stmt hdef ss').2 ⟨hres, hres'⟩

/-- **The cases of a match**, if their bodies are rendered. -/
theorem compileArms_writes {arms : List (Pat × Expr)} (hbodies : ∀ arm ∈ arms, Renders arm.2)
    {tmp : String} {sc : Scope} {ns ns' : Names} {body : List Stmt} (hsc : Sourced sc)
    (hfree : ∀ x ∈ Expr.freeArms arms, x ∈ sc.map (·.1))
    (hpats : ∀ arm ∈ arms, ∀ x ∈ arm.1.names, Bare x)
    (hbare : ∀ arm ∈ arms, arm.2.Everywhere BindsBare)
    (h : Emits (compileArms (.name tmp) sc arms) ns body ns') :
    ∃ arms', Expr.renameArms source arms' = arms ∧ WritesArms tmp arms' body ∧
      Expr.ResolvedArms source (sc.map (·.2)) arms' ∧
      Names.HandsOut ns ns' (bodyBinders body) := by
  induction arms generalizing ns ns' body with
  | nil =>
    obtain ⟨rfl, rfl⟩ := emits_pure.1 h
    exact ⟨[], rfl, .nil tmp, trivial, .nil⟩
  | cons arm arms ih =>
    obtain ⟨p, b⟩ := arm
    obtain ⟨hp, hrestPats⟩ := List.forall_mem_cons.1 hpats
    obtain ⟨hb, hrestBare⟩ := List.forall_mem_cons.1 hbare
    rw [compileArms] at h
    obtain ⟨m, ns₁, hmatch, h⟩ := emits_bind.1 h
    obtain ⟨t, ns₂, hrun, h⟩ := emits_bind.1 h
    obtain ⟨more, ns₃, hmore, h⟩ := emits_bind.1 h
    obtain ⟨rfl, rfl⟩ := emits_pure.1 h
    obtain ⟨q, rfl, htests, hparts, hext, hout⟩ := compilePattern_writes hmatch hp hsc
    have hscope : ∀ x ∈ b.free, x ∈ m.scope.map (·.1) := by
      intro x hx
      refine hext.mem ?_
      by_cases hxq : x ∈ (q.rename source).names
      · exact .inl hxq
      · exact .inr (hfree x (List.mem_append_left _ (by simp [hx, hxq])))
    obtain ⟨b', rfl, hwrites, hres, hout₁⟩ :=
      hbodies _ List.mem_cons_self hext.sourced hscope hb hrun
    obtain ⟨arms', rfl, hbody, hres', hout₂⟩ :=
      ih (fun arm ha => hbodies arm (List.mem_cons_of_mem _ ha))
        (fun x hx => hfree x (List.mem_append_right _ hx)) hrestPats hrestBare hmore
    rw [htests, hparts]
    refine ⟨(q, b') :: arms', rfl, .cons q hwrites hbody, ⟨by rwa [← hext.names], hres'⟩, ?_⟩
    simpa [bodyBinders, Stmt.binders] using (hout.append hout₁).append hout₂

/-- **Every expression is rendered.** -/
theorem compileTerm_writes (e : Expr) : Renders e := by
  induction e using Expr.induction with
  | number n => exact renders_constant (.number n) (fun _ => rfl) rfl rfl fun _ => trivial
  | string s => exact renders_constant (.string s) (fun _ => rfl) rfl rfl fun _ => trivial
  | boolean b => exact renders_constant (.boolean b) (fun _ => rfl) rfl rfl fun _ => trivial
  | unit => exact renders_constant .unit (fun _ => rfl) rfl rfl fun _ => trivial
  | nil => exact renders_constant .nil (fun _ => rfl) rfl rfl fun _ => trivial
  | ident x =>
    intro sc ns ns' t hsc hfree _ h
    obtain ⟨rfl, rfl⟩ := emits_pure.1 h
    obtain ⟨hsource, hres⟩ := resolve_resolved hsc (hfree x (by simp [Expr.free]))
    exact ⟨.ident (sc.resolve x), by rw [Expr.rename, hsource], .ident _, hres, .nil⟩
  | binary op l r ihl ihr =>
    intro sc ns ns' t hsc hfree hbare h
    obtain ⟨-, hl, hr⟩ := Expr.everywhere_binary.1 hbare
    rw [compileTerm] at h
    obtain ⟨tl, ns₁, hrunl, h⟩ := emits_bind.1 h
    obtain ⟨tr, ns₂, hrunr, h⟩ := emits_bind.1 h
    obtain ⟨rfl, rfl⟩ := emits_pure.1 h
    obtain ⟨l', rfl, hwl, hresl, houtl⟩ :=
      ihl hsc (fun x hx => hfree x (List.mem_append_left _ hx)) hl hrunl
    obtain ⟨r', rfl, hwr, hresr, houtr⟩ :=
      ihr hsc (fun x hx => hfree x (List.mem_append_right _ hx)) hr hrunr
    refine ⟨.binary op l' r', rfl, .binary op hwl hwr, ⟨hresl, hresr⟩, ?_⟩
    rw [binders_operation]
    exact houtl.append houtr
  | cons u v ihu ihv =>
    intro sc ns ns' t hsc hfree hbare h
    obtain ⟨-, hu, hv⟩ := Expr.everywhere_cons.1 hbare
    rw [compileTerm] at h
    obtain ⟨tu, ns₁, hrunu, h⟩ := emits_bind.1 h
    obtain ⟨tv, ns₂, hrunv, h⟩ := emits_bind.1 h
    obtain ⟨rfl, rfl⟩ := emits_pure.1 h
    obtain ⟨u', rfl, hwu, hresu, houtu⟩ :=
      ihu hsc (fun x hx => hfree x (List.mem_append_left _ hx)) hu hrunu
    obtain ⟨v', rfl, hwv, hresv, houtv⟩ :=
      ihv hsc (fun x hx => hfree x (List.mem_append_right _ hx)) hv hrunv
    exact ⟨.cons u' v', rfl, .cons hwu hwv, ⟨hresu, hresv⟩, houtu.append houtv⟩
  | cond c y n ihc ihy ihn =>
    intro sc ns ns' t hsc hfree hbare h
    obtain ⟨-, hc, hy, hn⟩ := Expr.everywhere_cond.1 hbare
    simp only [Expr.free, List.mem_append] at hfree
    rw [compileTerm] at h
    obtain ⟨tc, ns₁, hrunc, h⟩ := emits_bind.1 h
    obtain ⟨ty, ns₂, hruny, h⟩ := emits_bind.1 h
    obtain ⟨tn, ns₃, hrunn, h⟩ := emits_bind.1 h
    obtain ⟨rfl, rfl⟩ := emits_pure.1 h
    obtain ⟨c', rfl, hwc, hresc, houtc⟩ := ihc hsc (fun x hx => hfree x (.inl (.inl hx))) hc hrunc
    obtain ⟨y', rfl, hwy, hresy, houty⟩ := ihy hsc (fun x hx => hfree x (.inl (.inr hx))) hy hruny
    obtain ⟨n', rfl, hwn, hresn, houtn⟩ := ihn hsc (fun x hx => hfree x (.inr hx)) hn hrunn
    exact ⟨.cond c' y' n', rfl, .cond hwc hwy hwn, ⟨hresc, hresy, hresn⟩,
      (houtc.append houty).append houtn⟩
  | lambda p a b ihb => exact renders_lambda ihb
  | app f a ihf iha =>
    intro sc ns ns' t hsc hfree hbare h
    obtain ⟨-, hf, ha⟩ := Expr.everywhere_app.1 hbare
    rw [compileTerm] at h
    obtain ⟨tf, ns₁, hrunf, h⟩ := emits_bind.1 h
    obtain ⟨ta, ns₂, hruna, h⟩ := emits_bind.1 h
    obtain ⟨rfl, rfl⟩ := emits_pure.1 h
    obtain ⟨f', rfl, hwf, hresf, houtf⟩ :=
      ihf hsc (fun x hx => hfree x (List.mem_append_left _ hx)) hf hrunf
    obtain ⟨a', rfl, hwa, hresa, houta⟩ :=
      iha hsc (fun x hx => hfree x (List.mem_append_right _ hx)) ha hruna
    exact ⟨.app f' a', rfl, .app hwf hwa, ⟨hresf, hresa⟩, houtf.append houta⟩
  | block ss ihs ihv =>
    intro sc ns ns' t hsc hfree hbare h
    obtain ⟨-, hss⟩ := Expr.everywhere_block.1 hbare
    rw [compileTerm] at h
    obtain ⟨body, ns₁, hrun, h⟩ := emits_bind.1 h
    obtain ⟨rfl, rfl⟩ := emits_pure.1 h
    obtain ⟨ss', rfl, hbody, hres, hout⟩ := compileBlock_writes ihs ihv hsc hfree hss hrun
    exact ⟨.block ss', rfl, .block hbody, hres, hout⟩
  | select v arms ihv ihb =>
    intro sc ns ns' t hsc hfree hbare h
    obtain ⟨hpats, hv, harms⟩ := Expr.everywhere_select.1 hbare
    rw [compileTerm] at h
    obtain ⟨tv, ns₁, hrunv, h⟩ := emits_bind.1 h
    obtain ⟨tmp, ns₂, htemp, h⟩ := emits_bind.1 h
    obtain ⟨body, ns₃, hrun, h⟩ := emits_bind.1 h
    obtain ⟨rfl, rfl⟩ := emits_pure.1 h
    obtain ⟨v', rfl, hwv, hresv, houtv⟩ :=
      ihv hsc (fun x hx => hfree x (List.mem_append_left _ hx)) hv hrunv
    obtain ⟨arms', rfl, hbody, hres, hout⟩ := compileArms_writes ihb hsc
      (fun x hx => hfree x (List.mem_append_right _ hx))
      (fun arm ha => hpats arm.1 (List.mem_map_of_mem ha)) harms hrun
    refine ⟨.select v' arms', rfl, .select hwv hbody, ⟨hresv, hres⟩, ?_⟩
    -- The value is computed first and written last.
    have hbinders : (Term.call (.function tmp (body ++ [.noCase])) tv).binders =
        ([tmp] ++ bodyBinders body) ++ tv.binders := by
      simp [Term.binders, bodyBinders, Stmt.binders]
    rw [hbinders]
    exact (houtv.append (htemp.temp_handsOut.append hout)).perm List.perm_append_comm
  | define k p a v _ =>
    intro sc ns ns' t _ _ _ h
    exact absurd h not_emits_throw
  | missing =>
    intro sc ns ns' t _ _ _ h
    exact absurd h not_emits_throw

/-! ## Programs -/

/-- The statements of a program: its definitions and its result. -/
def statements (defs : List Definition) (result : Option Expr) : List Expr :=
  defs.map Definition.expr ++ result.toList

/-- **What a program becomes in a scope**, as for expressions. -/
def RendersProgram (sc : Scope) (ns ns' : Names) (ss : List Expr) (prog : Program) : Prop :=
  ∃ ss', Expr.renameStmts source ss' = ss ∧ prog.Writes ss' ∧
    Expr.ResolvedStmts source (sc.map (·.2)) ss' ∧ Names.HandsOut ns ns' prog.binders

/-- The definitions are compiled, and then the result in the scope after them. -/
def compileAll (sc : Scope) (defs : List Definition) (result : Option Expr) : Emit Program := do
  let r ← compileDefinitions sc defs
  match result with
  | none => return ⟨r.1, none⟩
  | some e =>
    checkPlacement e
    return ⟨r.1, some (← compileTerm r.2 e)⟩

theorem compileAll_cons {d : Definition} {ds : List Definition} {result : Option Expr} {sc : Scope}
    {ns ns' : Names} {prog : Program} (h : Emits (compileAll sc (d :: ds) result) ns prog ns') :
    ∃ value line sc₁ rest ns₁ ns₂, Emits (compileTerm sc d.value) ns value ns₁ ∧
      Emits (compileBinding d.pat value sc) ns₁ (line, sc₁) ns₂ ∧
      Emits (compileAll sc₁ ds result) ns₂ rest ns' ∧ prog = ⟨line :: rest.lines, rest.result⟩ := by
  obtain ⟨⟨lines, sc₂⟩, ns₃, hdefs, hresult⟩ := emits_bind.1 h
  rw [compileDefinitions] at hdefs
  obtain ⟨_, _, hplace, hdefs⟩ := emits_bind.1 hdefs
  obtain ⟨-, rfl⟩ := emits_lift.1 hplace
  obtain ⟨value, ns₁, hvalue, hdefs⟩ := emits_bind.1 hdefs
  obtain ⟨⟨line, sc₁⟩, ns₂, hline, hdefs⟩ := emits_bind.1 hdefs
  obtain ⟨⟨more, sc₂'⟩, ns₃', hmore, hdefs⟩ := emits_bind.1 hdefs
  obtain ⟨heq, rfl⟩ := emits_pure.1 hdefs
  obtain ⟨rfl, rfl⟩ := Prod.mk.inj heq
  cases result with
  | none =>
    obtain ⟨rfl, rfl⟩ := emits_pure.1 hresult
    exact ⟨value, line, sc₁, ⟨more, none⟩, ns₁, ns₂, hvalue, hline,
      emits_bind.2 ⟨_, _, hmore, emits_pure.2 ⟨rfl, rfl⟩⟩, rfl⟩
  | some e =>
    obtain ⟨_, _, hplace, hresult⟩ := emits_bind.1 hresult
    obtain ⟨t, ns₄, hrun, hresult⟩ := emits_bind.1 hresult
    obtain ⟨rfl, rfl⟩ := emits_pure.1 hresult
    exact ⟨value, line, sc₁, ⟨more, some t⟩, ns₁, ns₂, hvalue, hline,
      emits_bind.2 ⟨_, _, hmore, emits_bind.2 ⟨_, _, hplace, emits_bind.2 ⟨_, _, hrun,
        emits_pure.2 ⟨rfl, rfl⟩⟩⟩⟩, rfl⟩

theorem compileAll_writes {defs : List Definition} {result : Option Expr} {sc : Scope}
    {ns ns' : Names} {prog : Program} (hsc : Sourced sc)
    (hfree : ∀ x ∈ Expr.freeStmts (statements defs result), x ∈ sc.map (·.1))
    (hbare : ∀ s ∈ statements defs result, s.Everywhere BindsBare)
    (h : Emits (compileAll sc defs result) ns prog ns') :
    RendersProgram sc ns ns' (statements defs result) prog := by
  induction defs generalizing sc ns prog with
  | nil =>
    obtain ⟨r, ns₁, hdefs, hresult⟩ := emits_bind.1 h
    obtain ⟨rfl, rfl⟩ := emits_pure.1 hdefs
    cases result with
    | none =>
      obtain ⟨rfl, rfl⟩ := emits_pure.1 hresult
      exact ⟨[], rfl, .nothing, trivial, .nil⟩
    | some e =>
      obtain ⟨_, _, hplace, hresult⟩ := emits_bind.1 hresult
      obtain ⟨-, rfl⟩ := emits_lift.1 hplace
      obtain ⟨t, ns₂, hrun, hresult⟩ := emits_bind.1 hresult
      obtain ⟨rfl, rfl⟩ := emits_pure.1 hresult
      have hdef : e.isDefinition = false := by
        cases e with
        | define => exact absurd hrun not_emits_throw
        | _ => rfl
      have hfree' : ∀ x ∈ e.free, x ∈ sc.map (·.1) := fun x hx =>
        hfree x (by simp [statements, Expr.freeStmts_stmt hdef, hx])
      obtain ⟨e', rfl, hwrites, hres, hout⟩ :=
        compileTerm_writes e hsc hfree' (hbare e (by simp [statements])) hrun
      rw [Expr.isDefinition_rename] at hdef
      exact ⟨[e'], rfl, .result hwrites, (Expr.resolvedStmts_stmt hdef []).2 ⟨hres, trivial⟩, hout⟩
  | cons d ds ih =>
    obtain ⟨value, line, sc₁, rest, ns₁, ns₂, hvalue, hline, hrest, rfl⟩ := compileAll_cons h
    have hstmts : statements (d :: ds) result = d.expr :: statements ds result := rfl
    rw [hstmts] at hfree hbare ⊢
    obtain ⟨hd, hds⟩ := List.forall_mem_cons.1 hbare
    obtain ⟨hpat, hv⟩ := Expr.everywhere_define.1 hd
    rw [Definition.expr, Expr.freeStmts_define] at hfree
    obtain ⟨v', hv', hwrites, hres, hout⟩ := compileTerm_writes d.value hsc
      (fun x hx => hfree x (List.mem_append_left _ hx)) hv hvalue
    obtain ⟨q, xs, hq, hbinding, hext, hout₁, hperm⟩ :=
      compileBinding_writes hline (hpat d.pat (by simp [Expr.patterns])) hsc
    have hscope : ∀ x ∈ Expr.freeStmts (statements ds result), x ∈ sc₁.map (·.1) := by
      intro x hx
      refine hext.mem ?_
      rw [hq]
      by_cases hxp : x ∈ d.pat.names
      · exact .inl hxp
      · exact .inr (hfree x (List.mem_append_right _ (by simp [hx, hxp])))
    obtain ⟨ss', hss', hprog, hres', hout₂⟩ := ih hext.sourced hscope hds hrest
    refine ⟨.define d.binder q d.ascription v' :: ss', ?_,
      .define d.binder d.ascription hwrites hbinding hprog, ⟨hres, by rwa [← hext.names]⟩, ?_⟩
    · rw [Expr.renameStmts, hss', Expr.rename, hq, hv', Definition.expr]
    · have hbinders : Program.binders ⟨line :: rest.lines, rest.result⟩ =
          bodyBinders line ++ rest.binders := by simp [Program.binders]
      rw [hbinders]
      exact ((hout.append hout₁).perm hperm).append hout₂

theorem emits_of_compileProgram {defs : List Definition} {result : Option Expr} {prog : Program}
    (h : compileProgram defs result = .ok prog) :
    ∃ ns, Emits (compileAll [] defs result) {} prog ns := by
  have hrun : compileProgram defs result =
      (compileAll [] defs result {} >>= fun r => pure r.1) := by
    cases result <;> rfl
  rw [hrun] at h
  rcases hall : compileAll [] defs result {} with e | ⟨p, ns⟩
  · rw [hall] at h
    cases h
  · rw [hall] at h
    obtain rfl : p = prog := Except.ok.inj h
    exact ⟨ns, hall⟩

end LetPoly.Script
