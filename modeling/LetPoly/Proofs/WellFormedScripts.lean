import LetPoly.Proofs.ScriptPhrases
import LetPoly.Proofs.Validity

/-! # When a compiled expression is well formed

Compiling gives proper terms: every name is an identifier, since names that are reserved are
changed and numbers are put behind a dollar sign, and every operator is one of the grammar.
So the text is an expression of the grammar exactly if no statement of it is a cell
(`Term.isExpression_iff`), and such a statement comes from a list cell that stands in a
block before its last statement (`compile_isExpression_iff`).
-/

namespace LetPoly

namespace Expr

/-- The names that stand in an expression itself, not in its parts. -/
def identifiers : Expr → List String
  | .ident x => [x]
  | e => e.patterns.flatMap Pat.names

/-- The operator of an expression itself. -/
def operator? : Expr → Option Op
  | .binary op _ _ => some op
  | _ => none

def isCons : Expr → Bool
  | .cons .. => true
  | _ => false

/-- The names of the expression are names of the language, and its operator is one of the
language. -/
def Lexable (e : Expr) : Prop := (∀ x ∈ e.identifiers, Token.Named x) ∧ e.operator? ≠ some .unknown

/-- No statement of the block is a list cell, the last one apart. -/
def LeadsNoCell (e : Expr) : Prop := ∀ s ∈ e.leading, s.isCons = false

/-- Where nothing leads, as outside of blocks, no cell does. -/
theorem leadsNoCell_of_leading {e : Expr} (h : e.leading = []) : e.LeadsNoCell := by
  simp [LeadsNoCell, h]

end Expr

namespace Script

/-! ## Names -/

theorem keywords_subset : ∀ x ∈ keywords, x ∈ reserved := by decide

theorem isName_of_named {x : String} (hx : Token.Named x) : isName x := by
  have hword := hx.1
  cases hcs : x.toList with
  | nil =>
    rw [hcs] at hword
    cases hword
  | cons c cs =>
    rw [hcs, Token.isWord, Bool.and_eq_true, List.all_eq_true] at hword
    refine isName_iff.2 ⟨c, cs, hcs, by simp [isNameStart, hword.1], fun d hd => ?_⟩
    have hpart := hword.2 d hd
    simp only [Token.isWordChar, Bool.or_eq_true] at hpart
    obtain hletter | hdigit := hpart
    · simp [isNamePart, isNameStart, hletter]
    · simp [isNamePart, hdigit]

theorem isName_append {x y : String} (hx : isName x) (hy : ∀ c ∈ y.toList, isNamePart c) :
    isName (x ++ y) := by
  obtain ⟨c, cs, hcs, hc, hrest⟩ := isName_iff.1 hx
  refine isName_iff.2 ⟨c, cs ++ y.toList, by simp [hcs], hc, fun d hd => ?_⟩
  exact (List.mem_append.1 hd).elim (hrest d) (hy d)

theorem isNamePart_dollar : ∀ c ∈ "$".toList, isNamePart c := by
  simp [isNamePart, isNameStart]

theorem isIdentifier_iff {x : String} : isIdentifier x ↔ isName x ∧ x ∉ keywords := by
  simp [isIdentifier]

/-- No reserved word has a dollar sign. -/
theorem isIdentifier_of_dollar {x : String} (hx : isName x) (hdollar : '$' ∈ x.toList) :
    isIdentifier x := by
  have hkeywords : ∀ w ∈ keywords, '$' ∉ w.toList := by decide
  exact isIdentifier_iff.2 ⟨hx, fun hmem => hkeywords x hmem hdollar⟩

theorem isIdentifier_mangle {x : String} (hx : Token.Named x) : isIdentifier (mangle x) := by
  have hname := isName_of_named hx
  rw [mangle]
  split
  · exact isIdentifier_of_dollar (isName_append hname isNamePart_dollar) (by simp)
  · next hreserved =>
    exact isIdentifier_iff.2 ⟨hname, fun hmem => hreserved (keywords_subset x hmem)⟩

theorem isNamePart_natural (n : Nat) : ∀ c ∈ (Text.Decimal.natural n).toList, isNamePart c := by
  intro c hc
  rw [Text.Decimal.natural, String.toList_ofList] at hc
  have hdigit : Text.Decimal.isDigit c := Nat.isDigit_of_mem_toDigits (by decide) (by decide) hc
  simp [isNamePart, hdigit]

theorem isIdentifier_numbered {x : String} (hx : Token.Named x) (n : Nat) :
    isIdentifier (Names.numbered x n) := by
  have hmangled := isIdentifier_mangle hx
  rw [Names.numbered]
  split
  · exact hmangled
  · have hdollar : isName (mangle x ++ "$") :=
      isName_append (isName_of_isIdentifier hmangled) isNamePart_dollar
    exact isIdentifier_of_dollar (isName_append hdollar (isNamePart_natural n)) (by simp)

theorem isIdentifier_temp (n : Nat) : isIdentifier ("$" ++ Text.Decimal.natural n) :=
  isIdentifier_of_dollar (isName_append (by decide) (isNamePart_natural n)) (by simp)

/-- The script names of a scope are identifiers. -/
def Scope.Proper (sc : Scope) : Prop := ∀ p ∈ sc, isIdentifier p.2

theorem Scope.Proper.cons {sc : Scope} (hsc : sc.Proper) (x : String) {js : String}
    (hjs : isIdentifier js) : Scope.Proper ((x, js) :: sc) :=
  List.forall_mem_cons.2 ⟨hjs, hsc⟩

theorem Scope.Proper.resolve {sc : Scope} (hsc : sc.Proper) {x : String} (hx : Token.Named x) :
    isIdentifier (sc.resolve x) := by
  rw [Scope.resolve]
  cases hlookup : sc.lookup x with
  | none => exact isIdentifier_mangle hx
  | some js =>
    obtain ⟨before, after, rfl, -⟩ := List.lookup_eq_some_iff.1 hlookup
    exact hsc (x, js) (by simp)

/-! ## What computations give -/

/-- Whatever the computation gives has the property. -/
def Yields {α : Type} (m : Emit α) (P : α → Prop) : Prop :=
  ∀ ⦃ns : Names⦄ ⦃a : α⦄ ⦃ns' : Names⦄, Emits m ns a ns' → P a

section
variable {α β : Type} {P : α → Prop} {R : β → Prop}

theorem yields_pure {a : α} (h : P a) : Yields (pure a) P := by
  intro ns b ns' hb
  obtain ⟨rfl, -⟩ := emits_pure.1 hb
  exact h

theorem yields_throw (e : CompileError) : Yields (throw e) P :=
  fun _ _ _ h => absurd h not_emits_throw

theorem Yields.bind {m : Emit α} {k : α → Emit β} (hm : Yields m P)
    (hk : ∀ a, P a → Yields (k a) R) : Yields (m >>= k) R := by
  intro ns b ns' h
  obtain ⟨a, ns₁, ha, hb⟩ := emits_bind.1 h
  exact hk a (hm ha) hb

end

theorem yields_fresh {x : String} (hx : Token.Named x) : Yields (fresh x) (isIdentifier ·) := by
  intro ns js ns' h
  have hfresh := isIdentifier_numbered hx (ns.count x)
  obtain rfl : (ns.fresh x).1 = js := by rw [emits_fresh.1 h]
  exact hfresh

theorem yields_temp : Yields temp (isIdentifier ·) := by
  intro ns js ns' h
  obtain rfl : ns.temp.1 = js := by rw [emits_temp.1 h]
  exact isIdentifier_temp ns.temps

/-! ## Patterns and definitions -/

theorem properBody_iff {ss : List Stmt} : ProperBody ss ↔ ∀ s ∈ ss, s.Proper := by
  induction ss with
  | nil => simp [ProperBody]
  | cons s ss ih => simp [ProperBody, ih]

theorem unbracedBody_iff {ss : List Stmt} : UnbracedBody ss ↔ ∀ s ∈ ss, s.Unbraced := by
  induction ss with
  | nil => simp [UnbracedBody]
  | cons s ss ih => simp [UnbracedBody, ih]

/-- The statements are proper, and that none of them is or has a cell for a statement is what
the proposition says. -/
structure FitsBody (P : Prop) (ss : List Stmt) : Prop where
  proper : ProperBody ss
  unbraced : UnbracedBody ss ↔ P

theorem FitsBody.append {P Q : Prop} {ss more : List Stmt} (h : FitsBody P ss)
    (hmore : FitsBody Q more) : FitsBody (P ∧ Q) (ss ++ more) := by
  obtain ⟨hproper, hunbraced⟩ := h
  obtain ⟨hproper', hunbraced'⟩ := hmore
  rw [properBody_iff] at hproper hproper'
  refine ⟨properBody_iff.2 (List.forall_mem_append.2 ⟨hproper, hproper'⟩), ?_⟩
  rw [← hunbraced, ← hunbraced', unbracedBody_iff, unbracedBody_iff, unbracedBody_iff]
  exact List.forall_mem_append

theorem FitsBody.cons {P Q : Prop} (s : Stmt) {ss : List Stmt} (hs : s.Proper)
    (hunbraced : s.Unbraced ↔ P) (h : FitsBody Q ss) : FitsBody (P ∧ Q) (s :: ss) :=
  ⟨⟨hs, h.proper⟩, and_congr hunbraced h.unbraced⟩

theorem FitsBody.single {P : Prop} (s : Stmt) (hs : s.Proper) (hunbraced : s.Unbraced ↔ P) :
    FitsBody P [s] :=
  ⟨⟨hs, trivial⟩, (and_iff_left trivial).trans hunbraced⟩

theorem FitsBody.congr {P Q : Prop} {ss : List Stmt} (h : FitsBody P ss) (heq : P ↔ Q) :
    FitsBody Q ss :=
  ⟨h.proper, h.unbraced.trans heq⟩

/-- What a pattern becomes is proper, and has no expression for a statement. -/
structure Matched.Proper (m : Matched) : Prop where
  tests : ∀ test ∈ m.tests, isIdentifier test.path.root
  parts : FitsBody True m.parts
  scope : m.scope.Proper

theorem compilePattern_yields {p : Pat} (hp : ∀ x ∈ p.names, Token.Named x) (path : Path)
    (hpath : isIdentifier path.root) {sc : Scope} (hsc : sc.Proper) :
    Yields (compilePattern path sc p) Matched.Proper := by
  have hnothing : FitsBody True [] := ⟨trivial, Iff.rfl⟩
  induction p generalizing path sc with
  | ident x =>
    refine (yields_fresh (hp x (by simp [Pat.names]))).bind fun js hjs => yields_pure ?_
    exact ⟨by simp, .single (.part js path) ⟨hjs, hpath⟩ Iff.rfl, hsc.cons x hjs⟩
  | cons p q ihp ihq =>
    rw [compilePattern]
    have hhead : ∀ x ∈ p.names, Token.Named x := fun x hx => hp x (by simp [Pat.names, hx])
    have htail : ∀ x ∈ q.names, Token.Named x := fun x hx => hp x (by simp [Pat.names, hx])
    refine (ihp hhead path.head hpath hsc).bind fun hm hhm => ?_
    refine (ihq htail path.tail hpath hhm.scope).bind fun tm htm => ?_
    refine yields_pure ⟨?_, (hhm.parts.append htm.parts).congr and_self_iff, htm.scope⟩
    exact List.forall_mem_cons.2 ⟨hpath, List.forall_mem_append.2 ⟨hhm.tests, htm.tests⟩⟩
  | number | string | boolean | nil =>
    exact yields_pure ⟨by simpa [Test.path] using hpath, hnothing, hsc⟩
  | unit | wildcard | missing => exact yields_pure ⟨by simp, hnothing, hsc⟩

theorem Matched.Proper.statements {m : Matched} (hm : m.Proper) :
    FitsBody True (guards m.tests ++ m.parts) := by
  have hguards : FitsBody True (guards m.tests) := by
    rw [guards]
    split
    · exact ⟨trivial, Iff.rfl⟩
    · next hne => exact .single (.guard m.tests) ⟨by simpa using hne, hm.tests⟩ Iff.rfl
  exact (hguards.append hm.parts).congr and_self_iff

theorem compileBinding_yields {p : Pat} (hp : ∀ x ∈ p.names, Token.Named x) {value : Term}
    (hvalue : value.Proper) {sc : Scope} (hsc : sc.Proper) :
    Yields (compileBinding p value sc) fun r => FitsBody value.Unbraced r.1 ∧ r.2.Proper := by
  unfold compileBinding
  split
  · next x =>
    refine (yields_fresh (hp x (by simp [Pat.names]))).bind fun js hjs => yields_pure ?_
    exact ⟨.single (.const js value) ⟨hjs, hvalue⟩ Iff.rfl, hsc.cons x hjs⟩
  · refine yields_temp.bind fun tmp htmp => ?_
    refine (compilePattern_yields hp (.name tmp) htmp hsc).bind fun m hm => yields_pure ?_
    have hline := FitsBody.cons (.const tmp value) ⟨htmp, hvalue⟩ Iff.rfl hm.statements
    exact ⟨hline.congr (and_iff_left trivial), hm.scope⟩

/-! ## Expressions -/

/-- The term is proper, it is a cell if the expression is one, and no statement of it is a cell
just if no leading statement of the expression is one. -/
structure Fits (e : Expr) (t : Term) : Prop where
  proper : t.Proper
  isCell : t.isCell = e.isCons
  unbraced : t.Unbraced ↔ e.Everywhere Expr.LeadsNoCell

/-- **The terms that the expression is compiled to fit it.** -/
def Fitted (e : Expr) : Prop :=
  e.Everywhere Expr.Lexable → ∀ ⦃sc : Scope⦄, sc.Proper → Yields (compileTerm sc e) (Fits e)

theorem operation_fits {op : Op} (hop : op ≠ .unknown) {l r : Term} (hl : l.Proper)
    (hr : r.Proper) : (operation op l r).Proper ∧ (operation op l r).isCell = false ∧
      ((operation op l r).Unbraced ↔ l.Unbraced ∧ r.Unbraced) := by
  have hsign {sign : String} (n : Nat) (h : sign ∈ operators (n + 3)) :
      (Term.operation sign l r).Proper := ⟨⟨n, h⟩, hl, hr⟩
  cases op with
  | divide => exact ⟨⟨hl, hr⟩, rfl, Iff.rfl⟩
  | times => exact ⟨hsign 0 (by decide), rfl, Iff.rfl⟩
  | plus | minus => exact ⟨hsign 1 (by decide), rfl, Iff.rfl⟩
  | less | lessEq | greater | greaterEq => exact ⟨hsign 2 (by decide), rfl, Iff.rfl⟩
  | equal | notEqual => exact ⟨hsign 3 (by decide), rfl, Iff.rfl⟩
  | and => exact ⟨hsign 4 (by decide), rfl, Iff.rfl⟩
  | or => exact ⟨hsign 5 (by decide), rfl, Iff.rfl⟩
  | unknown => exact absurd rfl hop

theorem everywhere_leadsNoCell_single {e : Expr} :
    (Expr.block [e]).Everywhere Expr.LeadsNoCell ↔ e.Everywhere Expr.LeadsNoCell := by
  simp [Expr.everywhere_block, Expr.LeadsNoCell, Expr.leading]

theorem everywhere_leadsNoCell_cons {e s : Expr} {ss : List Expr} :
    (Expr.block (e :: s :: ss)).Everywhere Expr.LeadsNoCell ↔
      (e.isCons = false ∧ e.Everywhere Expr.LeadsNoCell) ∧
        (Expr.block (s :: ss)).Everywhere Expr.LeadsNoCell := by
  rw [Expr.everywhere_block, Expr.everywhere_block, List.forall_mem_cons, Expr.LeadsNoCell,
    Expr.leading, List.dropLast_cons_cons, List.forall_mem_cons, Expr.LeadsNoCell, Expr.leading]
  exact and_and_and_comm

theorem compileBlock_yields {ss : List Expr} (hstmts : ∀ s ∈ ss, Fitted s)
    (hvalues : ∀ k p a v, .define k p a v ∈ ss → Fitted v)
    (hlex : ∀ s ∈ ss, s.Everywhere Expr.Lexable) {sc : Scope} (hsc : sc.Proper) :
    Yields (compileBlock sc ss) (FitsBody ((Expr.block ss).Everywhere Expr.LeadsNoCell)) := by
  -- each definition makes the scope of the statements after it, the last one is returned
  induction ss generalizing sc with
  | nil => exact yields_throw _
  | cons e ss ih =>
    obtain ⟨he, hrest⟩ := List.forall_mem_cons.1 hlex
    cases ss with
    | nil =>
      rw [compileBlock]
      refine (hstmts e (by simp) he hsc).bind fun t ht => yields_pure ?_
      exact .single (.return t) ht.proper (ht.unbraced.trans everywhere_leadsNoCell_single.symm)
    | cons s ss =>
      have hmore {sc : Scope} (hsc : sc.Proper) := ih
        (fun s hs => hstmts s (List.mem_cons_of_mem _ hs))
        (fun k p a v hs => hvalues k p a v (List.mem_cons_of_mem _ hs)) hrest hsc
      cases hdef : e.isDefinition with
      | true =>
        obtain ⟨k, p, a, v, rfl⟩ := Expr.isDefinition_iff.1 hdef
        obtain ⟨hpat, hv⟩ := Expr.everywhere_define.1 he
        have hnames : ∀ x ∈ p.names, Token.Named x := fun x hx =>
          hpat.1 x (by simpa [Expr.identifiers, Expr.patterns] using hx)
        rw [compileBlock_define]
        refine (hvalues k p a v (by simp) hv hsc).bind fun t ht => ?_
        refine (compileBinding_yields hnames ht.proper hsc).bind fun r hr => ?_
        refine (hmore hr.2).bind fun more hfits => yields_pure ?_
        refine (hr.1.append hfits).congr ?_
        rw [everywhere_leadsNoCell_cons, Expr.everywhere_define, ht.unbraced]
        have hdefine := Expr.leadsNoCell_of_leading (e := .define k p a v) rfl
        simp [Expr.isCons, hdefine]
      | false =>
        rw [compileBlock_stmt sc hdef]
        refine (hstmts e (by simp) he hsc).bind fun t ht => ?_
        refine (hmore hsc).bind fun more hfits => yields_pure ?_
        have hunbraced : (Stmt.expression t).Unbraced ↔
            e.isCons = false ∧ e.Everywhere Expr.LeadsNoCell := by
          rw [Stmt.Unbraced, ht.isCell, ht.unbraced]
        exact (FitsBody.cons (.expression t) ht.proper hunbraced hfits).congr
          everywhere_leadsNoCell_cons.symm

theorem compileArms_yields {arms : List (Pat × Expr)} (harms : ∀ arm ∈ arms, Fitted arm.2)
    (hnames : ∀ arm ∈ arms, ∀ x ∈ arm.1.names, Token.Named x)
    (hlex : ∀ arm ∈ arms, arm.2.Everywhere Expr.Lexable) (path : Path)
    (hpath : isIdentifier path.root) {sc : Scope} (hsc : sc.Proper) :
    Yields (compileArms path sc arms)
      (FitsBody (∀ arm ∈ arms, arm.2.Everywhere Expr.LeadsNoCell)) := by
  induction arms with
  | nil => exact yields_pure ⟨trivial, by simp [UnbracedBody]⟩
  | cons arm arms ih =>
    obtain ⟨p, b⟩ := arm
    obtain ⟨hb, harms⟩ := List.forall_mem_cons.1 harms
    obtain ⟨hp, hnames⟩ := List.forall_mem_cons.1 hnames
    obtain ⟨hlexb, hlex⟩ := List.forall_mem_cons.1 hlex
    rw [compileArms]
    refine (compilePattern_yields hp path hpath hsc).bind fun m hm => ?_
    refine (hb hlexb hm.scope).bind fun t ht => ?_
    refine (ih harms hnames hlex).bind fun more hmore => yields_pure ?_
    have hbody : FitsBody (b.Everywhere Expr.LeadsNoCell) (m.parts ++ [.return t]) :=
      (hm.parts.append (.single (.return t) ht.proper ht.unbraced)).congr (and_iff_right trivial)
    exact (FitsBody.cons (.arm m.tests _) ⟨hm.tests, hbody.proper⟩ hbody.unbraced hmore).congr
      (by simp)

/-- A function is compiled in one of three ways, by its pattern. -/
theorem lambda_fitted (p : Pat) (a : Option Ty) {b : Expr} (hb : Fitted b) :
    Fitted (.lambda p a b) := by
  intro hlex sc hsc
  obtain ⟨hpat, hlexb⟩ := Expr.everywhere_lambda.1 hlex
  have hnames : ∀ x ∈ p.names, Token.Named x := fun x hx =>
    hpat.1 x (by simpa [Expr.identifiers, Expr.patterns] using hx)
  have hiff : (Expr.lambda p a b).Everywhere Expr.LeadsNoCell ↔ b.Everywhere Expr.LeadsNoCell :=
    Expr.everywhere_lambda.trans (and_iff_right (Expr.leadsNoCell_of_leading rfl))
  unfold compileTerm
  split <;> cases ‹Expr.lambda p a b = _›
  · refine (yields_fresh (hnames _ (by simp [Pat.names]))).bind fun js hjs => ?_
    refine (hb hlexb (hsc.cons _ hjs)).bind fun t ht => yields_pure ?_
    exact ⟨⟨hjs, ht.proper⟩, rfl, ht.unbraced.trans hiff.symm⟩
  · refine (hb hlexb hsc).bind fun t ht => yields_temp.bind fun tmp htmp => yields_pure ?_
    exact ⟨⟨htmp, ht.proper⟩, rfl, ht.unbraced.trans hiff.symm⟩
  · refine yields_temp.bind fun tmp htmp => ?_
    refine (compilePattern_yields hnames (.name tmp) htmp hsc).bind fun m hm => ?_
    refine (hb hlexb hm.scope).bind fun t ht => yields_pure ?_
    have hbody := (hm.statements.append (.single (.return t) ht.proper ht.unbraced)).congr
      (and_iff_right trivial)
    exact ⟨⟨htmp, hbody.proper⟩, rfl, hbody.unbraced.trans hiff.symm⟩

/-- **Every expression is compiled to terms that fit it.** -/
theorem compileTerm_fitted (e : Expr) : Fitted e := by
  have everywhere_leaf {e : Expr} (hwalk : e.walk = [e]) (hleading : e.leading = []) :
      e.Everywhere Expr.LeadsNoCell :=
    (Expr.everywhere_of_walk hwalk).2 ⟨Expr.leadsNoCell_of_leading hleading, by simp⟩
  -- outside of blocks nothing leads, so both sides are about the parts alone
  induction e using Expr.induction with
  | number | string | boolean | unit | nil =>
    intro _ sc _
    exact yields_pure ⟨trivial, rfl, iff_of_true trivial (everywhere_leaf rfl rfl)⟩
  | ident x =>
    intro hlex sc hsc
    have hx := (hlex (.ident x) (by simp [Expr.walk])).1 x (by simp [Expr.identifiers])
    exact yields_pure ⟨hsc.resolve hx, rfl, iff_of_true trivial (everywhere_leaf rfl rfl)⟩
  | binary op l r ihl ihr =>
    intro hlex sc hsc
    obtain ⟨hop, hlexl, hlexr⟩ := Expr.everywhere_binary.1 hlex
    rw [compileTerm]
    refine (ihl hlexl hsc).bind fun l' hl => (ihr hlexr hsc).bind fun r' hr => yields_pure ?_
    obtain ⟨hproper, hcell, hunbraced⟩ :=
      operation_fits (fun h => hop.2 (congrArg some h)) hl.proper hr.proper
    refine ⟨hproper, hcell, ?_⟩
    rw [hunbraced, hl.unbraced, hr.unbraced, Expr.everywhere_binary]
    exact (and_iff_right (Expr.leadsNoCell_of_leading rfl)).symm
  | cons h t ihh iht =>
    intro hlex sc hsc
    obtain ⟨-, hlexh, hlext⟩ := Expr.everywhere_cons.1 hlex
    rw [compileTerm]
    refine (ihh hlexh hsc).bind fun h' hh => (iht hlext hsc).bind fun t' ht => yields_pure ?_
    refine ⟨⟨hh.proper, ht.proper⟩, rfl, ?_⟩
    rw [Term.Unbraced, hh.unbraced, ht.unbraced, Expr.everywhere_cons]
    exact (and_iff_right (Expr.leadsNoCell_of_leading rfl)).symm
  | cond c y n ihc ihy ihn =>
    intro hlex sc hsc
    obtain ⟨-, hlexc, hlexy, hlexn⟩ := Expr.everywhere_cond.1 hlex
    rw [compileTerm]
    refine (ihc hlexc hsc).bind fun c' hc => (ihy hlexy hsc).bind fun y' hy =>
      (ihn hlexn hsc).bind fun n' hn => yields_pure ?_
    refine ⟨⟨hc.proper, hy.proper, hn.proper⟩, rfl, ?_⟩
    rw [Term.Unbraced, hc.unbraced, hy.unbraced, hn.unbraced, Expr.everywhere_cond]
    exact (and_iff_right (Expr.leadsNoCell_of_leading rfl)).symm
  | lambda p a b ih => exact lambda_fitted p a ih
  | app f a ihf iha =>
    intro hlex sc hsc
    obtain ⟨-, hlexf, hlexa⟩ := Expr.everywhere_app.1 hlex
    rw [compileTerm]
    refine (ihf hlexf hsc).bind fun f' hf => (iha hlexa hsc).bind fun a' ha => yields_pure ?_
    refine ⟨⟨hf.proper, ha.proper⟩, rfl, ?_⟩
    rw [Term.Unbraced, hf.unbraced, ha.unbraced, Expr.everywhere_app]
    exact (and_iff_right (Expr.leadsNoCell_of_leading rfl)).symm
  | block ss hstmts hvalues =>
    intro hlex sc hsc
    rw [compileTerm]
    refine (compileBlock_yields hstmts hvalues (Expr.everywhere_block.1 hlex).2 hsc).bind
      fun body hbody => yields_pure ?_
    exact ⟨hbody.proper, rfl, hbody.unbraced⟩
  | select v arms ihv iharms =>
    intro hlex sc hsc
    obtain ⟨hpat, hlexv, hlexarms⟩ := Expr.everywhere_select.1 hlex
    have hnames : ∀ arm ∈ arms, ∀ x ∈ arm.1.names, Token.Named x := fun arm harm x hx =>
      hpat.1 x (List.mem_flatMap.2 ⟨arm.1, List.mem_map_of_mem harm, hx⟩)
    rw [compileTerm]
    refine (ihv hlexv hsc).bind fun v' hv => yields_temp.bind fun tmp htmp => ?_
    refine (compileArms_yields iharms hnames hlexarms (.name tmp) htmp hsc).bind fun ss hss =>
      yields_pure ?_
    have hbody := (hss.append (.single .noCase trivial Iff.rfl)).congr
      (and_iff_left trivial)
    refine ⟨⟨⟨htmp, hbody.proper⟩, hv.proper⟩, rfl, ?_⟩
    rw [Term.Unbraced, Term.Unbraced, hbody.unbraced, hv.unbraced, Expr.everywhere_select, and_comm]
    exact (and_iff_right (Expr.leadsNoCell_of_leading rfl)).symm
  | define k p a v _ => exact fun _ _ _ => yields_throw _
  | missing => exact fun _ _ _ => yields_throw _

/-- **When a compiled expression is well formed.**  Let the names of an expression that is
compiled be names of the language, and its operators those of the language.  Then the text is
one expression of the grammar exactly if no block has a list cell for a statement, its last
one apart. -/
theorem compile_isExpression_iff (e : Expr) (t : Term) (hcompile : compile e = .ok t)
    (hlex : e.Everywhere Expr.Lexable) :
    IsExpression t.text ↔ e.Everywhere Expr.LeadsNoCell := by
  obtain ⟨-, ns, hrun⟩ := compile_eq_ok.1 hcompile
  have hscope : Scope.Proper [] := by simp [Scope.Proper]
  have hfits := compileTerm_fitted e hlex hscope hrun
  exact (Term.isExpression_iff hfits.proper).trans hfits.unbraced

/-- A reserved name, and a cell that is the result of a block. -/
theorem compile_isExpression_block :
    let e : Expr := .block [
      .define .val (.ident "new") none (.binary .plus (.number 1) (.number 2)),
      .app (.ident "f") (.ident "new"), .cons (.ident "new") .nil]
    let t : Term := .run [.const "new$" (.operation "+" (.number 1) (.number 2)),
      .expression (.call (.name "f") (.name "new$")), .return (.cell (.name "new$") .null)]
    compile e = .ok t ∧ IsExpression t.text := by
  intro e t
  have hcompile : compile e = .ok t := by
    cbv
  have hnew : Token.Named "new" := ⟨by decide, by decide⟩
  have hf : Token.Named "f" := ⟨by decide, by decide⟩
  refine ⟨hcompile, (compile_isExpression_iff e t hcompile ?_).2 ?_⟩
  · simp [e, Expr.Everywhere, Expr.walk, Expr.walkStmts, Expr.Lexable, Expr.identifiers,
      Expr.patterns, Expr.operator?, Pat.names, hnew, hf]
  · simp [e, Expr.Everywhere, Expr.walk, Expr.walkStmts, Expr.LeadsNoCell, Expr.leading,
      Expr.isCons]

/-- A list cell before the last statement of a block opens a block of its own. -/
theorem cell_statement_not_expression :
    let e : Expr := .block [.cons (.number 1) .nil, .number 2]
    let t : Term := .run [.expression (.cell (.number 1) .null), .return (.number 2)]
    compile e = .ok t ∧
      t.text = "(() => \x7b \x7b head: 1, tail: null \x7d; return 2; \x7d)()" ∧
      ¬IsExpression t.text := by
  intro e t
  have hproper : t.Proper := ⟨⟨trivial, trivial⟩, trivial, trivial⟩
  refine ⟨by cbv, by cbv, fun h => ?_⟩
  have hcell := ((Term.isExpression_iff hproper).1 h).1.1
  cases hcell

end Script

end LetPoly
