import LetPoly.Proofs.ScriptWords

/-! # Which terms the grammar derives

The words of a proper term are derived as an expression exactly if no statement in it is a
cell (`Term.isExpression_iff`): the text of such a statement would start with a brace.

That all other terms are derived follows the terms (`Term.phrase`).  For the converse the
words are read by an automaton that watches braces (`Spot.run`).  A brace behind another
one or behind a semicolon opens a block, and then the second word of the block is not a
colon: every phrase passes (`Phrase.passes`), and a term with a cell for a statement does
not, in whatever state the automaton meets it (`Term.jams`).
-/

namespace LetPoly.Script

mutual
/-- **No statement of the term is a cell.** -/
def Term.Unbraced : Term → Prop
  | .number _ | .string _ | .boolean _ | .undefined | .null | .name _ => True
  | .quotient l r | .operation _ l r | .cell l r | .call l r => l.Unbraced ∧ r.Unbraced
  | .choice c y n => c.Unbraced ∧ y.Unbraced ∧ n.Unbraced
  | .arrow _ b => b.Unbraced
  | .function _ b | .run b => UnbracedBody b

def Stmt.Unbraced : Stmt → Prop
  | .expression t => t.isCell = false ∧ t.Unbraced
  | .const _ t | .return t => t.Unbraced
  | .arm _ b => UnbracedBody b
  | .part .. | .guard _ | .noCase => True

def UnbracedBody : List Stmt → Prop
  | [] => True
  | s :: ss => s.Unbraced ∧ UnbracedBody ss
end

/-! ## Terms without such statements -/

theorem Phrase.mono {m n : Nat} {ws : List String} (h : Phrase (.expr m) ws) (hmn : m ≤ n)
    (hn : n ≤ 9) : Phrase (.expr n) ws := by
  induction n, hmn using Nat.le_induction with
  | base => exact h
  | succ n _ ih => exact .loosen (by omega) (ih (by omega))

theorem Phrase.whole {n : Nat} {ws : List String} (h : Phrase (.expr n) ws) (hn : n ≤ 9) :
    Phrase (.expr 9) ws := h.mono hn (Nat.le_refl 9)

theorem Phrase.paren {n : Nat} {ws : List String} (h : Phrase (.expr n) ws) (hn : n ≤ 9) :
    Phrase (.expr 0) (paren ws) := .group (h.whole hn)

theorem Path.phrase {p : Path} (hp : isIdentifier p.root) : Phrase (.expr 0) p.words := by
  induction p with
  | name x => exact .name hp
  | head p ih => exact .part (by decide) (ih hp) (by decide)
  | tail p ih => exact .part (by decide) (ih hp) (by decide)

theorem phrase_numeralWords (n : Int64) : Phrase (.expr 2) (numeralWords n) := by
  have hnumeral : Phrase (.expr 0) [Text.Decimal.natural n.toInt.natAbs] :=
    .numeral (isNumeral_natural _)
  rw [numeralWords]
  split
  · exact .unary (by decide) (hnumeral.mono (by decide) (by decide))
  · exact hnumeral.mono (by decide) (by decide)

theorem phrase_truthText (b : Bool) : Phrase (.expr 0) [truthText b] := by
  cases b <;> exact .constant (by decide)

theorem phrase_escaped (s : String) : Phrase (.expr 0) [Text.escaped s] :=
  .literal (isLiteral_escaped s)

theorem Literal.phrase (v : Literal) : Phrase (.expr 2) v.words := by
  cases v with
  | number n => exact phrase_numeralWords n
  | string s => exact (phrase_escaped s).mono (by decide) (by decide)
  | boolean b => exact (phrase_truthText b).mono (by decide) (by decide)
  | null => exact (Phrase.constant (w := "null") (by decide)).mono (by decide) (by decide)

theorem Test.phrase {test : Test} (h : isIdentifier test.path.root) :
    Phrase (.expr 6) test.words := by
  cases test with
  | equals p v =>
    exact .binary (by decide) ((p.phrase h).mono (by decide) (by decide))
      (v.phrase.mono (by decide) (by decide))
  | isCell p =>
    have hnull : Phrase (.expr 0) ["null"] := .constant (by decide)
    exact .binary (by decide) ((p.phrase h).mono (by decide) (by decide))
      (hnull.mono (by decide) (by decide))

/-- Conjunctions are grouped from the left, so the conditions are put behind what has been
derived so far. -/
theorem phrase_conjunction {tests : List Test} (hne : tests ≠ [])
    (h : ∀ test ∈ tests, isIdentifier test.path.root) {ws : List String}
    (hws : Phrase (.expr 7) ws) : Phrase (.expr 7) (ws ++ "&&" :: allWords tests) := by
  induction tests generalizing ws with
  | nil => exact absurd rfl hne
  | cons test tests ih =>
    obtain ⟨hfirst, hrest⟩ := List.forall_mem_cons.1 h
    have hnext : Phrase (.expr 7) (ws ++ "&&" :: test.words) :=
      .binary (by decide) hws (Test.phrase hfirst)
    cases tests with
    | nil => exact hnext
    | cons test' tests =>
      have hall := ih (by simp) hrest hnext
      rwa [List.append_assoc] at hall

theorem phrase_allWords {tests : List Test} (hne : tests ≠ [])
    (h : ∀ test ∈ tests, isIdentifier test.path.root) : Phrase (.expr 7) (allWords tests) := by
  cases tests with
  | nil => exact absurd rfl hne
  | cons test tests =>
    obtain ⟨hfirst, hrest⟩ := List.forall_mem_cons.1 h
    have htest : Phrase (.expr 7) test.words := (Test.phrase hfirst).mono (by decide) (by decide)
    cases tests with
    | nil => exact htest
    | cons test' tests => exact phrase_conjunction (by simp) hrest htest

theorem phrase_failureWords (message : String) :
    Phrase .statement (failureWords message) := by
  have hnew : Phrase (.expr 0) ("new" :: ["Error"] ++ ("(" :: [Text.escaped message] ++ [")"])) :=
    .new (.name (by decide)) (.argument ((phrase_escaped message).whole (by decide)))
  exact .throw (hnew.whole (by decide))

theorem Phrase.argumentOf {n : Nat} {ws : List String} (h : Phrase (.expr n) ws) (hn : n ≤ 9) :
    Phrase .arguments (Script.paren ws) := .argument (h.whole hn)

/-- An operator of a level joins operands that are put together more tightly. -/
theorem Phrase.operation {n : Nat} {sign : String} {ws vs : List String}
    (hsign : sign ∈ operators (n + 3)) (hl : Phrase (.expr 1) ws) (hr : Phrase (.expr 1) vs) :
    Phrase (.expr 9) (ws ++ sign :: vs) := by
  have hn : n + 3 ≤ 8 := by
    by_contra hlt
    obtain ⟨m, rfl⟩ : ∃ m, n = m + 6 := ⟨n - 6, by omega⟩
    cases hsign
  have hoperation : Phrase (.expr (n + 3)) (ws ++ sign :: vs) :=
    .binary hsign (hl.mono (by omega) (by omega)) (hr.mono (by omega) (by omega))
  exact hoperation.whole (by omega)

mutual
/-- **A proper term without a cell for a statement is derived**, at the level of calls. -/
theorem Term.phrase (t : Term) (ht : t.Proper) (hu : t.Unbraced) : Phrase (.expr 1) t.words := by
  match t, ht, hu with
  | .number n, _, _ =>
    rw [Term.words]
    split
    · exact ((phrase_numeralWords n).paren (by decide)).mono (by decide) (by decide)
    · next hn =>
      rw [numeralWords, if_neg hn]
      exact (Phrase.numeral (isNumeral_natural _)).mono (by decide) (by decide)
  | .string s, _, _ => exact (phrase_escaped s).mono (by decide) (by decide)
  | .boolean b, _, _ => exact (phrase_truthText b).mono (by decide) (by decide)
  | .undefined, _, _ =>
    exact (Phrase.name (x := "undefined") (by decide)).mono (by decide) (by decide)
  | .null, _, _ =>
    exact (Phrase.constant (w := "null") (by decide)).mono (by decide) (by decide)
  | .name x, hx, _ =>
    rw [Term.Proper] at hx
    exact (Phrase.name hx).mono (by decide) (by decide)
  | .quotient l r, h, hu =>
    rw [Term.Proper] at h
    rw [Term.Unbraced] at hu
    have htrunc : Phrase (.expr 0) (["Math"] ++ [".", "trunc"]) :=
      .part (by decide) (.name (by decide)) (by decide)
    have hquotient : Phrase (.expr 9) (l.words ++ "/" :: r.words) :=
      .operation (n := 0) (by decide) (l.phrase h.1 hu.1) (r.phrase h.2 hu.2)
    exact .call (htrunc.mono (by decide) (by decide)) (hquotient.argumentOf (by decide))
  | .operation sign l r, h, hu =>
    rw [Term.Proper] at h
    rw [Term.Unbraced] at hu
    obtain ⟨⟨n, hsign⟩, hl, hr⟩ := h
    have hoperation := Phrase.operation hsign (l.phrase hl hu.1) (r.phrase hr hu.2)
    exact (hoperation.paren (by decide)).mono (by decide) (by decide)
  | .cell h t, hproper, hu =>
    rw [Term.Proper] at hproper
    rw [Term.Unbraced] at hu
    have hhead := (h.phrase hproper.1 hu.1).whole (by decide)
    have htail := (t.phrase hproper.2 hu.2).whole (by decide)
    have hobject := Phrase.object
      (.properties (x := "head") (by decide) hhead (.property (x := "tail") (by decide) htail))
    exact hobject.mono (by decide) (by decide)
  | .choice c y n, h, hu =>
    rw [Term.Proper] at h
    rw [Term.Unbraced] at hu
    have hchoice := Phrase.choice ((c.phrase h.1 hu.1).mono (by decide) (by decide))
      ((y.phrase h.2.1 hu.2.1).whole (by decide)) ((n.phrase h.2.2 hu.2.2).whole (by decide))
    exact (hchoice.paren (by decide)).mono (by decide) (by decide)
  | .arrow x b, h, hu =>
    rw [Term.Proper] at h
    rw [Term.Unbraced] at hu
    have hbody := b.phrase h.2 hu
    have harrow : Phrase (.expr 9)
        (["(", x, ")"] ++ "=>" :: if b.isCell then paren b.words else b.words) := by
      cases hcell : b.isCell with
      | true =>
        refine .arrow (.param h.1) ((hbody.paren (by decide)).whole (by decide)) ?_
        simp [paren, lbrace]
      | false =>
        refine .arrow (.param h.1) (hbody.whole (by decide)) fun hbrace => ?_
        simp [Term.isCell_of_head?_words h.2 hbrace] at hcell
    exact (harrow.paren (by decide)).mono (by decide) (by decide)
  | .function x b, h, hu =>
    rw [Term.Proper] at h
    rw [Term.Unbraced] at hu
    have hfunction := Phrase.function (.param h.1) (phrase_body b h.2 hu)
    exact (hfunction.paren (by decide)).mono (by decide) (by decide)
  | .call f a, h, hu =>
    rw [Term.Proper] at h
    rw [Term.Unbraced] at hu
    have hcallee : Phrase (.expr 1) (if f.isCallable then f.words else paren f.words) := by
      split
      · exact f.phrase h.1 hu.1
      · exact ((f.phrase h.1 hu.1).paren (by decide)).mono (by decide) (by decide)
    exact .call hcallee ((a.phrase h.2 hu.2).argumentOf (by decide))
  | .run b, h, hu =>
    rw [Term.Proper] at h
    rw [Term.Unbraced] at hu
    have hfunction := Phrase.function .noParam (phrase_body b h hu)
    exact .call ((hfunction.paren (by decide)).mono (by decide) (by decide)) .noArgument

theorem Stmt.phrase (s : Stmt) (hs : s.Proper) (hu : s.Unbraced) : Phrase .item s.words := by
  match s, hs, hu with
  | .const x t, h, hu =>
    rw [Stmt.Proper] at h
    rw [Stmt.Unbraced] at hu
    exact .declaration h.1 ((t.phrase h.2 hu).whole (by decide))
  | .part x p, h, _ =>
    rw [Stmt.Proper] at h
    exact .declaration h.1 ((p.phrase h.2).whole (by decide))
  | .guard tests, h, _ =>
    rw [Stmt.Proper] at h
    have hall := (phrase_allWords h.1 h.2).paren (by decide)
    have hnot : Phrase (.expr 2) ("!" :: paren (allWords tests)) :=
      .unary (by decide) (hall.mono (by decide) (by decide))
    exact .item (.test (hnot.whole (by decide)) (phrase_failureWords _))
  | .arm tests b, h, hu =>
    rw [Stmt.Proper] at h
    rw [Stmt.Unbraced] at hu
    have hblock := Phrase.block (phrase_body b h.2 hu)
    cases tests with
    | nil => exact .item hblock
    | cons test tests =>
      have hall := (phrase_allWords (List.cons_ne_nil test tests) h.1).whole (by decide)
      simpa [Stmt.words, paren] using Phrase.item (.test hall hblock)
  | .expression t, h, hu =>
    rw [Stmt.Proper] at h
    rw [Stmt.Unbraced] at hu
    refine .item (.expression ((t.phrase h hu.2).whole (by decide)) fun hbrace => ?_)
    simp [Term.isCell_of_head?_words h hbrace] at hu
  | .return t, h, hu =>
    rw [Stmt.Proper] at h
    rw [Stmt.Unbraced] at hu
    exact .item (.result ((t.phrase h hu).whole (by decide)))
  | .noCase, _, _ => exact .item (phrase_failureWords _)

theorem phrase_body (ss : List Stmt) (hss : ProperBody ss) (hu : UnbracedBody ss) :
    Phrase .body (bodyWords ss) := by
  match ss, hss, hu with
  | [], _, _ => exact .empty
  | s :: ss, h, hu =>
    rw [ProperBody] at h
    rw [UnbracedBody] at hu
    exact .sequence (s.phrase h.1 hu.1) (phrase_body ss h.2 hu.2)
end

/-! ## An automaton that watches braces -/

/-- Where a row of words has come to. -/
inductive Spot where
  | within
  /-- Behind a brace or a semicolon. -/
  | start
  /-- Behind a brace at such a place: it opens a block. -/
  | opened
  /-- Behind the first word of such a block. -/
  | first
deriving DecidableEq, Repr

namespace Spot

/-- The next word; a block whose second word is a colon is an object in the wrong place. -/
def step (q : Spot) (w : String) : Option Spot :=
  if w = lbrace then some (if q = .start ∨ q = .opened then .opened else .start)
  else if w = rbrace ∨ w = ";" then some .start
  else if q = .opened then some .first
  else if q = .first ∧ w = ":" then none
  else some .within

def run (q : Spot) (ws : List String) : Option Spot := ws.foldlM step q

@[simp] theorem run_nil (q : Spot) : q.run [] = some q := rfl

@[simp] theorem run_cons (q : Spot) (w : String) (ws : List String) :
    q.run (w :: ws) = (q.step w).bind (·.run ws) := rfl

@[simp] theorem run_append (q : Spot) (ws vs : List String) :
    q.run (ws ++ vs) = (q.run ws).bind (·.run vs) := List.foldlM_append

/-- Where a word leads to that is not watched. -/
def next (q : Spot) : Spot := if q = .opened then .first else .within

/-- The words that the automaton watches. -/
def watched : List String := [lbrace, rbrace, ";", ":"]

theorem step_unwatched (q : Spot) {w : String} (hw : w ∉ watched) : q.step w = some q.next := by
  simp only [watched, List.mem_cons, List.not_mem_nil, or_false, not_or] at hw
  obtain ⟨hopen, hclose, hsemicolon, hcolon⟩ := hw
  simp only [step, hopen, hclose, hsemicolon, hcolon, or_self, and_false, if_false, next]
  split <;> rfl

@[simp] theorem next_within : within.next = .within := rfl

@[simp] theorem next_next (q : Spot) : q.next.next = .within := by cases q <;> rfl

theorem next_of_ne {q : Spot} (h : q ≠ .opened) : q.next = .within := if_neg h

theorem next_ne (q : Spot) : q.next ≠ .start ∧ q.next ≠ .opened := by cases q <;> decide

theorem step_colon {q : Spot} (hopened : q ≠ .opened) (hfirst : q ≠ .first) :
    q.step ":" = some .within := by
  cases q <;> simp_all [step, lbrace, rbrace]

@[simp] theorem step_lbrace (q : Spot) :
    q.step lbrace = some (if q = .start ∨ q = .opened then .opened else .start) := if_pos rfl

@[simp] theorem step_semicolon (q : Spot) : q.step ";" = some .start := by
  cases q <;> decide

@[simp] theorem step_rbrace (q : Spot) : q.step rbrace = some .start := by
  cases q <;> decide

end Spot

theorem unwatched_of_first {w : String} {c : Char} {cs : List Char} (hcs : w.toList = c :: cs)
    (hc : isNamePart c ∨ c = '"') : w ∉ Spot.watched := by
  intro hw
  have hfirst : Spot.watched.all fun w => w.toList.head?.any fun c => !isNamePart c && c != '"' := by
    decide
  have hfirst := List.all_eq_true.1 hfirst w hw
  rw [hcs, List.head?_cons, Option.any_some, Bool.and_eq_true, Bool.not_eq_true', bne_iff_ne]
    at hfirst
  obtain hc | hc := hc
  · simp [hfirst.1] at hc
  · exact hfirst.2 hc

theorem unwatched_of_isName {w : String} (h : isName w) : w ∉ Spot.watched := by
  obtain ⟨c, cs, hcs, hc, -⟩ := isName_iff.1 h
  exact unwatched_of_first hcs (.inl (by simp [isNamePart, hc]))

/-- What holds of the automaton behind an expression: it does not stand behind an opening
brace, and behind the first word of a block only if the expression is this word. -/
def Passed (q : Spot) (ws : List String) : Prop :=
  ∃ q', q.run ws = some q' ∧ q' ≠ .opened ∧ (q' = .first → q = .opened)

/-- **The automaton reads the words of each kind of phrase.**  An expression that starts
with a brace is not met at the start of a statement. -/
def Passes : Symbol → List String → Prop
  | .expr _, ws => ws ≠ [] ∧
    ∀ q : Spot, (ws.head? = some lbrace → q ≠ .start ∧ q ≠ .opened) → Passed q ws
  | .arguments, ws => ∀ q : Spot, q ≠ .opened → q.run ws = some .within
  | .params, ws => ∀ q : Spot, q.run ws = some .within
  | .properties, ws => ∀ q : Spot, q ≠ .opened → ∃ q', q.run ws = some q'
  | .statement, ws | .item, ws => ∀ q : Spot, q.run ws = some .start
  | .body, ws => ∀ q : Spot, ∃ q', q.run ws = some q'

theorem passes_word {w : String} (n : Nat) (hw : w ∉ Spot.watched) : Passes (.expr n) [w] := by
  refine ⟨by simp, fun q _ => ⟨q.next, by simp [q.step_unwatched hw], q.next_ne.2, fun h => ?_⟩⟩
  by_contra hopened
  rw [Spot.next_of_ne hopened] at h
  cases h

/-- An expression behind a word that is not watched. -/
theorem Passes.after {n : Nat} {ws : List String} (h : Passes (.expr n) ws) (q : Spot) :
    ∃ q', q.next.run ws = some q' ∧ q' ≠ .opened ∧ q' ≠ .first := by
  obtain ⟨q', hrun, hopened, hfirst⟩ := h.2 q.next fun _ => q.next_ne
  exact ⟨q', hrun, hopened, fun heq => q.next_ne.2 (hfirst heq)⟩

theorem Passes.within {n : Nat} {ws : List String} (h : Passes (.expr n) ws) :
    ∃ q', Spot.within.run ws = some q' ∧ q' ≠ .opened ∧ q' ≠ .first := h.after .within

/-- What is put behind an expression is not met at the start of a statement. -/
theorem Passes.before {n : Nat} {ws vs : List String} (h : Passes (.expr n) ws)
    (hvs : ∀ q : Spot, q ≠ .opened → ∃ q', q.run vs = some q' ∧ q' ≠ .opened ∧ q' ≠ .first) :
    Passes (.expr n) (ws ++ vs) := by
  refine ⟨by simp [h.1], fun q hq => ?_⟩
  rw [List.head?_append_of_ne_nil _ h.1] at hq
  obtain ⟨q₁, hrun₁, hopened₁, -⟩ := h.2 q hq
  obtain ⟨q₂, hrun₂, hopened₂, hfirst₂⟩ := hvs q₁ hopened₁
  exact ⟨q₂, by simp [hrun₁, hrun₂], hopened₂, fun heq => absurd heq hfirst₂⟩

theorem unwatched_of_operator {n : Nat} {op : String} (h : op ∈ operators n) :
    op ∉ Spot.watched := by
  have hall := of_mem_operators (q := fun w => decide (w ∉ Spot.watched)) (by decide) h
  simpa using hall

/-- **Every phrase passes the automaton.** -/
theorem Phrase.passes {s : Symbol} {ws : List String} (h : Phrase s ws) : Passes s ws := by
  -- a colon is met behind a name in an object, which is not a block, and in a choice, where
  -- the expression before it is not the first word of a block
  induction h with
  | name h => exact passes_word 0 (unwatched_of_isName (isName_of_isIdentifier h))
  | constant h =>
    refine passes_word 0 ?_
    revert h
    decide +revert
  | numeral h =>
    obtain ⟨c, cs, hcs, hc, -⟩ := isNumeral_iff.1 h
    exact passes_word 0 (unwatched_of_first hcs (.inl (by simp [isNamePart, hc])))
  | literal h =>
    obtain ⟨cs, hcs, -⟩ := h
    exact passes_word 0 (unwatched_of_first hcs (.inr rfl))
  | group h ih =>
    refine ⟨by simp, fun q _ => ?_⟩
    obtain ⟨q', hrun, hopened, -⟩ := ih.after q
    exact ⟨.within, by simp (disch := decide) [Spot.step_unwatched, hrun, Spot.next_of_ne hopened],
      by decide, by simp⟩
  | object h ih =>
    refine ⟨by simp, fun q hq => ?_⟩
    obtain ⟨hstart, hopened⟩ := hq rfl
    obtain ⟨q', hrun⟩ := ih .start (by decide)
    exact ⟨.start, by simp [hstart, hopened, hrun], by decide, by simp⟩
  | property hx h ih =>
    intro q hq
    obtain ⟨q', hrun, -⟩ := ih.within
    have hname := q.step_unwatched (unwatched_of_isName hx)
    exact ⟨q', by simp (disch := decide) [hname, Spot.next_of_ne hq, Spot.step_colon, hrun]⟩
  | properties hx h hs ih ihs =>
    intro q hq
    obtain ⟨q₁, hrun₁, hopened₁, -⟩ := ih.within
    obtain ⟨q₂, hrun₂⟩ := ihs .within (by decide)
    have hname := q.step_unwatched (unwatched_of_isName hx)
    exact ⟨q₂, by simp (disch := decide) [hname, Spot.next_of_ne hq, Spot.step_colon, hrun₁,
      Spot.step_unwatched, Spot.next_of_ne hopened₁, hrun₂]⟩
  | part hn h hx ih =>
    refine ih.before fun q hq => ⟨.within, ?_, by decide, by decide⟩
    have hname := Spot.within.step_unwatched (unwatched_of_isName hx)
    simp (disch := decide) [Spot.step_unwatched, Spot.next_of_ne hq, hname]
  | new h ha ih iha =>
    refine ⟨by simp, fun q _ => ?_⟩
    obtain ⟨q', hrun, hopened, -⟩ := ih.after q
    exact ⟨.within, by simp (disch := decide) [Spot.step_unwatched, hrun, iha q' hopened],
      by decide, by simp⟩
  | call h ha ih iha =>
    exact ih.before fun q hq => ⟨.within, iha q hq, by decide, by decide⟩
  | noArgument =>
    intro q hq
    simp (disch := decide) [Spot.step_unwatched]
  | argument h ih =>
    intro q hq
    obtain ⟨q', hrun, hopened, -⟩ := ih.after q
    simp (disch := decide) [Spot.step_unwatched, hrun, Spot.next_of_ne hopened]
  | @unary op ws hop h ih =>
    refine ⟨by simp, fun q _ => ?_⟩
    obtain ⟨q', hrun, hopened, hfirst⟩ := ih.after q
    have hop : op ∉ Spot.watched := by
      obtain rfl | rfl : op = "-" ∨ op = "!" := by simpa using hop
      · decide
      · decide
    exact ⟨q', by simp [q.step_unwatched hop, hrun], hopened, fun heq => absurd heq hfirst⟩
  | binary hop hl hr ihl ihr =>
    refine ihl.before fun q hq => ?_
    obtain ⟨q', hrun, hq'⟩ := ihr.within
    have hsign := q.step_unwatched (unwatched_of_operator hop)
    exact ⟨q', by simp [hsign, Spot.next_of_ne hq, hrun], hq'⟩
  | choice hc hy hn ihc ihy ihn =>
    refine Passes.before (n := 8) ihc fun q hq => ?_
    obtain ⟨q₁, hrun₁, hopened₁, hfirst₁⟩ := ihy.within
    obtain ⟨q₂, hrun₂, hq₂⟩ := ihn.within
    refine ⟨q₂, ?_, hq₂⟩
    simp (disch := decide) [Spot.step_unwatched, Spot.next_of_ne hq, hrun₁,
      Spot.step_colon hopened₁ hfirst₁, hrun₂]
  | noParam =>
    intro q
    simp (disch := decide) [Spot.step_unwatched]
  | param hx =>
    intro q
    have hname (q : Spot) := q.step_unwatched (unwatched_of_isName (isName_of_isIdentifier hx))
    simp (disch := decide) [Spot.step_unwatched, hname]
  | arrow hp h hstart ihp ih =>
    refine ⟨by simp, fun q _ => ?_⟩
    obtain ⟨q', hrun, hopened, hfirst⟩ := ih.within
    exact ⟨q', by simp (disch := decide) [ihp q, Spot.step_unwatched, hrun], hopened,
      fun heq => absurd heq hfirst⟩
  | function hp h ihp ih =>
    refine ⟨by simp, fun q _ => ?_⟩
    obtain ⟨q', hrun⟩ := ih .start
    exact ⟨.start, by simp (disch := decide) [ihp q, Spot.step_unwatched, hrun], by decide,
      by simp⟩
  | loosen hn h ih => exact ih
  | expression h hstart ih =>
    intro q
    obtain ⟨q', hrun, -⟩ := ih.2 q fun h => absurd h hstart
    simp [hrun]
  | block h ih =>
    intro q
    obtain ⟨q', hrun⟩ := ih (if q = .start ∨ q = .opened then .opened else .start)
    simp [hrun]
  | test hc h ihc ih =>
    intro q
    obtain ⟨q', hrun, hopened, -⟩ := ihc.within
    have hrest := ih .within
    simp (disch := decide) [Spot.step_unwatched, hrun, Spot.next_of_ne hopened, hrest]
  | throw h ih | result h ih =>
    intro q
    obtain ⟨q', hrun, -⟩ := ih.after q
    simp (disch := decide) [Spot.step_unwatched, hrun]
  | declaration hx h ih =>
    intro q
    obtain ⟨q', hrun, -⟩ := ih.within
    have hname (q : Spot) := q.step_unwatched (unwatched_of_isName (isName_of_isIdentifier hx))
    simp (disch := decide) [Spot.step_unwatched, hname, hrun]
  | item h ih => exact ih
  | empty => exact fun q => ⟨q, rfl⟩
  | sequence h hs ih ihs =>
    intro q
    obtain ⟨q', hrun⟩ := ihs .start
    exact ⟨q', by simp [ih q, hrun]⟩

/-! ## Terms with a cell for a statement -/

/-- The automaton does not read the words, wherever it meets them. -/
def Jams (ws : List String) : Prop := ∀ q : Spot, q.run ws = none

theorem Jams.widen {vs ws : List String} (h : Jams vs) (hin : vs <:+: ws) : Jams ws := by
  obtain ⟨us, us', rfl⟩ := hin
  intro q
  rw [Spot.run_append, Spot.run_append]
  cases q.run us with
  | none => rfl
  | some q' => simp [h q']

/-- The automaton does not read the words where statements start. -/
def JamsAtStart (ws : List String) : Prop := ∀ q : Spot, q = .start ∨ q = .opened → q.run ws = none

theorem Jams.atStart {ws : List String} (h : Jams ws) : JamsAtStart ws := fun q _ => h q

theorem JamsAtStart.block {ws : List String} (h : JamsAtStart ws) : Jams (lbrace :: ws) := by
  intro q
  rw [Spot.run_cons, Spot.step_lbrace, Option.bind_some]
  refine h _ ?_
  split
  · exact .inr rfl
  · exact .inl rfl

theorem run_closed {q q' : Spot} {ws : List String} {w : String} (hw : w = ";" ∨ w = rbrace)
    (h : q.run (ws ++ [w]) = some q') : q' = .start := by
  rw [Spot.run_append] at h
  obtain ⟨q₁, -, hlast⟩ := Option.bind_eq_some_iff.1 h
  obtain rfl | rfl := hw <;> simpa using hlast.symm

theorem run_failureWords {q q' : Spot} {message : String}
    (h : q.run (failureWords message) = some q') : q' = .start := by
  have hsplit : failureWords message =
      ["throw", "new", "Error", "(", Text.escaped message, ")"] ++ [";"] := rfl
  rw [hsplit] at h
  exact run_closed (.inl rfl) h

/-- Where a statement ends, another one starts. -/
theorem Stmt.run_words {s : Stmt} {q q' : Spot} (h : q.run s.words = some q') : q' = .start := by
  match s, h with
  | .const .., h | .part .., h | .expression _, h | .return _, h => exact run_closed (.inl rfl) h
  | .arm .., h => exact run_closed (.inr rfl) h
  | .guard tests, h =>
    have hsplit : words (.guard tests) = ("if" :: "(" :: ("!" :: paren (allWords tests)) ++ [")"]) ++
        failureWords "Pattern match failure" := by simp [words]
    rw [hsplit, Spot.run_append] at h
    obtain ⟨q₁, -, hlast⟩ := Option.bind_eq_some_iff.1 h
    exact run_failureWords hlast
  | .noCase, h => exact run_failureWords h

mutual
/-- **A term with a cell for a statement jams the automaton.** -/
theorem Term.jams (t : Term) (h : ¬t.Unbraced) : Jams t.words := by
  match t, h with
  | .number _, h | .string _, h | .boolean _, h | .undefined, h | .null, h | .name _, h =>
    exact absurd (by rw [Term.Unbraced]; trivial) h
  | .quotient l r, h =>
    rw [Term.Unbraced, not_and_or] at h
    obtain h | h := h
    · exact (l.jams h).widen
        ⟨["Math", ".", "trunc", "("], "/" :: r.words ++ [")"], by simp [Term.words, paren]⟩
    · exact (r.jams h).widen
        ⟨["Math", ".", "trunc", "("] ++ l.words ++ ["/"], [")"], by simp [Term.words, paren]⟩
  | .operation sign l r, h =>
    rw [Term.Unbraced, not_and_or] at h
    obtain h | h := h
    · exact (l.jams h).widen ⟨["("], sign :: r.words ++ [")"], by simp [Term.words, paren]⟩
    · exact (r.jams h).widen ⟨"(" :: l.words ++ [sign], [")"], by simp [Term.words, paren]⟩
  | .cell u v, h =>
    rw [Term.Unbraced, not_and_or] at h
    obtain h | h := h
    · exact (u.jams h).widen
        ⟨[lbrace, "head", ":"], "," :: "tail" :: ":" :: v.words ++ [rbrace], by simp [Term.words]⟩
    · exact (v.jams h).widen
        ⟨[lbrace, "head", ":"] ++ u.words ++ [",", "tail", ":"], [rbrace], by simp [Term.words]⟩
  | .choice c y n, h =>
    rw [Term.Unbraced, not_and_or, not_and_or] at h
    obtain h | h | h := h
    · exact (c.jams h).widen
        ⟨["("], "?" :: (y.words ++ ":" :: n.words) ++ [")"], by simp [Term.words, paren]⟩
    · exact (y.jams h).widen
        ⟨"(" :: c.words ++ ["?"], ":" :: n.words ++ [")"], by simp [Term.words, paren]⟩
    · exact (n.jams h).widen
        ⟨"(" :: c.words ++ "?" :: y.words ++ [":"], [")"], by simp [Term.words, paren]⟩
  | .arrow x b, h =>
    rw [Term.Unbraced] at h
    refine (b.jams h).widen ?_
    rw [Term.words]
    split
    · exact ⟨["(", "(", x, ")", "=>", "("], [")", ")"], by simp [paren]⟩
    · exact ⟨["(", "(", x, ")", "=>"], [")"], by simp [paren]⟩
  | .function x b, h =>
    rw [Term.Unbraced] at h
    exact (jamsAtStart_body b h).block.widen
      ⟨["(", "(", x, ")", "=>"], [rbrace, ")"], by simp [Term.words, paren]⟩
  | .call f a, h =>
    rw [Term.Unbraced, not_and_or] at h
    rw [Term.words]
    obtain h | h := h
    · refine (f.jams h).widen ?_
      split
      · exact ⟨[], paren a.words, by simp⟩
      · exact ⟨["("], ")" :: paren a.words, by simp [paren]⟩
    · exact (a.jams h).widen
        ⟨(if f.isCallable then f.words else paren f.words) ++ ["("], [")"], by simp [paren]⟩
  | .run b, h =>
    rw [Term.Unbraced] at h
    exact (jamsAtStart_body b h).block.widen
      ⟨["(", "(", ")", "=>"], [rbrace, ")", "(", ")"], by simp [Term.words, paren]⟩

theorem Stmt.jamsAtStart (s : Stmt) (h : ¬s.Unbraced) : JamsAtStart s.words := by
  match s, h with
  | .const x t, h =>
    rw [Stmt.Unbraced] at h
    exact ((t.jams h).widen ⟨["const", x, "="], [";"], by simp [Stmt.words]⟩).atStart
  | .return t, h =>
    rw [Stmt.Unbraced] at h
    exact ((t.jams h).widen ⟨["return"], [";"], by simp [Stmt.words]⟩).atStart
  | .expression t, h =>
    rw [Stmt.Unbraced, not_and_or, Bool.not_eq_false] at h
    rw [Stmt.words]
    obtain h | h := h
    · -- the brace of the cell is taken for that of a block
      intro q hq
      match t, h with
      | .cell u v, _ => simp [Term.words, hq, Spot.step, lbrace, rbrace]
    · exact ((t.jams h).widen ⟨[], [";"], by simp⟩).atStart
  | .arm tests b, h =>
    rw [Stmt.Unbraced] at h
    exact ((jamsAtStart_body b h).block.widen
      ⟨if tests.isEmpty then [] else "if" :: paren (allWords tests), [rbrace],
        by simp [Stmt.words]⟩).atStart
  | .part _ _, h | .guard _, h | .noCase, h =>
    exact absurd (by rw [Stmt.Unbraced]; trivial) h

theorem jamsAtStart_body (ss : List Stmt) (h : ¬UnbracedBody ss) : JamsAtStart (bodyWords ss) := by
  match ss, h with
  | [], h => exact absurd (by rw [UnbracedBody]; trivial) h
  | s :: ss, h =>
    rw [UnbracedBody, not_and] at h
    intro q hq
    rw [bodyWords, Spot.run_append]
    by_cases hs : s.Unbraced
    · cases hrun : q.run s.words with
      | none => rfl
      | some q' =>
        obtain rfl := Stmt.run_words hrun
        exact jamsAtStart_body ss (h hs) .start (.inl rfl)
    · rw [s.jamsAtStart hs q hq]
      rfl
end

/-- **A proper term is an expression of the grammar exactly if no statement of it is a
cell.** -/
theorem Term.isExpression_iff {t : Term} (ht : t.Proper) : IsExpression t.text ↔ t.Unbraced := by
  constructor
  · rintro ⟨ws, hscans, hphrase⟩
    obtain rfl := hscans.unique (t.spells ht).scans
    by_contra hbraced
    obtain ⟨q, hrun, -⟩ := hphrase.passes.within
    simp [t.jams hbraced .within] at hrun
  · intro hunbraced
    exact ⟨t.words, (t.spells ht).scans, (t.phrase ht hunbraced).whole (by decide)⟩

end LetPoly.Script
