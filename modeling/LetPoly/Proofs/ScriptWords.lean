import LetPoly.Proofs.ScriptLexing

/-! # The words of terms and statements

The words of a term are told from its tree (`Term.words`), as those of paths, conditions
and statements are, and the texts of all of them spell their words (`Term.spells`).  This
asks of a tree that its names are identifiers, its signs operators, and that no condition
to be guarded is empty (`Term.Proper`).
-/

namespace LetPoly.Script

/-! ## Trees and their words -/

/-- The variable that a path starts from. -/
def Path.root : Path → String
  | .name x => x
  | .head p | .tail p => p.root

def Path.words : Path → List String
  | .name x => [x]
  | .head p => p.words ++ [".", "head"]
  | .tail p => p.words ++ [".", "tail"]

def Literal.words : Literal → List String
  | .number n => numeralWords n
  | .string s => [Text.escaped s]
  | .boolean b => [truthText b]
  | .null => ["null"]

/-- The path that a condition is about. -/
def Test.path : Test → Path
  | .equals p _ | .isCell p => p

def Test.words : Test → List String
  | .equals p v => p.words ++ "===" :: v.words
  | .isCell p => p.words ++ ["!==", "null"]

def allWords : List Test → List String
  | [] => []
  | [test] => test.words
  | test :: tests => test.words ++ "&&" :: allWords tests

def paren (ws : List String) : List String := "(" :: ws ++ [")"]

/-- The words of an error that is thrown. -/
def failureWords (message : String) : List String :=
  ["throw", "new", "Error", "(", Text.escaped message, ")", ";"]

/-- A term whose text starts with a brace. -/
def Term.isCell : Term → Bool
  | .cell .. => true
  | _ => false

mutual
/-- **The words of a term.** -/
def Term.words : Term → List String
  | .number n => if n < 0 then paren (numeralWords n) else numeralWords n
  | .string s => [Text.escaped s]
  | .boolean b => [truthText b]
  | .undefined => ["undefined"]
  | .null => ["null"]
  | .name x => [x]
  | .quotient l r => ["Math", ".", "trunc"] ++ paren (l.words ++ "/" :: r.words)
  | .operation sign l r => paren (l.words ++ sign :: r.words)
  | .cell h t =>
    lbrace :: ("head" :: ":" :: h.words ++ "," :: "tail" :: ":" :: t.words) ++ [rbrace]
  | .choice c y n => paren (c.words ++ "?" :: (y.words ++ ":" :: n.words))
  | .arrow x b =>
    paren (["(", x, ")"] ++ "=>" :: if b.isCell then paren b.words else b.words)
  | .function x b => paren (["(", x, ")"] ++ "=>" :: lbrace :: bodyWords b ++ [rbrace])
  | .call f a => (if f.isCallable then f.words else paren f.words) ++ paren a.words
  | .run b => paren (["(", ")"] ++ "=>" :: lbrace :: bodyWords b ++ [rbrace]) ++ ["(", ")"]

/-- **The words of a statement.** -/
def Stmt.words : Stmt → List String
  | .const x t => "const" :: x :: "=" :: t.words ++ [";"]
  | .part x p => "const" :: x :: "=" :: p.words ++ [";"]
  | .guard tests =>
    "if" :: "(" :: ("!" :: paren (allWords tests)) ++ ")" :: failureWords "Pattern match failure"
  | .arm tests b =>
    (if tests.isEmpty then [] else "if" :: paren (allWords tests)) ++
      lbrace :: bodyWords b ++ [rbrace]
  | .expression t => t.words ++ [";"]
  | .return t => "return" :: t.words ++ [";"]
  | .noCase => failureWords "No case matches"

def bodyWords : List Stmt → List String
  | [] => []
  | s :: ss => s.words ++ bodyWords ss
end

mutual
/-- **The names of a term are identifiers, its signs are operators, and no empty condition
is guarded.** -/
def Term.Proper : Term → Prop
  | .number _ | .string _ | .boolean _ | .undefined | .null => True
  | .name x => isIdentifier x
  | .operation sign l r => (∃ n, sign ∈ operators (n + 3)) ∧ l.Proper ∧ r.Proper
  | .quotient l r | .cell l r | .call l r => l.Proper ∧ r.Proper
  | .choice c y n => c.Proper ∧ y.Proper ∧ n.Proper
  | .arrow x b => isIdentifier x ∧ b.Proper
  | .function x b => isIdentifier x ∧ ProperBody b
  | .run b => ProperBody b

def Stmt.Proper : Stmt → Prop
  | .const x t => isIdentifier x ∧ t.Proper
  | .part x p => isIdentifier x ∧ isIdentifier p.root
  | .guard tests => tests ≠ [] ∧ ∀ test ∈ tests, isIdentifier test.path.root
  | .arm tests b => (∀ test ∈ tests, isIdentifier test.path.root) ∧ ProperBody b
  | .expression t | .return t => t.Proper
  | .noCase => True

def ProperBody : List Stmt → Prop
  | [] => True
  | s :: ss => s.Proper ∧ ProperBody ss
end

theorem isName_of_isIdentifier {x : String} (h : isIdentifier x) : isName x := by
  rw [isIdentifier, Bool.and_eq_true] at h
  exact h.1

theorem Spells.congr {s : String} {ws vs : List String} (h : Spells s ws) (hws : ws = vs) :
    Spells s vs := hws ▸ h

theorem Opens.congr {s : String} {ws vs : List String} (h : Opens s ws) (hws : ws = vs) :
    Opens s vs := hws ▸ h

/-! ## Conditions -/

/-- A path ends with a name, so what follows it may also be a point. -/
theorem Path.scans {p : Path} (hp : isIdentifier p.root) {rest : List Char} {us : List String}
    (hrest : ∀ c ∈ rest.head?, isNamePart c = false) (h : Scans rest us) :
    Scans (p.text.toList ++ rest) (p.words ++ us) := by
  have hpart {p : Path} {x : String} (hx : isName x) {rest : List Char} {us : List String}
      (hrest : ∀ c ∈ rest.head?, isNamePart c = false) (h : Scans rest us)
      (ih : ∀ {rest : List Char} {us : List String}, (∀ c ∈ rest.head?, isNamePart c = false) →
        Scans rest us → Scans (p.text.toList ++ rest) (p.words ++ us)) :
      Scans ((p.text ++ ("." ++ x)).toList ++ rest) (p.words ++ [".", x] ++ us) := by
    obtain ⟨c, cs, hcs, hc, -⟩ := isName_iff.1 hx
    have hdot : Scans (".".toList ++ (x.toList ++ rest)) ("." :: x :: us) := by
      refine .sign (by decide) (fun d hd => ?_) (.name hx hrest h)
      obtain rfl : c = d := by simpa [hcs] using hd
      have hsigns : signParts.any isNameStart = false := by decide
      rw [Bool.eq_false_iff]
      exact fun hsign => List.any_eq_false.1 hsigns c (List.contains_iff_mem.1 hsign) hc
    have hwhole := ih (by simp [isNamePart]; decide) hdot
    simpa using hwhole
  induction p generalizing rest us with
  | name x => exact .name (isName_of_isIdentifier hp) hrest h
  | head p ih => exact hpart (x := "head") (by decide) hrest h (ih hp)
  | tail p ih => exact hpart (x := "tail") (by decide) hrest h (ih hp)

theorem Path.spells {p : Path} (hp : isIdentifier p.root) : Spells p.text p.words :=
  fun _ _ hrest hus => p.scans hp (fun c hc => (hrest.isNamePart c hc).1) hus

theorem spells_truth (b : Bool) : Spells (truthText b) [truthText b] := by
  cases b <;> exact .name (by decide)

theorem Literal.spells (v : Literal) : Spells v.text v.words := by
  cases v with
  | number n => exact spells_word n
  | string s => exact (Opens.literal (isLiteral_escaped s)).spells
  | boolean b => exact spells_truth b
  | null => exact .name (by decide)

theorem Test.spells {test : Test} (h : isIdentifier test.path.root) :
    Spells test.text test.words := by
  cases test with
  | equals p v =>
    have hequals : Opens " === " ["==="] := .of_layout [" ", "===", " "] rfl (by decide)
    exact (((p.spells h).before hequals rfl).before v.spells).congr (by simp [words])
  | isCell p =>
    have hdiffers : Opens " !== " ["!=="] := .of_layout [" ", "!==", " "] rfl (by decide)
    have hnull : Spells "null" ["null"] := .name (by decide)
    have hsplit : Test.text (.isCell p) = p.text ++ (" !== " ++ "null") := rfl
    rw [hsplit, ← String.append_assoc]
    exact (((p.spells h).before hdiffers rfl).before hnull).congr (by simp [words])

theorem spells_all {tests : List Test} (hne : tests ≠ [])
    (h : ∀ test ∈ tests, isIdentifier test.path.root) :
    Spells (allText tests) (allWords tests) := by
  induction tests with
  | nil => exact absurd rfl hne
  | cons test tests ih =>
    obtain ⟨hfirst, hrest⟩ := List.forall_mem_cons.1 h
    cases tests with
    | nil => exact Test.spells hfirst
    | cons test' tests =>
      have hand : Opens " && " ["&&"] := .of_layout [" ", "&&", " "] rfl (by decide)
      have htext : allText (test :: test' :: tests) =
          test.text ++ " && " ++ allText (test' :: tests) := by
        simp [allText, String.intercalate_cons_cons]
      rw [htext]
      exact (((Test.spells hfirst).before hand rfl).before (ih (by simp) hrest)).congr
        (by simp [allWords])

/-! ## Terms -/

theorem ne_of_isNamePart {c : Char} (h : isNamePart c) : c ≠ ' ' ∧ c ≠ '\x7b' := by
  refine ⟨?_, ?_⟩ <;> rintro rfl <;> exact absurd h (by decide)

/-- Only the text of a cell starts with a brace, and none with a blank. -/
theorem Term.head?_text (t : Term) (ht : t.Proper) :
    ∃ c, t.text.toList.head? = some c ∧ c ≠ ' ' ∧ (c = '\x7b' ↔ t.isCell) := by
  match t, ht with
  | .number n, _ =>
    rw [text, word_eq]
    split
    · exact ⟨'(', by simp, by decide, by simp [isCell]⟩
    · obtain ⟨c, cs, hcs, hc, -⟩ := isNumeral_iff.1 (isNumeral_natural n.toInt.natAbs)
      obtain ⟨hblank, hbrace⟩ := ne_of_isNamePart (c := c) (by simp [isNamePart, hc])
      exact ⟨c, by rw [hcs]; rfl, hblank, by simpa [isCell] using hbrace⟩
  | .string s, _ => exact ⟨'"', by simp [text, Text.escaped], by decide, by simp [isCell]⟩
  | .boolean true, _ => exact ⟨'t', rfl, by decide, by simp [isCell]⟩
  | .boolean false, _ => exact ⟨'f', rfl, by decide, by simp [isCell]⟩
  | .undefined, _ => exact ⟨'u', rfl, by decide, by simp [isCell]⟩
  | .null, _ => exact ⟨'n', rfl, by decide, by simp [isCell]⟩
  | .name x, hx =>
    rw [Proper] at hx
    obtain ⟨c, cs, hcs, hc, -⟩ := isName_iff.1 (isName_of_isIdentifier hx)
    obtain ⟨hblank, hbrace⟩ := ne_of_isNamePart (c := c) (by simp [isNamePart, hc])
    exact ⟨c, by rw [text, hcs]; rfl, hblank, by simpa [isCell] using hbrace⟩
  | .quotient l r, _ => exact ⟨'M', by simp [text], by decide, by simp [isCell]⟩
  | .operation sign l r, _ => exact ⟨'(', by simp [text], by decide, by simp [isCell]⟩
  | .cell h t, _ => exact ⟨'\x7b', by simp [text], by decide, by simp [isCell]⟩
  | .choice c y n, _ => exact ⟨'(', by simp [text], by decide, by simp [isCell]⟩
  | .arrow x b, _ => exact ⟨'(', by simp [text], by decide, by simp [isCell]⟩
  | .function x b, _ => exact ⟨'(', by simp [text], by decide, by simp [isCell]⟩
  | .run b, _ => exact ⟨'(', by simp [text], by decide, by simp [isCell]⟩
  | .call f a, h =>
    rw [Proper] at h
    obtain ⟨c, hc, hblank, hbrace⟩ := f.head?_text h.1
    rw [text]
    cases hcall : f.isCallable with
    | false => exact ⟨'(', by simp, by decide, by simp [isCell]⟩
    | true =>
      have hcell : f.isCell = false := by cases f <;> simp_all [isCallable, isCell]
      rw [hcell] at hbrace
      obtain ⟨cs, hcs⟩ := List.head?_eq_some_iff.1 hc
      exact ⟨c, by simp [hcs], hblank, hbrace⟩

theorem arrowBody_text {b : Term} (hb : b.Proper) :
    arrowBody b.text = if b.isCell then "(" ++ b.text ++ ")" else b.text := by
  obtain ⟨c, hc, -, hbrace⟩ := b.head?_text hb
  simp only [arrowBody, hc, Option.some.injEq, hbrace]

/-- What is checked of the operators of all levels. -/
theorem of_mem_operators {q : String → Bool} (h : (List.range 9).all fun n => (operators n).all q)
    {n : Nat} {w : String} (hw : w ∈ operators n) : q w := by
  by_cases hn : n < 9
  · exact List.all_eq_true.1 (List.all_eq_true.1 h n (List.mem_range.2 hn)) w hw
  · obtain ⟨m, rfl⟩ : ∃ m, n = m + 9 := ⟨n - 9, by omega⟩
    cases hw

theorem operators_subset {n : Nat} {w : String} (h : w ∈ operators n) : w ∈ punctuators :=
  List.contains_iff_mem.1 (of_mem_operators (q := punctuators.contains) (by decide) h)

/-- The text of an error that is thrown. -/
theorem opens_failure (message : String) :
    Opens ("throw new Error(" ++ Text.escaped message ++ ");") (failureWords message) := by
  have hthrow : Opens "throw new Error(" ["throw", "new", "Error", "("] :=
    .of_layout ["throw", " ", "new", " ", "Error", "("] rfl (by decide)
  have hclose : Opens ");" [")", ";"] := .of_layout [")", ";"] rfl (by decide)
  exact ((hthrow.append (.literal (isLiteral_escaped message))).append hclose).congr
    (by simp [failureWords])

mutual
/-- **The text of a term spells its words.** -/
theorem Term.spells (t : Term) (ht : t.Proper) : Spells t.text t.words := by
  -- a part may end in a name or a numeral, so the text behind it must not go on the word
  match t, ht with
  | .number n, _ =>
    rw [Term.text, Term.words]
    split
    · exact (spells_word n).paren.spells
    · exact spells_word n
  | .string s, _ => exact (Opens.literal (isLiteral_escaped s)).spells
  | .boolean b, _ => exact spells_truth b
  | .undefined, _ => exact .name (by decide)
  | .null, _ => exact .name (by decide)
  | .name x, hx =>
    rw [Term.Proper] at hx
    rw [Term.text, Term.words]
    exact .name (isName_of_isIdentifier hx)
  | .quotient l r, h =>
    rw [Term.Proper] at h
    have htrunc : Opens "Math.trunc(" ["Math", ".", "trunc", "("] :=
      .of_layout ["Math", ".", "trunc", "("] rfl (by decide)
    have hover : Opens " / " ["/"] := .of_layout [" ", "/", " "] rfl (by decide)
    rw [Term.text, Term.words]
    exact (((htrunc.before (l.spells h.1)).before hover rfl |>.before (r.spells h.2)).before
      opens_rparen rfl).spells.congr (by simp [paren])
  | .operation sign l r, h =>
    rw [Term.Proper] at h
    obtain ⟨⟨n, hsign⟩, hl, hr⟩ := h
    rw [Term.text, Term.words]
    exact (((((opens_lparen.before (l.spells hl)).before opens_blank rfl).sign
      (operators_subset hsign)).before (r.spells hr)).before opens_rparen rfl).spells.congr
        (by simp [paren])
  | .cell h t, hproper =>
    rw [Term.Proper] at hproper
    have hhead : Opens "\x7b head: " [lbrace, "head", ":"] :=
      .of_layout [lbrace, " ", "head", ":", " "] rfl (by decide)
    have htail : Opens ", tail: " [",", "tail", ":"] :=
      .of_layout [",", " ", "tail", ":", " "] rfl (by decide)
    have hclose : Opens " \x7d" [rbrace] := .of_layout [" ", rbrace] rfl (by decide)
    rw [Term.text, Term.words]
    exact ((((hhead.before (h.spells hproper.1)).before htail rfl).before
      (t.spells hproper.2)).before hclose rfl).spells.congr (by simp)
  | .choice c y n, h =>
    rw [Term.Proper] at h
    have hthen : Opens " ? " ["?"] := .of_layout [" ", "?", " "] rfl (by decide)
    have helse : Opens " : " [":"] := .of_layout [" ", ":", " "] rfl (by decide)
    rw [Term.text, Term.words]
    exact ((((((opens_lparen.before (c.spells h.1)).before hthen rfl).before
      (y.spells h.2.1)).before helse rfl).before (n.spells h.2.2)).before opens_rparen
        rfl).spells.congr (by simp [paren])
  | .arrow x b, h =>
    rw [Term.Proper] at h
    have hopen : Opens "((" ["(", "("] := .of_layout ["(", "("] rfl (by decide)
    have harrow : Opens ") => " [")", "=>"] := .of_layout [")", " ", "=>", " "] rfl (by decide)
    have hbody : Spells (arrowBody b.text) (if b.isCell then paren b.words else b.words) := by
      rw [arrowBody_text h.2]
      split
      · exact (b.spells h.2).paren.spells
      · exact b.spells h.2
    rw [Term.text, Term.words]
    exact ((((hopen.before (.name (isName_of_isIdentifier h.1))).before harrow rfl).before
      hbody).before opens_rparen rfl).spells.congr (by simp [paren])
  | .function x b, h =>
    rw [Term.Proper] at h
    have hopen : Opens "((" ["(", "("] := .of_layout ["(", "("] rfl (by decide)
    have harrow : Opens ") => \x7b" [")", "=>", lbrace] :=
      .of_layout [")", " ", "=>", " ", lbrace] rfl (by decide)
    have hclose : Opens " \x7d)" [rbrace, ")"] := .of_layout [" ", rbrace, ")"] rfl (by decide)
    rw [Term.text, Term.words]
    exact ((((hopen.before (.name (isName_of_isIdentifier h.1))).before harrow rfl).append
      (opens_body b h.2)).append hclose).spells.congr (by simp [paren])
  | .call f a, h =>
    rw [Term.Proper] at h
    have hcallee : Spells (if f.isCallable then f.text else "(" ++ f.text ++ ")")
        (if f.isCallable then f.words else paren f.words) := by
      split
      · exact f.spells h.1
      · exact (f.spells h.1).paren.spells
    rw [Term.text, Term.words]
    exact (((hcallee.before opens_lparen rfl).before (a.spells h.2)).before opens_rparen
      rfl).spells.congr (by simp [paren])
  | .run b, h =>
    rw [Term.Proper] at h
    have hopen : Opens "(() => \x7b" ["(", "(", ")", "=>", lbrace] :=
      .of_layout ["(", "(", ")", " ", "=>", " ", lbrace] rfl (by decide)
    have hclose : Opens " \x7d)()" [rbrace, ")", "(", ")"] :=
      .of_layout [" ", rbrace, ")", "(", ")"] rfl (by decide)
    rw [Term.text, Term.words]
    exact ((hopen.append (opens_body b h)).append hclose).spells.congr (by simp [paren])

/-- The text of a statement spells its words, and ends in a bracket. -/
theorem Stmt.opens (s : Stmt) (hs : s.Proper) : Opens s.text s.words := by
  have hconst : Opens "const " ["const"] := .of_layout ["const", " "] rfl (by decide)
  have hequals : Opens " = " ["="] := .of_layout [" ", "=", " "] rfl (by decide)
  have hsemicolon : Opens ";" [";"] := .of_layout [";"] rfl (by decide)
  match s, hs with
  | .const x t, h =>
    rw [Stmt.Proper] at h
    rw [Stmt.text, Stmt.words]
    exact ((((hconst.before (.name (isName_of_isIdentifier h.1))).before hequals rfl).before
      (t.spells h.2)).before hsemicolon rfl).congr (by simp)
  | .part x p, h =>
    rw [Stmt.Proper] at h
    rw [Stmt.text, Stmt.words]
    exact ((((hconst.before (.name (isName_of_isIdentifier h.1))).before hequals rfl).before
      (p.spells h.2)).before hsemicolon rfl).congr (by simp)
  | .guard tests, h =>
    rw [Stmt.Proper] at h
    have hif : Opens "if (!(" ["if", "(", "!", "("] :=
      .of_layout ["if", " ", "(", "!", "("] rfl (by decide)
    have hclose : Opens ")) " [")", ")"] := .of_layout [")", ")", " "] rfl (by decide)
    have hthrow := hclose.append (opens_failure "Pattern match failure")
    rw [Stmt.text, Stmt.words]
    exact ((hif.before (spells_all h.1 h.2)).before hthrow (by decide)).congr (by simp [paren])
  | .arm tests b, h =>
    rw [Stmt.Proper] at h
    have hopen : Opens "\x7b" [lbrace] := .of_layout [lbrace] rfl (by decide)
    have hclose : Opens " \x7d" [rbrace] := .of_layout [" ", rbrace] rfl (by decide)
    have hcondition : Opens (if tests.isEmpty then "" else "if (" ++ allText tests ++ ") ")
        (if tests.isEmpty then [] else "if" :: paren (allWords tests)) := by
      cases tests with
      | nil => exact fun _ _ h => h
      | cons test tests =>
        have hif : Opens "if (" ["if", "("] := .of_layout ["if", " ", "("] rfl (by decide)
        have hthen : Opens ") " [")"] := .of_layout [")", " "] rfl (by decide)
        exact ((hif.before (spells_all (by simp) h.1)).before hthen rfl).congr (by simp [paren])
    rw [Stmt.text, Stmt.words]
    exact (((hcondition.append hopen).append (opens_body b h.2)).append hclose).congr (by simp)
  | .expression t, h =>
    rw [Stmt.Proper] at h
    rw [Stmt.text, Stmt.words]
    exact (t.spells h).before hsemicolon rfl
  | .return t, h =>
    rw [Stmt.Proper] at h
    have hreturn : Opens "return " ["return"] := .of_layout ["return", " "] rfl (by decide)
    rw [Stmt.text, Stmt.words]
    exact ((hreturn.before (t.spells h)).before hsemicolon rfl).congr (by simp)
  | .noCase, _ => exact opens_failure "No case matches"

/-- The statements of a body are divided by blanks. -/
theorem opens_body (ss : List Stmt) (hss : ProperBody ss) : Opens (bodyText ss) (bodyWords ss) := by
  match ss, hss with
  | [], _ => exact fun _ _ h => h
  | s :: ss, h =>
    rw [ProperBody] at h
    rw [bodyText, bodyWords]
    exact ((opens_blank.append (s.opens h.1)).append (opens_body ss h.2)).congr (by simp)
end

/-- Only the words of a cell start with a brace. -/
theorem Term.isCell_of_head?_words {t : Term} (ht : t.Proper)
    (hbrace : t.words.head? = some lbrace) : t.isCell := by
  obtain ⟨c, hc, hblank, hcell⟩ := t.head?_text ht
  obtain ⟨cs, hcs⟩ := List.head?_eq_some_iff.1 hc
  obtain ⟨heq, -⟩ | ⟨_, heq, -⟩ | ⟨w, rest, us, heq, hws, -⟩ := (t.spells ht).scans.cases_text
  · simp [hcs] at heq
  · rw [hcs] at heq
    cases heq
    exact absurd rfl hblank
  · obtain rfl : w = lbrace := by simpa [hws] using hbrace
    rw [hcs] at heq
    exact hcell.1 (List.cons.inj heq).1

end LetPoly.Script
