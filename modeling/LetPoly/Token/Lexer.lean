import LetPoly.SyntaxError

/-! # From characters to tokens

A source is read from left to right.  Blanks and comments are passed over; what
follows is one **lexeme**, whose span is what it takes from the source.  Reading
never stops early: a character that starts no token, an unknown escape and a
string without its closing quote are kept as faults, and the first of them is the
fault of the whole source.
-/

namespace LetPoly.Token

/-! ## Blanks and comments -/

/-- The characters between tokens: spaces, tabs, newlines and carriage returns. -/
def isSeparator (c : Char) : Bool := c = ' ' || c = '\t' || c = '\n' || c = '\r'

/-- The characters before the next lexeme, and what follows them.  A comment
starts with two slashes and ends with its line. -/
def skip (inComment : Bool) : List Char → List Char × List Char
  | [] => ([], [])
  | c :: cs =>
    if inComment then
      let (gap, rest) := skip (c != '\n') cs
      (c :: gap, rest)
    else if isSeparator c then
      let (gap, rest) := skip false cs
      (c :: gap, rest)
    else if c = '/' && cs.head? = some '/' then
      let (gap, rest) := skip true cs
      (c :: gap, rest)
    else ([], c :: cs)

/-! ## Lexemes -/

/-- One lexeme: what it is, what it takes from the source, and what is wrong with
it. -/
structure Lexeme where
  kind : Kind
  literal : String
  span : List Char
  rest : List Char
  fault : Option SyntaxError := none

/-- A character that may start a word. -/
def isLetter (c : Char) : Bool := ('a' ≤ c && c ≤ 'z') || ('A' ≤ c && c ≤ 'Z') || c = '_'

/-- A character that may go on a word. -/
def isWordChar (c : Char) : Bool := isLetter c || Text.Decimal.isDigit c

/-- What is read of a string after its opening quote. -/
structure StringTail where
  /-- The text that the string denotes. -/
  content : List Char
  closed : Bool
  span : List Char
  rest : List Char
  fault : Option SyntaxError := none

/-- Puts a part of a string in front of what follows it. -/
def StringTail.before (tail : StringTail) (content span : List Char)
    (fault : Option SyntaxError) : StringTail :=
  { tail with content := content ++ tail.content, span := span ++ tail.span, fault := fault <|> tail.fault }

/-- The character that an escape stands for. -/
def escape? (c : Char) : Option Char :=
  if c = '"' || c = '\\' then some c
  else if c = 'n' then some '\n'
  else if c = 't' then some '\t'
  else none

/-- Reads a string after its opening quote.  A character after a backslash that
makes no escape is kept as it is, with a fault at the backslash. -/
def stringTail (p : Pos) : List Char → StringTail
  | [] => { content := [], closed := false, span := [], rest := [] }
  | '"' :: cs => { content := [], closed := true, span := ['"'], rest := cs }
  | ['\\'] => { content := [], closed := false, span := ['\\'], rest := [] }
  | '\\' :: c :: cs =>
    let tail := stringTail ((p.advance '\\').advance c) cs
    match escape? c with
    | some d => tail.before [d] ['\\', c] none
    | none => tail.before [c] ['\\', c] (some ⟨p, .unknownEscape c⟩)
  | c :: cs => (stringTail (p.advance c) cs).before [c] [c] none

/-- The lexeme at the front of a source that starts with no blank. -/
def lexeme (p : Pos) (c : Char) (cs : List Char) : Lexeme :=
  if c = '"' then
    let tail := stringTail (p.advance c) cs
    let fault := tail.fault <|> if tail.closed then none else some ⟨p, .openString⟩
    { kind := if tail.closed then .string else .illegal
      literal := String.ofList tail.content
      span := c :: tail.span, rest := tail.rest, fault }
  else if isLetter c then
    let word := c :: cs.takeWhile isWordChar
    { kind := .ofWord (String.ofList word), literal := String.ofList word
      span := word, rest := cs.dropWhile isWordChar }
  else if Text.Decimal.isDigit c then
    let numeral := c :: cs.takeWhile Text.Decimal.isDigit
    { kind := .int, literal := String.ofList numeral
      span := numeral, rest := cs.dropWhile Text.Decimal.isDigit }
  else match Kind.symbols.find? (·.name.toList.isPrefixOf (c :: cs)) with
    | some k =>
      { kind := k, literal := k.name
        span := k.name.toList, rest := (c :: cs).drop k.name.toList.length }
    | none =>
      { kind := .illegal, literal := String.singleton c
        span := [c], rest := cs, fault := some ⟨p, .strayChar c⟩ }

/-! ## Nothing is lost -/

theorem skip_append (inComment : Bool) (cs : List Char) :
    (skip inComment cs).1 ++ (skip inComment cs).2 = cs := by
  fun_induction skip inComment cs <;> simp_all

theorem stringTail_append (p : Pos) (cs : List Char) :
    (stringTail p cs).span ++ (stringTail p cs).rest = cs := by
  fun_induction stringTail p cs <;> simp_all +zetaDelta [StringTail.before]

/-- A lexeme takes its span from the front of the source. -/
theorem lexeme_append (p : Pos) (c : Char) (cs : List Char) :
    (lexeme p c cs).span ++ (lexeme p c cs).rest = c :: cs := by
  unfold lexeme
  split
  · simp [stringTail_append]
  · split
    · simp
    · split
      · simp
      · split
        · next k hk =>
          have h := List.find?_some hk
          simp only [List.isPrefixOf_iff_prefix] at h
          obtain ⟨t, ht⟩ := h
          simp [← ht]
        · simp

theorem symbols_name_ne_nil : ∀ k ∈ Kind.symbols, k.name.toList ≠ [] := by decide

/-- A lexeme is never empty. -/
theorem lexeme_span_ne_nil (p : Pos) (c : Char) (cs : List Char) :
    (lexeme p c cs).span ≠ [] := by
  unfold lexeme
  split
  · simp
  · split
    · simp
    · split
      · simp
      · split
        · next k hk => exact symbols_name_ne_nil k (List.mem_of_find?_eq_some hk)
        · simp

theorem lexeme_rest_length (p : Pos) (c : Char) (cs : List Char) :
    (lexeme p c cs).rest.length ≤ cs.length := by
  have h := congrArg List.length (lexeme_append p c cs)
  have hne := List.length_pos_iff.2 (lexeme_span_ne_nil p c cs)
  simp only [List.length_append, List.length_cons] at h
  omega

/-! ## The tokens of a source -/

/-- The tokens of a source and its first fault. -/
structure Scan where
  tokens : List Token
  fault : Option SyntaxError

/-- Reads a source whose first character stands at `p`. -/
def scanFrom (p : Pos) (cs : List Char) : Scan :=
  match _h : skip false cs with
  | (gap, []) => { tokens := [⟨.eof, "", p.advanceAll gap⟩], fault := none }
  | (gap, c :: rest) =>
    let q := p.advanceAll gap
    let l := lexeme q c rest
    let more := scanFrom (q.advanceAll l.span) l.rest
    { tokens := ⟨l.kind, l.literal, q⟩ :: more.tokens, fault := l.fault <|> more.fault }
termination_by cs.length
decreasing_by
  have happ := congrArg List.length (skip_append false cs)
  have hle := lexeme_rest_length (p.advanceAll gap) c rest
  simp only [_h, List.length_append, List.length_cons] at happ
  omega

/-- **The tokens of a source**, ended by the only token of kind `eof`, and its
first fault. -/
def scan (cs : List Char) : Scan := scanFrom .start cs

end LetPoly.Token
