import LetPoly.Text.Utf8
import LetPoly.Yaml.Scalar

/-! # YAML tags

A tag says what a node is.  It is written in full, or as a handle and what follows it;
the handle then stands for the start of the tag.  A tag that starts with two marks is
one of the language's own, and it limits what a scalar may say.
-/

namespace LetPoly.Yaml

/-- A character of a tag. -/
def isTagChar (c : Char) : Bool := isNameChar c || ";/?:@&=+$,.!~*'()[]".toList.contains c

/-- The characters of a tag at the front of a text, and the rest.  A character may be
given by a percent sign and its code. -/
def tagText : List Char → Option (List Char × List Char)
  | [] => some ([], [])
  | c :: cs =>
    if c == '%' then
      match cs with
      | d₁ :: d₂ :: cs => do
        let e ← coded? [d₁, d₂]
        if e.toNat < 0x80 then
          let (text, rest) ← tagText cs
          return (e :: text, rest)
        else none
      | _ => none
    else if isTagChar c then do
      let (text, rest) ← tagText cs
      return (c :: text, rest)
    else some ([], c :: cs)

/-- A tag as it is written. -/
structure Tag where
  /-- What stands for the start of the tag; it is empty if the tag is written in full. -/
  handle : String
  suffix : String
deriving DecidableEq, Repr

namespace Tag

/-- **The tag after its first mark**, and the rest. -/
def read? (cs : List Char) : Option (Tag × List Char) := do
  let (tag, rest) ← match cs with
    | '<' :: cs => do
      match ← tagText cs with
      | (c :: text, '>' :: rest) => some (⟨"", String.ofList (c :: text)⟩, rest)
      | _ => none
    | cs =>
      let name := cs.takeWhile isNameChar
      match cs.dropWhile isNameChar with
      | '!' :: rest => do
        match ← tagText rest with
        | ([], _) => none
        | (text, rest) => some (⟨String.ofList ('!' :: name ++ ['!']), String.ofList text⟩, rest)
      | rest => do
        let (text, rest) ← tagText rest
        match name ++ text with
        | [] => some (⟨"", "!"⟩, rest)
        | suffix => some (⟨"!", String.ofList suffix⟩, rest)
  if atGap rest then some (tag, rest) else none

/-- The handles that every file knows. -/
def commonHandles : List (String × String) := [("!", "!"), ("!!", "!!")]

/-- The whole tag, if its handle is known. -/
def whole? (handles : List (String × String)) (t : Tag) : Option String :=
  if t.handle.isEmpty then some t.suffix
  else (handles.lookup t.handle).map (· ++ t.suffix)

end Tag

/-! ## Words -/

/-- A text that says that there is no value. -/
def isNullWord (s : String) : Bool := ["", "~", "null", "Null", "NULL"].contains s

/-- A text that is a truth value. -/
def isBoolWord (s : String) : Bool :=
  ["true", "True", "TRUE", "false", "False", "FALSE"].contains s

/-- A text without its sign, and whether it is negative. -/
def unsigned : List Char → Bool × List Char
  | '-' :: cs => (true, cs)
  | '+' :: cs => (false, cs)
  | cs => (false, cs)

/-- The number that some digits of a base make. -/
def digits? (base : Nat) (cs : List Char) : Option Nat := do
  let values ← cs.mapM hexValue?
  if values.all (· < base) then some (values.foldl (fun n d => base * n + d) 0) else none

/-- A text that is a whole number of 64 bits.  A leading zero tells the base. -/
def isWholeWord (s : String) : Bool :=
  let cs := s.toList.filter (· != '_')
  let (negative, digits) := unsigned cs
  let value := match digits with
    | [] => none
    | '0' :: c :: d :: ds =>
      if c == 'b' || c == 'B' then digits? 2 (d :: ds)
      else if c == 'o' || c == 'O' then digits? 8 (d :: ds)
      else if c == 'x' || c == 'X' then digits? 16 (d :: ds)
      else digits? 8 (c :: d :: ds)
    | '0' :: ds => digits? 8 ds
    | ds => digits? 10 ds
  let limit :=
    if negative then 0x8000000000000000
    else if digits.length < cs.length then 0x7FFFFFFFFFFFFFFF
    else 0xFFFFFFFFFFFFFFFF
  s.toList.head? != some '_' && value.any (· ≤ limit)

/-- A text that is a decimal number. -/
def isDecimalWord (s : String) : Bool :=
  let cs := if s.toList.head? == some '.' then s.toList else s.toList.filter (· != '_')
  let digits := (unsigned cs).2
  let whole := digits.takeWhile Char.isDigit
  let after := digits.dropWhile Char.isDigit
  let (part, after) := match after with
    | '.' :: after => (after.takeWhile Char.isDigit, after.dropWhile Char.isDigit)
    | after => ([], after)
  let exponent := match after with
    | [] => true
    | e :: after =>
      let power := (unsigned after).2
      (e == 'e' || e == 'E') && !power.isEmpty && power.all Char.isDigit
  let words := [".nan", ".NaN", ".NAN"] ++
    [".inf", ".Inf", ".INF"].flatMap (fun w => [w, "+" ++ w, "-" ++ w])
  words.contains s ||
    (s.toList.head? != some '_' && !(whole ++ part).isEmpty && exponent)

/-! ## Bytes as letters -/

/-- The six bits that a letter stands for. -/
def sixBits? (c : Char) : Option Nat :=
  if c.isUpper then some (c.toNat - 'A'.toNat)
  else if c.isLower then some (c.toNat - 'a'.toNat + 26)
  else if c.isDigit then some (c.toNat - '0'.toNat + 52)
  else if c == '+' then some 62
  else if c == '/' then some 63
  else none

/-- The bytes that groups of four letters stand for.  Equals signs fill the last group. -/
def bytes? : List Char → Option (List UInt8)
  | [] => some []
  | [a, b, '=', '='] => do
    let n := (← sixBits? a) * 64 + (← sixBits? b)
    return [UInt8.ofNat (n / 16)]
  | [a, b, c, '='] => do
    let n := ((← sixBits? a) * 64 + (← sixBits? b)) * 64 + (← sixBits? c)
    return [UInt8.ofNat (n / 1024), UInt8.ofNat (n / 4)]
  | a :: b :: c :: d :: cs => do
    let n := (((← sixBits? a) * 64 + (← sixBits? b)) * 64 + (← sixBits? c)) * 64 + (← sixBits? d)
    let more ← bytes? cs
    return UInt8.ofNat (n / 65536) :: UInt8.ofNat (n / 256) :: UInt8.ofNat n :: more
  | _ => none

/-! ## What a scalar says -/

/-- What a scalar says. -/
inductive Sense where
  /-- There is no value. -/
  | nothing
  | text
  /-- The key under which a map takes over the entries of others. -/
  | takeOver
deriving DecidableEq, Repr

/-- **What a scalar says by its tag**, and its text.  A plain scalar without a tag says
nothing if it is the word for that. -/
def sense? (plain : Bool) (tag : Option String) (s : String) : Option (Sense × String) :=
  let only (fits : Bool) := if fits then some (Sense.text, s) else none
  match tag.getD "!" with
  | "!" =>
    if plain && isNullWord s then some (.nothing, s)
    else if plain && s == "<<" then some (.takeOver, s)
    else some (.text, s)
  | "!!null" => if isNullWord s then some (.nothing, s) else none
  | "!!bool" => only (isBoolWord s)
  | "!!int" => only (isWholeWord s)
  | "!!float" => only (isWholeWord s || isDecimalWord s)
  | "!!merge" => some (if s == "<<" then .takeOver else .text, s)
  | "!!binary" => do
    let bytes ← bytes? (s.toList.filter (fun c => c != '\n' && c != '\r'))
    return (.text, String.ofList (Text.decode bytes))
  | _ => some (.text, s)

end LetPoly.Yaml
