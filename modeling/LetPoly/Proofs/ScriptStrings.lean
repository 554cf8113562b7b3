import LetPoly.Proofs.ScriptGrammar
import LetPoly.Script.Compile

/-! # What the texts of a script denote

A text between quotes denotes a row of UTF-16 units, by the rules of ECMAScript for string
literals (`literalUnits?`).  The literals of a script are written with escapes of another
language.  Most of them are read as they are meant, but two are not among those of
ECMAScript, where a backslash before any other character stands for that character: `\a`,
for the bell, is read as the letter, and `\U` with eight digits, for what is not printable
beyond the first plane, as nine characters (`received`).

So a text keeps its value exactly if it has no such character (`compile_string_units`).
-/

namespace LetPoly.Script

open Text
open Text.Decimal (isDigit)

/-! ## The rules for string literals -/

/-- The UTF-16 units of a code point. -/
def unitsOf (n : Nat) : List Nat :=
  if n < 0x10000 then [n] else [0xD800 + (n - 0x10000) / 0x400, 0xDC00 + (n - 0x10000) % 0x400]

/-- **A text in UTF-16.** -/
def utf16 (s : String) : List Nat := s.toList.flatMap fun c => unitsOf c.toNat

/-- The value of a digit of base sixteen, in either case. -/
def hexValue? (c : Char) : Option Nat :=
  if isDigit c then some (c.toNat - '0'.toNat)
  else if 'a' ≤ c && c ≤ 'f' then some (c.toNat - 'a'.toNat + 10)
  else if 'A' ≤ c && c ≤ 'F' then some (c.toNat - 'A'.toNat + 10)
  else none

/-- The number that is written in base sixteen. -/
def hexNumber? (cs : List Char) : Option Nat :=
  cs.foldlM (fun n c => (hexValue? c).map (16 * n + ·)) 0

/-- The letters that stand for a control character after a backslash. -/
def controlLetters : List (Char × Nat) :=
  [('b', 0x08), ('t', 0x09), ('n', 0x0A), ('v', 0x0B), ('f', 0x0C), ('r', 0x0D)]

/-- What a backslash stands for with the single character after it: a control character,
nothing before the end of a line, and else the character itself.  Digits are no escapes,
but for a zero before none. -/
def singleEscape? (c : Char) (cs : List Char) : Option (List Nat) :=
  match controlLetters.lookup c with
  | some n => some [n]
  | none =>
    if c = '0' then if cs.head?.any isDigit then none else some [0]
    else if isDigit c then none
    else if ['\n', '\r', '\u2028', '\u2029'].contains c then some []
    else some (unitsOf c.toNat)

/-- What a backslash stands for with the characters after it, and what follows them. -/
def escape? : List Char → Option (List Nat × List Char)
  | 'x' :: a :: b :: cs => (hexNumber? [a, b]).map fun n => ([n], cs)
  | 'u' :: '\x7b' :: cs =>
    match hexNumber? (cs.takeWhile isHexDigit), cs.dropWhile isHexDigit with
    | some n, '\x7d' :: rest =>
      if (cs.takeWhile isHexDigit).isEmpty || 0x10FFFF < n then none else some (unitsOf n, rest)
    | _, _ => none
  | 'u' :: a :: b :: c :: d :: cs => (hexNumber? [a, b, c, d]).map fun n => ([n], cs)
  | '\r' :: '\n' :: cs => some ([], cs)
  | c :: cs => if c = 'x' || c = 'u' then none else (singleEscape? c cs).map fun us => (us, cs)
  | [] => none

theorem length_escape? {cs rest : List Char} {us : List Nat} (h : escape? cs = some (us, rest)) :
    rest.length < cs.length := by
  unfold escape? at h
  split at h
  · obtain ⟨_, -, hn⟩ := Option.map_eq_some_iff.1 h
    cases hn
    simp only [List.length_cons]
    omega
  · rename_i cs
    split at h
    · rename_i n rest' _ hdrop
      split at h
      · cases h
      · cases h
        have hle := (List.dropWhile_suffix isHexDigit (l := cs)).length_le
        rw [hdrop] at hle
        simp only [List.length_cons] at hle ⊢
        omega
    · cases h
  · obtain ⟨_, -, hn⟩ := Option.map_eq_some_iff.1 h
    cases hn
    simp only [List.length_cons]
    omega
  · cases h
    simp only [List.length_cons]
    omega
  · split at h
    · cases h
    · obtain ⟨_, -, hn⟩ := Option.map_eq_some_iff.1 h
      cases hn
      simp
  · cases h

/-- What stands after the opening quote, up to the closing quote that ends it. -/
def textUnits? : List Char → Option (List Nat)
  | [] => none
  | c :: cs =>
    if c = '"' then if cs.isEmpty then some [] else none
    else if c = '\\' then
      match _h : escape? cs with
      | some (us, rest) => (textUnits? rest).map (us ++ ·)
      | none => none
    else if c = '\n' || c = '\r' then none
    else (textUnits? cs).map (unitsOf c.toNat ++ ·)
termination_by cs => cs.length
decreasing_by
  · have := length_escape? _h
    simp only [List.length_cons]
    omega
  · simp

/-- **The units that a text between quotes denotes.** -/
def literalUnits? (w : String) : Option (List Nat) :=
  match w.toList with
  | '"' :: cs => textUnits? cs
  | _ => none

/-! ## Numbers in base sixteen -/

theorem hexValue?_hexDigit (n : Nat) : hexValue? (hexDigit n) = some (n % 16) := by
  have hdigits : ∀ m < 16, hexValue? (Nat.digitChar m) = some m := by decide
  exact hdigits (n % 16) (Nat.mod_lt n (by decide))

theorem hexNumber?_hex (w n : Nat) : hexNumber? (hex w n) = some (n % Nat.pow 16 w) := by
  induction w generalizing n with
  | zero => simp [hex, hexNumber?, Nat.mod_one]
  | succ w ih =>
    have hlast : hexNumber? (hex w (n / 16) ++ [hexDigit n]) =
        (hexNumber? (hex w (n / 16))).bind fun m => (hexValue? (hexDigit n)).map (16 * m + ·) := by
      simp [hexNumber?, List.foldlM_append]
    have hpow : Nat.pow 16 (w + 1) = 16 * Nat.pow 16 w := Nat.mul_comm _ _
    rw [hex, hlast, ih, hexValue?_hexDigit, hpow, Nat.mod_mul]
    simp [Nat.add_comm]

/-- A character that stands for itself between quotes. -/
def isPlain (c : Char) : Bool := !(['"', '\\', '\n', '\r'].contains c)

theorem isPlain_hexDigit (n : Nat) : isPlain (hexDigit n) = true := by
  have hdigits : ∀ m < 16, isPlain (Nat.digitChar m) = true := by decide
  exact hdigits (n % 16) (Nat.mod_lt n (by decide))

theorem isPlain_of_mem_hex {w n : Nat} {c : Char} (h : c ∈ hex w n) : isPlain c = true := by
  induction w generalizing n with
  | zero => cases h
  | succ w ih =>
    rcases List.mem_append.1 h with h | h
    · exact ih h
    · rw [List.mem_singleton.1 h]
      exact isPlain_hexDigit n

/-! ## Reading what is written -/

theorem textUnits?_plain {c : Char} (h : isPlain c = true) (cs : List Char) :
    textUnits? (c :: cs) = (textUnits? cs).map (unitsOf c.toNat ++ ·) := by
  simp only [isPlain, Bool.not_eq_true', List.contains_eq_mem, decide_eq_false_iff_not,
    List.mem_cons, List.not_mem_nil, or_false, not_or] at h
  rw [textUnits?]
  simp [h]

theorem textUnits?_escape {cs rest : List Char} {us : List Nat}
    (h : escape? cs = some (us, rest)) :
    textUnits? ('\\' :: cs) = (textUnits? rest).map (us ++ ·) := by
  rw [textUnits?]
  simp only [Char.reduceEq, if_false, if_true]
  split
  · next us' rest' h' =>
    rw [h] at h'
    cases h'
    rfl
  · next h' =>
    rw [h] at h'
    cases h'

theorem textUnits?_plains {ds : List Char} (h : ∀ d ∈ ds, isPlain d = true) (cs : List Char) :
    textUnits? (ds ++ cs) = (textUnits? cs).map ((ds.flatMap fun d => unitsOf d.toNat) ++ ·) := by
  induction ds with
  | nil => simp
  | cons d ds ih =>
    obtain ⟨hd, hds⟩ := List.forall_mem_cons.1 h
    rw [List.cons_append, textUnits?_plain hd, ih hds, Option.map_map]
    congr 1
    funext us
    simp

/-- The character keeps its value in a literal: it is not the bell, and it is printable or in the
first plane. -/
def isKept (c : Char) : Bool := c != '\x07' && (c.toNat < 0x10000 || isPrintable c)

/-- **What is read of a character that is written in a literal.**  The bell becomes the letter
of its escape, and what is not printable beyond the first plane the letter `U` and eight
digits. -/
def received (c : Char) : List Nat :=
  if isKept c then unitsOf c.toNat
  else if c = '\x07' then unitsOf 'a'.toNat
  else ('U' :: hex 8 c.toNat).flatMap fun d => unitsOf d.toNat

theorem escape?_short {n : Nat} (hn : n < 0x100) (cs : List Char) :
    escape? ('x' :: hex 2 n ++ cs) = some (unitsOf n, cs) := by
  have hdigits : hex 2 n = [hexDigit (n / 16), hexDigit n] := rfl
  have hvalue : hexNumber? [hexDigit (n / 16), hexDigit n] = some n := by
    rw [← hdigits, hexNumber?_hex, Nat.mod_eq_of_lt (by omega)]
  rw [hdigits, unitsOf, if_pos (by omega)]
  simp [escape?, hvalue]

theorem escape?_long {n : Nat} (hn : n < 0x10000) (cs : List Char) :
    escape? ('u' :: hex 4 n ++ cs) = some (unitsOf n, cs) := by
  have hdigits : hex 4 n =
      [hexDigit (n / 16 / 16 / 16), hexDigit (n / 16 / 16), hexDigit (n / 16), hexDigit n] := rfl
  have hvalue := hexNumber?_hex 4 n
  rw [Nat.mod_eq_of_lt (by omega)] at hvalue
  have hbrace : ∀ m < 16, Nat.digitChar m ≠ '\x7b' := by decide
  have hfirst : hexDigit (n / 16 / 16 / 16) ≠ '\x7b' := hbrace _ (Nat.mod_lt _ (by decide))
  rw [hdigits] at hvalue ⊢
  rw [unitsOf, if_pos hn]
  generalize hexDigit (n / 16 / 16 / 16) = a at *
  simp [escape?, hvalue]

theorem textUnits?_printable {c : Char} (hquote : c ≠ '"') (hslash : c ≠ '\\')
    (hprintable : isPrintable c) (cs : List Char) :
    textUnits? (c :: cs) = (textUnits? cs).map (received c ++ ·) := by
  have hne (d : Char) (hd : isPrintable d = false) : c ≠ d := by
    rintro rfl
    simp [hprintable] at hd
  have hplain : isPlain c = true := by
    simp [isPlain, hquote, hslash, hne '\n' rfl, hne '\r' rfl]
  have hreceived : received c = unitsOf c.toNat :=
    if_pos (by simp [isKept, hprintable, hne '\x07' rfl])
  rw [hreceived]
  exact textUnits?_plain hplain cs

/-- A backslash before `U` is dropped, and the digits stand for themselves. -/
theorem textUnits?_wide {c : Char} (hbell : c ≠ '\x07') (hwide : ¬c.toNat < 0x10000)
    (hprintable : ¬isPrintable c) (cs : List Char) :
    textUnits? ('\\' :: 'U' :: hex 8 c.toNat ++ cs) = (textUnits? cs).map (received c ++ ·) := by
  have hreceived : received c = ('U' :: hex 8 c.toNat).flatMap fun d => unitsOf d.toNat := by
    simp [received, isKept, hbell, hwide, hprintable]
  have hread : escape? ('U' :: (hex 8 c.toNat ++ cs)) =
      some (unitsOf 'U'.toNat, hex 8 c.toNat ++ cs) := rfl
  rw [List.cons_append, List.cons_append, textUnits?_escape hread,
    textUnits?_plains fun d hd => isPlain_of_mem_hex hd, Option.map_map, hreceived]
  congr 1

/-- One character of a literal is read, whatever follows it. -/
theorem textUnits?_escapedWithin (c : Char) (cs : List Char) :
    textUnits? (escapedWithin '"' c ++ cs) = (textUnits? cs).map (received c ++ ·) := by
  have hletter {e : Char} (d : Char) (h : c = d)
      (hread : escape? (e :: cs) = some (received d, cs)) :
      textUnits? ('\\' :: e :: cs) = (textUnits? cs).map (received c ++ ·) :=
    h ▸ textUnits?_escape hread
  have hcode (d : Char) (h : c.toNat = d.toNat) : c = d := Char.toNat_inj.1 h
  unfold escapedWithin
  by_cases hquote : c = '"'
  · rw [if_pos hquote]
    exact hletter '"' hquote rfl
  by_cases hslash : c = '\\'
  · rw [if_neg hquote, if_pos hslash]
    exact hletter '\\' hslash rfl
  rw [if_neg hquote, if_neg hslash]
  by_cases hprintable : isPrintable c
  · rw [if_pos hprintable]
    exact textUnits?_printable hquote hslash hprintable cs
  rw [if_neg hprintable]
  -- the control characters that have a letter of their own, and then the codes
  split
  · next h => exact hletter '\x07' (hcode _ h) rfl
  · next h => exact hletter '\x08' (hcode _ h) rfl
  · next h => exact hletter '\x0c' (hcode _ h) rfl
  · next h => exact hletter '\n' (hcode _ h) rfl
  · next h => exact hletter '\r' (hcode _ h) rfl
  · next h => exact hletter '\t' (hcode _ h) rfl
  · next h => exact hletter '\x0b' (hcode _ h) rfl
  · next hbell _ _ _ _ _ _ =>
    have hne : c ≠ '\x07' := fun h => hbell (congrArg Char.toNat h)
    have hkept (h : c.toNat < 0x10000) : received c = unitsOf c.toNat :=
      if_pos (by simp [isKept, h, hne])
    split
    · next h =>
      rw [hkept (by omega)]
      exact textUnits?_escape (escape?_short (by omega) cs)
    split
    · next h =>
      rw [hkept h]
      exact textUnits?_escape (escape?_long h cs)
    · next h => exact textUnits?_wide hne h hprintable cs

/-- **What a literal denotes**, character by character. -/
theorem literalUnits?_escaped (s : String) :
    literalUnits? (escaped s) = some (s.toList.flatMap received) := by
  have hchars (cs : List Char) :
      textUnits? (cs.flatMap (escapedWithin '"') ++ ['"']) = some (cs.flatMap received) := by
    induction cs with
    | nil =>
      rw [List.flatMap_nil, List.nil_append, textUnits?]
      rfl
    | cons c cs ih =>
      rw [List.flatMap_cons, List.append_assoc, textUnits?_escapedWithin, ih]
      rfl
  rw [literalUnits?, escaped, String.toList_ofList]
  exact hchars s.toList

/-! ## Texts that keep their value -/

theorem isKept_iff {c : Char} :
    isKept c = true ↔ c ≠ '\x07' ∧ (c.toNat < 0x10000 ∨ isPrintable c = true) := by
  simp [isKept]

theorem length_hex (w n : Nat) : (hex w n).length = w := by
  induction w generalizing n with
  | zero => rfl
  | succ w ih => simp [hex, ih]

theorem length_le_flatMap_unitsOf (cs : List Char) :
    cs.length ≤ (cs.flatMap fun d => unitsOf d.toNat).length := by
  induction cs with
  | nil => exact Nat.le_refl 0
  | cons c cs ih =>
    have hc : 1 ≤ (unitsOf c.toNat).length := by
      rw [unitsOf]
      split <;> simp
    rw [List.flatMap_cons, List.length_append, List.length_cons]
    omega

/-- No character is read as fewer units than it has. -/
theorem length_le_received (c : Char) : (unitsOf c.toNat).length ≤ (received c).length := by
  unfold received
  split
  · exact Nat.le_refl _
  split
  · next h =>
    subst h
    decide
  · have hunits : (unitsOf c.toNat).length ≤ 2 := by
      rw [unitsOf]
      split <;> simp
    have hlong := length_le_flatMap_unitsOf ('U' :: hex 8 c.toNat)
    rw [List.length_cons, length_hex] at hlong
    omega

theorem received_eq_iff {c : Char} : received c = unitsOf c.toNat ↔ isKept c = true := by
  refine ⟨fun h => ?_, fun h => if_pos h⟩
  by_cases hkept : isKept c
  · exact hkept
  by_cases hbell : c = '\x07'
  · subst hbell
    revert h
    decide
  · have hlong := length_le_flatMap_unitsOf ('U' :: hex 8 c.toNat)
    rw [received, if_neg hkept, if_neg hbell] at h
    rw [h, List.length_cons, length_hex, unitsOf] at hlong
    split at hlong <;> simp at hlong

/-- Rows that are joined from parts, none shorter than its counterpart, are equal only if the
parts are. -/
theorem flatMap_received_eq_iff (cs : List Char) :
    cs.flatMap received = (cs.flatMap fun c => unitsOf c.toNat) ↔
      ∀ c ∈ cs, isKept c = true := by
  have hlength (cs : List Char) :
      (cs.flatMap fun c => unitsOf c.toNat).length ≤ (cs.flatMap received).length := by
    induction cs with
    | nil => exact Nat.le_refl 0
    | cons c cs ih =>
      have hc := length_le_received c
      rw [List.flatMap_cons, List.flatMap_cons, List.length_append, List.length_append]
      omega
  induction cs with
  | nil => simp
  | cons c cs ih =>
    rw [List.forall_mem_cons, List.flatMap_cons, List.flatMap_cons]
    constructor
    · intro h
      have hsum := congrArg List.length h
      have hc := length_le_received c
      have hcs := hlength cs
      rw [List.length_append, List.length_append] at hsum
      obtain ⟨hfirst, hrest⟩ := List.append_inj h (by omega)
      exact ⟨received_eq_iff.1 hfirst, ih.1 hrest⟩
    · rintro ⟨hfirst, hrest⟩
      rw [received_eq_iff.2 hfirst, ih.2 hrest]

/-- **A string literal denotes its text if and only if the text has no bell, and beyond the first
plane only printable characters.**  What it denotes in any case are the units of `received`, and
a pattern compares with the same literal. -/
theorem compile_string_units (s : String) :
    ∃ t, compile (.string s) = .ok t ∧ t.text = (Literal.string s).text ∧
      literalUnits? t.text = some (s.toList.flatMap received) ∧
      (literalUnits? t.text = some (utf16 s) ↔
        ∀ c ∈ s.toList, c ≠ '\x07' ∧ (c.toNat < 0x10000 ∨ isPrintable c = true)) := by
  have htext : (Term.string s).text = escaped s := rfl
  refine ⟨.string s, rfl, rfl, literalUnits?_escaped s, ?_⟩
  rw [htext, literalUnits?_escaped, Option.some_inj, utf16, flatMap_received_eq_iff]
  simp only [isKept_iff]

/-- The bell is written as `\a`, which denotes the letter. -/
theorem compile_bell_denotes_letter :
    ∃ t, compile (.string "\x07") = .ok t ∧ t.text = "\"\\a\"" ∧
      literalUnits? t.text = some (utf16 "a") ∧ utf16 "a" ≠ utf16 "\x07" := by
  refine ⟨.string "\x07", rfl, by decide, ?_, by decide⟩
  exact literalUnits?_escaped "\x07"

end LetPoly.Script
