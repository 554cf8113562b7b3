import LetPoly.Proofs.RoundTrip
import LetPoly.Proofs.Runes
import LetPoly.Proofs.Runs

/-! # Numbers in letters

Type variables that are numbered are shown by letters, in the numeral system with the digits
`a` = 1 to `z` = 26 and no zero.  Read in this system (`ofLetters`), the letters of a number give
the number back (`ofLetters_letters`), so no two numbers have the same letters.

The letters can be written from the right into a row of cells, the last one first
(`Cells.writeLetters`).  This goes well as long as there is a cell for each of them
(`Cells.writeLetters_eq`), and the numbers with at most `k` letters are those up to
`greatest k` (`length_letters_le_iff`).  For words of 64 bits 14 cells are enough.

A positive number that is too large for a word is shown by its numeral, which has no letter.  So
the names that are positive numerals are all shown differently
(`displayName_natural_injective`).
-/

namespace LetPoly

/-! ## The letters of a number -/

theorem letters_zero : letters 0 = [] := by
  rw [letters, if_pos rfl]

theorem letters_of_pos {n : Nat} (h : 0 < n) :
    letters n = letters ((n - 1) / 26) ++ [Char.ofNat ('a'.toNat + (n - 1) % 26)] := by
  rw [letters, if_neg (by omega)]

/-- A letter for each remainder, which is a single byte. -/
theorem letter_eq : ∀ i < 26, (Char.ofNat ('a'.toNat + i)).isLower ∧
    (Char.ofNat ('a'.toNat + i)).toNat = 'a'.toNat + i ∧
    (Char.ofNat ('a'.toNat + i)).toUInt8 = UInt8.ofNat ('a'.toNat + i) := by
  decide

theorem isLower_of_mem_letters {n : Nat} {c : Char} (h : c ∈ letters n) : c.isLower := by
  fun_induction letters n with
  | case1 => simp at h
  | case2 n hn ih =>
    rcases List.mem_append.1 h with h | h
    · exact ih h
    · rw [List.mem_singleton.1 h]
      exact (letter_eq _ (Nat.mod_lt _ (by decide))).1

theorem between_of_isLower {c : Char} (h : c.isLower) : 'a' ≤ c ∧ c ≤ 'z' := by
  simpa [Char.isLower, Char.le_def] using h

theorem toNat_lt_of_isLower {c : Char} (h : c.isLower) : c.toNat < 0x80 := by
  obtain ⟨-, hle⟩ := between_of_isLower h
  exact Nat.lt_of_le_of_lt (UInt32.le_iff_toNat_le.1 hle) (by decide)

/-- **The number that a row of letters stands for**, with `a` = 1 to `z` = 26. -/
def ofLetters (cs : List Char) : Nat := cs.foldl (fun n c => 26 * n + (c.toNat - 'a'.toNat + 1)) 0

/-- **The letters of a number stand for it.** -/
theorem ofLetters_letters (n : Nat) : ofLetters (letters n) = n := by
  fun_induction letters n with
  | case1 => rfl
  | case2 n hn ih =>
    rw [ofLetters] at ih
    rw [ofLetters, List.foldl_append, ih, List.foldl_cons, List.foldl_nil,
      (letter_eq _ (Nat.mod_lt _ (by decide))).2.1]
    omega

/-- **Numbers have different letters.** -/
theorem letters_injective {m n : Nat} (h : letters m = letters n) : m = n := by
  rw [← ofLetters_letters m, h, ofLetters_letters]

/-- The greatest number with at most so many letters. -/
def greatest : Nat → Nat
  | 0 => 0
  | k + 1 => 26 * (greatest k + 1)

theorem length_letters_le_iff (k n : Nat) : (letters n).length ≤ k ↔ n ≤ greatest k := by
  induction k generalizing n with
  | zero =>
    rcases Nat.eq_zero_or_pos n with rfl | hn
    · simp [letters_zero]
    · simp [letters_of_pos hn, greatest]
      omega
  | succ k ih =>
    rcases Nat.eq_zero_or_pos n with rfl | hn
    · simp [letters_zero]
    · have hrest := ih ((n - 1) / 26)
      rw [letters_of_pos hn, List.length_append, List.length_singleton, greatest]
      omega

/-! ## Writing from the right -/

/-- A row of cells that are written from the right; the first `free` of them are still to be
written. -/
structure Cells (size : Nat) where
  bytes : Vector UInt8 size
  free : Nat
  free_le : free ≤ size

namespace Cells
variable {size : Nat}

/-- Cells none of which is written. -/
def blank (size : Nat) : Cells size := ⟨Vector.replicate size 0, size, Nat.le_refl size⟩

/-- What has been written. -/
def written (c : Cells size) : List UInt8 := c.bytes.toList.drop c.free

/-- Writes a byte into the last free cell; `none` if no cell is free. -/
def write? (c : Cells size) (b : UInt8) : Option (Cells size) :=
  if h : 0 < c.free then
    have hle := c.free_le
    some ⟨c.bytes.set (c.free - 1) b (by omega), c.free - 1, by omega⟩
  else none

/-- Writes the letters of a number, the last one first. -/
def writeLetters (c : Cells size) (n : Nat) : Option (Cells size) :=
  if n = 0 then some c
  else do
    let c ← c.write? (UInt8.ofNat ('a'.toNat + (n - 1) % 26))
    c.writeLetters ((n - 1) / 26)
termination_by n
decreasing_by omega

theorem written_blank : (blank size).written = [] := by
  simp [written, blank]

theorem write?_eq {c : Cells size} (h : 0 < c.free) (b : UInt8) :
    ∃ d, c.write? b = some d ∧ d.free + 1 = c.free ∧ d.written = b :: c.written := by
  have hle := c.free_le
  refine ⟨_, dif_pos h, Nat.sub_add_cancel h, ?_⟩
  have hlength : c.free - 1 < (c.bytes.toList.set (c.free - 1) b).length := by simp; omega
  rw [written, written, Vector.toList_set, List.drop_eq_getElem_cons hlength,
    List.getElem_set_self, List.drop_set_of_lt (by omega), Nat.sub_add_cancel h]

/-- **With a cell for each of them, the letters of a number are written in front of what is there
already.** -/
theorem writeLetters_eq (n : Nat) {c : Cells size} (h : (letters n).length ≤ c.free) :
    ∃ d, c.writeLetters n = some d ∧ d.written = (letters n).map Char.toUInt8 ++ c.written := by
  induction n using Nat.strongRecOn generalizing c with
  | ind n ih =>
    rw [writeLetters]
    rcases Nat.eq_zero_or_pos n with rfl | hn
    · exact ⟨c, rfl, by simp [letters_zero]⟩
    · rw [letters_of_pos hn, List.length_append, List.length_singleton] at h
      obtain ⟨d, hd, hfree, hwritten⟩ :=
        c.write?_eq (by omega) (UInt8.ofNat ('a'.toNat + (n - 1) % 26))
      obtain ⟨d', hd', hwritten'⟩ := ih ((n - 1) / 26) (by omega) (c := d) (by omega)
      refine ⟨d', ?_, ?_⟩
      · rw [if_neg (by omega), hd]
        exact hd'
      · rw [hwritten', hwritten, letters_of_pos hn, List.map_append, List.map_singleton,
          (letter_eq _ (Nat.mod_lt _ (by decide))).2.2, List.append_assoc, List.singleton_append]

end Cells

/-! ## Numerals as names -/

theorem not_isDigit_of_isLower {c : Char} (h : c.isLower) : c.isDigit = false := by
  simp only [Char.isLower, Char.isDigit, ge_iff_le, decide_eq_true_eq, Bool.and_eq_true,
    UInt32.le_iff_toNat_le, Bool.and_eq_false_iff, decide_eq_false_iff_not] at h ⊢
  right
  have h1 : 'a'.val.toNat = 97 := by decide
  have h2 : '9'.val.toNat = 57 := by decide
  omega

/-- A number is shown by its letters, and by its numeral where it is too large for a word. -/
theorem displayName_natural {n : Nat} (hn : 0 < n) :
    displayName (Text.Decimal.natural n) =
      String.ofList (if n < Supply.capacity then letters n else Nat.toDigits 10 n) := by
  have hcapacity : Supply.capacity = 9223372036854775808 := by decide
  rw [displayName, Text.Decimal.signed?_natural_eq, Text.Decimal.fit?, Int64.toInt_minValue,
    Int64.toInt_maxValue]
  by_cases hlt : n < Supply.capacity
  · have hint : (Int64.ofInt n).toInt = n := by
      rw [Int64.ofInt_eq_ofNat, Int64.toInt_ofNat_of_lt hlt]
    have hpos : 0 < Int64.ofInt n := by
      rw [Int64.lt_iff_toInt_lt, hint, Int64.toInt_zero]
      omega
    rw [if_pos (by omega), if_pos hlt]
    simp only [if_pos hpos, hint, Int.toNat_natCast]
  · rw [if_neg (by omega), if_neg hlt]
    rfl

/-- The letters of a number may be a keyword. -/
example : displayName "240" = Token.Kind.kwIf.name := by cbv

/-- **No two numbers are shown alike.** -/
theorem displayName_natural_injective {m n : Nat} (hm : 0 < m) (hn : 0 < n)
    (h : displayName (Text.Decimal.natural m) = displayName (Text.Decimal.natural n)) : m = n := by
  -- letters are no digits
  have hapart {m n : Nat} (hm : 0 < m) : letters m ≠ Nat.toDigits 10 n := by
    intro heq
    obtain ⟨c, hc⟩ := List.exists_mem_of_ne_nil (letters m) (by simp [letters_of_pos hm])
    have hdigit : c.isDigit := Nat.isDigit_of_mem_toDigits (by decide) (by decide) (heq ▸ hc)
    simp [not_isDigit_of_isLower (isLower_of_mem_letters hc)] at hdigit
  rw [displayName_natural hm, displayName_natural hn] at h
  have h := String.ofList_injective h
  by_cases hm' : m < Supply.capacity <;> by_cases hn' : n < Supply.capacity
  · rw [if_pos hm', if_pos hn'] at h
    exact letters_injective h
  · rw [if_pos hm', if_neg hn'] at h
    exact absurd h (hapart hm)
  · rw [if_neg hm', if_pos hn'] at h
    exact absurd h.symm (hapart hn)
  · rw [if_neg hm', if_neg hn'] at h
    exact natural_injective (congrArg String.ofList h)

/-- A numeral without a sign, without leading zeros, and not of zero. -/
def isPositiveNumeral (s : String) : Bool :=
  s.toList.head?.any (· ≠ '0') && s.toList.all Text.Decimal.isDigit

theorem exists_digitChar {c : Char} (h : Text.Decimal.isDigit c) :
    ∃ d < 10, c = Nat.digitChar d := by
  have hdigit : ∀ d < 10, Char.ofNat ('0'.toNat + d) = Nat.digitChar d := by decide
  have hzero : '0'.toNat = 48 ∧ '9'.toNat = 57 := by decide
  simp only [Text.Decimal.isDigit, Bool.and_eq_true, decide_eq_true_eq, Char.le_def,
    UInt32.le_iff_toNat_le, Char.toNat_val] at h
  refine ⟨c.toNat - '0'.toNat, by omega, ?_⟩
  rw [← hdigit _ (by omega), Nat.add_sub_cancel' h.1, Char.ofNat_toNat]

/-- A row of digits without leading zeros is the numeral of its value. -/
theorem toDigits_ofDigitChars {cs : List Char} (hlead : cs.head?.any (· ≠ '0'))
    (hdigits : ∀ c ∈ cs, Text.Decimal.isDigit c) :
    0 < Nat.ofDigitChars 10 cs 0 ∧ Nat.toDigits 10 (Nat.ofDigitChars 10 cs 0) = cs := by
  induction cs using List.reverseRecOn with
  | nil => cases hlead
  | append_singleton cs c ih =>
    obtain ⟨hcs, hc⟩ := List.forall_mem_append.1 hdigits
    obtain ⟨d, hd, rfl⟩ := exists_digitChar (hc c List.mem_cons_self)
    rw [Nat.ofDigitChars_append, Nat.ofDigitChars_cons_digitChar_of_lt_ten hd,
      Nat.ofDigitChars_nil]
    cases cs with
    | nil =>
      have hpos : d ≠ 0 := by
        rintro rfl
        exact absurd hlead (by decide)
      rw [Nat.ofDigitChars_nil, Nat.mul_zero, Nat.zero_add, Nat.toDigits_of_lt_base hd]
      exact ⟨Nat.pos_of_ne_zero hpos, rfl⟩
    | cons c' cs =>
      obtain ⟨hpos, heq⟩ := ih hlead hcs
      rw [← Nat.toDigits_append_toDigits (by decide) hpos hd, heq, Nat.toDigits_of_lt_base hd]
      exact ⟨by omega, rfl⟩

theorem exists_natural {s : String} (h : isPositiveNumeral s) :
    ∃ n, 0 < n ∧ s = Text.Decimal.natural n := by
  rw [isPositiveNumeral, Bool.and_eq_true, List.all_eq_true] at h
  obtain ⟨hpos, heq⟩ := toDigits_ofDigitChars h.1 h.2
  exact ⟨_, hpos, by rw [Text.Decimal.natural, heq, String.ofList_toList]⟩

/-- **Letters are a numeral system.**  Every positive word of 64 bits has its letters, which are
written from the right into 16 cells without ever running out of them, are all between `a` and
`z`, and stand for the number.  Hence positive numerals without a sign or leading zeros are shown
differently as names, be they words or not. -/
theorem letters_exact :
    (∀ n, 0 < n → n < Supply.capacity →
      (∃ c, (Cells.blank 16).writeLetters n = some c ∧
        c.written = (String.ofList (letters n)).toUTF8.data.toList) ∧
      (∀ c ∈ letters n, 'a' ≤ c ∧ c ≤ 'z') ∧ ofLetters (letters n) = n ∧
      displayName (Text.Decimal.natural n) = String.ofList (letters n)) ∧
    ∀ s t, isPositiveNumeral s → isPositiveNumeral t → displayName s = displayName t → s = t := by
  refine ⟨fun n hpos hlt => ⟨?_, ?_, ofLetters_letters n, ?_⟩, fun s t hs ht heq => ?_⟩
  · have hroom : (letters n).length ≤ 16 :=
      (length_letters_le_iff 16 n).2 (Nat.le_of_lt (Nat.lt_of_lt_of_le hlt (by decide)))
    obtain ⟨c, hc, hwritten⟩ := (Cells.blank 16).writeLetters_eq n hroom
    refine ⟨c, hc, ?_⟩
    rw [hwritten, Cells.written_blank, List.append_nil, Text.toUTF8_ofList]
    exact fun c hc => toNat_lt_of_isLower (isLower_of_mem_letters hc)
  · exact fun c hc => between_of_isLower (isLower_of_mem_letters hc)
  · rw [displayName_natural hpos, if_pos hlt]
  · obtain ⟨m, hm, rfl⟩ := exists_natural hs
    obtain ⟨n, hn, rfl⟩ := exists_natural ht
    rw [displayName_natural_injective hm hn heq]

/-- The largest word, the first number with three letters, and a numeral that is no word. -/
theorem letters_exact_largest :
    (∃ c, (Cells.blank 16).writeLetters 9223372036854775807 = some c ∧
      c.written = "crpxnlskvljfhg".toUTF8.data.toList) ∧
    displayName "703" = "aaa" ∧ displayName "9223372036854775808" ≠ displayName "703" := by
  have hlargest : letters 9223372036854775807 = "crpxnlskvljfhg".toList := by cbv
  obtain ⟨c, hc, hwritten⟩ := (letters_exact.1 9223372036854775807 (by decide) (by decide)).1
  have hshown := (letters_exact.1 703 (by decide) (by decide)).2.2.2
  have hletters : letters 703 = "aaa".toList := by cbv
  refine ⟨⟨c, hc, ?_⟩, ?_, mt (letters_exact.2 _ _ (by decide) (by decide)) (by decide)⟩
  · rw [hwritten, hlargest, String.ofList_toList]
  · rw [hletters, String.ofList_toList] at hshown
    exact hshown

end LetPoly
