import LetPoly.Proofs.TokenSpans

/-! # Literals in bytes

The literal of a text is written and read in different units.  Writing goes byte by byte
(`Text.literalByte`), reading goes rune by rune, and the source ends where its bytes end,
whatever characters it has.  Both fit together because of two facts about UTF-8.  The bytes of a
text are read as its characters (`Text.decode_toUTF8`).  And no byte of a character beyond ASCII
is that of a quote, of a backslash or of any other character that is escaped, so that escaping
bytes is the same as escaping characters (`Text.toUTF8_literal`).

Hence scanning a literal gives back the text and nothing else (`scan_literal`).
-/

namespace LetPoly

namespace Text

/-! ## Reading the bytes of a text -/

theorem continuation?_ofNat : ∀ k < 64, continuation? (UInt8.ofNat (k + 128)) = some k := by
  decide

theorem scalar?_eq {least code : Nat} {c : Char} (hcode : code = c.toNat) (h : least ≤ code) :
    scalar? least code = some c := by
  subst hcode
  rw [scalar?, if_pos ⟨h, c.valid⟩, Char.ofNat_toNat]

section
variable {b x y z : UInt8} {i j k : Nat} {c : Char}

theorem leading?_one (hb : b.toNat < 0x80) (more : List UInt8) :
    leading? b more = some (Char.ofNat b.toNat, 0) := by
  have h1 : b < 0x80 := UInt8.lt_iff_toNat_lt.2 hb
  simp [leading?, h1]

theorem leading?_two (hb : 0xC0 ≤ b.toNat ∧ b.toNat < 0xE0) (hx : continuation? x = some i)
    (hc : scalar? 0x80 ((b.toNat - 0xC0) * 0x40 + i) = some c) (more : List UInt8) :
    leading? b (x :: more) = some (c, 1) := by
  have h1 : ¬b < 0x80 := fun h => absurd (UInt8.lt_iff_toNat_lt.1 h) (by simp; omega)
  have h2 : 0xC0 ≤ b ∧ b < 0xE0 := ⟨UInt8.le_iff_toNat_le.2 hb.1, UInt8.lt_iff_toNat_lt.2 hb.2⟩
  simp [leading?, h1, h2, hx, hc]

theorem leading?_three (hb : 0xE0 ≤ b.toNat ∧ b.toNat < 0xF0) (hx : continuation? x = some i)
    (hy : continuation? y = some j)
    (hc : scalar? 0x800 (((b.toNat - 0xE0) * 0x40 + i) * 0x40 + j) = some c) (more : List UInt8) :
    leading? b (x :: y :: more) = some (c, 2) := by
  have h1 : ¬b < 0x80 := fun h => absurd (UInt8.lt_iff_toNat_lt.1 h) (by simp; omega)
  have h2 : ¬b < 0xE0 := fun h => absurd (UInt8.lt_iff_toNat_lt.1 h) (by simp; omega)
  have h3 : 0xE0 ≤ b ∧ b < 0xF0 := ⟨UInt8.le_iff_toNat_le.2 hb.1, UInt8.lt_iff_toNat_lt.2 hb.2⟩
  simp [leading?, h1, h2, h3, hx, hy, hc]

theorem leading?_four (hb : 0xF0 ≤ b.toNat ∧ b.toNat < 0xF8) (hx : continuation? x = some i)
    (hy : continuation? y = some j) (hz : continuation? z = some k)
    (hc : scalar? 0x10000 ((((b.toNat - 0xF0) * 0x40 + i) * 0x40 + j) * 0x40 + k) = some c)
    (more : List UInt8) : leading? b (x :: y :: z :: more) = some (c, 3) := by
  have h1 : ¬b < 0x80 := fun h => absurd (UInt8.lt_iff_toNat_lt.1 h) (by simp; omega)
  have h2 : ¬b < 0xE0 := fun h => absurd (UInt8.lt_iff_toNat_lt.1 h) (by simp; omega)
  have h3 : ¬b < 0xF0 := fun h => absurd (UInt8.lt_iff_toNat_lt.1 h) (by simp; omega)
  have h4 : 0xF0 ≤ b ∧ b < 0xF8 := ⟨UInt8.le_iff_toNat_le.2 hb.1, UInt8.lt_iff_toNat_lt.2 hb.2⟩
  simp [leading?, h1, h2, h3, h4, hx, hy, hz, hc]

end

/-- **The bytes of a character are read as this character**, whatever follows. -/
theorem leading?_utf8EncodeChar (c : Char) (more : List UInt8) :
    ∃ b xs, String.utf8EncodeChar c = b :: xs ∧
      leading? b (xs ++ more) = some (c, xs.length) := by
  have hbyte {k : Nat} (hk : k < 256) : (UInt8.ofNat k).toNat = k := UInt8.toNat_ofNat_of_lt' hk
  have hvalid : c.toNat < 0x110000 := by
    rcases c.valid with h | h <;> simp only [Char.toNat_val] at h <;> omega
  have hencode : String.utf8EncodeChar c =
      if c.toNat ≤ 0x7F then [UInt8.ofNat c.toNat]
      else if c.toNat ≤ 0x7FF then
        [UInt8.ofNat (c.toNat / 64 % 32 + 192), UInt8.ofNat (c.toNat % 64 + 128)]
      else if c.toNat ≤ 0xFFFF then
        [UInt8.ofNat (c.toNat / 4096 % 16 + 224), UInt8.ofNat (c.toNat / 64 % 64 + 128),
          UInt8.ofNat (c.toNat % 64 + 128)]
      else
        [UInt8.ofNat (c.toNat / 262144 % 8 + 240), UInt8.ofNat (c.toNat / 4096 % 64 + 128),
          UInt8.ofNat (c.toNat / 64 % 64 + 128), UInt8.ofNat (c.toNat % 64 + 128)] := rfl
  have hlast := continuation?_ofNat (c.toNat % 64) (by omega)
  have hthird := continuation?_ofNat (c.toNat / 64 % 64) (by omega)
  have hsecond := continuation?_ofNat (c.toNat / 4096 % 64) (by omega)
  rw [hencode]
  -- The sequence has as many bytes as the code needs, and its bits are those of the code.
  split
  · have hb : (UInt8.ofNat c.toNat).toNat = c.toNat := hbyte (by omega)
    refine ⟨_, _, rfl, (leading?_one (by omega) _).trans ?_⟩
    rw [hb, Char.ofNat_toNat, List.length_nil]
  · split
    · have hb := hbyte (k := c.toNat / 64 % 32 + 192) (by omega)
      exact ⟨_, _, rfl, leading?_two (by omega) hlast (scalar?_eq (by omega) (by omega)) more⟩
    · split
      · have hb := hbyte (k := c.toNat / 4096 % 16 + 224) (by omega)
        exact ⟨_, _, rfl, leading?_three (by omega) hthird hlast (scalar?_eq (by omega) (by omega)) more⟩
      · have hb := hbyte (k := c.toNat / 262144 % 8 + 240) (by omega)
        exact ⟨_, _, rfl, leading?_four (by omega) hsecond hthird hlast (scalar?_eq (by omega) (by omega)) more⟩

/-- The rune of a character. -/
def Rune.ofChar (c : Char) : Rune := ⟨c, String.utf8EncodeChar c⟩

theorem toUTF8_eq_bytesOf (s : String) :
    s.toUTF8.data.toList = bytesOf (s.toList.map Rune.ofChar) := by
  rw [toUTF8_eq, bytesOf, List.flatMap_map]
  rfl

/-- The runes of characters are what is read from their bytes. -/
theorem reading_ofChar (cs : List Char) : Reading (cs.map Rune.ofChar) := by
  induction cs with
  | nil => rw [List.map_nil, Reading, bytesOf_nil, runes]
  | cons c cs ih =>
    obtain ⟨b, xs, hbytes, hlead⟩ := leading?_utf8EncodeChar c (bytesOf (cs.map Rune.ofChar))
    exact reading_cons.2 ⟨ih, b, xs, hbytes, .inl hlead⟩

/-- **The bytes of a text are read as its characters.** -/
theorem decode_toUTF8 (s : String) : decode s.toUTF8.data.toList = s.toList := by
  rw [decode, toUTF8_eq_bytesOf, reading_ofChar, List.map_map]
  exact List.map_id _

/-! ## Writing literals byte by byte -/

/-- How a byte is written inside a literal. -/
def literalByte (b : UInt8) : List UInt8 :=
  if b = '"'.toUInt8 then ['\\'.toUInt8, '"'.toUInt8]
  else if b = '\\'.toUInt8 then ['\\'.toUInt8, '\\'.toUInt8]
  else if b = '\n'.toUInt8 then ['\\'.toUInt8, 'n'.toUInt8]
  else if b = '\t'.toUInt8 then ['\\'.toUInt8, 't'.toUInt8]
  else [b]

/-- **To escape a character is to escape its bytes.** -/
theorem flatMap_literalByte (c : Char) :
    (String.utf8EncodeChar c).flatMap literalByte =
      (literalChar c).flatMap String.utf8EncodeChar := by
  by_cases hc : c = '"' ∨ c = '\\' ∨ c = '\n' ∨ c = '\t'
  · rcases hc with rfl | rfl | rfl | rfl <;> rfl
  · -- no byte of another character is escaped
    simp only [not_or] at hc
    have hformed : (Rune.ofChar c).Formed := (reading_ofChar [c]).formed List.mem_cons_self
    have hkept : ∀ b ∈ String.utf8EncodeChar c, literalByte b = [b] := by
      intro b hb
      have hne {d : Char} (hd : d.toNat < 0x80) (hcd : c ≠ d) : b ≠ d.toUInt8 := fun h =>
        hformed.notMem_bytes hd hcd (h ▸ hb)
      rw [literalByte, if_neg (hne (by decide) hc.1), if_neg (hne (by decide) hc.2.1),
        if_neg (hne (by decide) hc.2.2.1), if_neg (hne (by decide) hc.2.2.2)]
    rw [List.flatMap_congr hkept, List.flatMap_singleton']
    simp [literalChar, hc]

/-- **A literal is written byte by byte.** -/
theorem toUTF8_literal (s : String) : (literal s).toUTF8.data.toList =
    '"'.toUInt8 :: s.toUTF8.data.toList.flatMap literalByte ++ ['"'.toUInt8] := by
  rw [toUTF8_eq, literal, String.toList_ofList, toUTF8_eq, List.flatMap_assoc]
  simp only [flatMap_literalByte]
  rw [List.flatMap_append, List.flatMap_cons, List.flatMap_assoc]
  rfl

end Text

namespace Token

/-! ## Scanning literals -/

/-- A literal is one lexeme, which stands for its text and takes all of it. -/
theorem lexeme_literal (p : Pos) (s : String) : lexeme p '"'
    (s.toList.flatMap Text.literalChar ++ ['"']) =
      { kind := .string, literal := s, span := (Text.literal s).toList, rest := [] } := by
  obtain ⟨hcontent, hclosed, hrest, hfault⟩ := stringTail_literal (p.advance '"') s.toList []
  have hspan := stringTail_append (p.advance '"') (s.toList.flatMap Text.literalChar ++ ['"'])
  rw [hrest, List.append_nil] at hspan
  simp only [lexeme, hcontent, hclosed, hrest, hfault, hspan]
  simp [Text.literal]

/-- **Quoting is undone by scanning.**  The literal of a text is written byte by byte, with
quotes, backslashes, newlines and tabs escaped.  Its bytes are scanned without a fault, as one
string with the text as its content and the mark of the end, which stands after all bytes. -/
theorem scan_literal (s : String) :
    (Text.literal s).toUTF8.data.toList =
      '"'.toUInt8 :: s.toUTF8.data.toList.flatMap Text.literalByte ++ ['"'.toUInt8] ∧
    scan (Text.decode (Text.literal s).toUTF8.data.toList) =
      { tokens := [⟨.string, s, .start⟩, ⟨.eof, "", .after (Text.literal s).toUTF8.data.toList⟩]
        fault := none } := by
  refine ⟨Text.toUTF8_literal s, ?_⟩
  have htext : (Text.literal s).toList = '"' :: (s.toList.flatMap Text.literalChar ++ ['"']) := by
    simp [Text.literal]
  have hskip : skip false (Text.literal s).toList =
      ([], '"' :: (s.toList.flatMap Text.literalChar ++ ['"'])) := by
    rw [htext]
    exact skip_eq_nil (by decide) fun h => absurd h (by decide)
  have hend (q : Pos) : scanFrom q [] = ⟨[⟨.eof, "", q⟩], none⟩ :=
    scanFrom_of_nil (show skip false [] = ([], []) from rfl)
  have hafter : Pos.after (Text.literal s).toUTF8.data.toList =
      Pos.start.advanceAll (Text.literal s).toList := by
    rw [Text.toUTF8_eq_bytesOf, after_bytesOf (Text.reading_ofChar _), List.map_map]
    exact congrArg _ (List.map_id _)
  rw [Text.decode_toUTF8, scan, scanFrom_of_cons hskip]
  simp only [lexeme_literal, hend, hafter]
  rfl

end Token

end LetPoly
