import LetPoly.Proofs.Lines
import LetPoly.Proofs.Runes

/-! # Where tokens stand

A source is given as bytes.  Its tokens stand for spans of bytes, one after the other, and
what lies between them is a **gap**: blanks and comments (`Gap`).  A token has the place of the
first byte of its span, and the token at the end the place after all bytes (`Laid`).  Nothing
of a source is lost and nothing is misplaced in scanning, whatever the bytes (`scan_laid`).

Scanning works on characters.  Its steps take characters from the front, and the runes that
these were read from are taken with them (`exists_skips`, `exists_lexes`); the bytes of the
runes are the gaps and the spans.
-/

namespace LetPoly.Token

open Text

/-! ## Gaps -/

/-- **Blanks and comments.**  A comment starts with two slashes and ends with its line; the line
may end with the source, if the gap is the `last` one. -/
inductive Gap (last : Prop) : List UInt8 → Prop
  | nil : Gap last []
  | blank {c : Char} {rest : List UInt8} (hc : c ∈ [' ', '\t', '\n', '\r']) (h : Gap last rest) :
    Gap last (c.toUInt8 :: rest)
  | comment {text rest : List UInt8} (htext : newline ∉ text) (h : Gap last (newline :: rest)) :
    Gap last ('/'.toUInt8 :: '/'.toUInt8 :: (text ++ newline :: rest))
  | lastComment {text : List UInt8} (hlast : last) (htext : newline ∉ text) :
    Gap last ('/'.toUInt8 :: '/'.toUInt8 :: text)

/-- What is left of a gap within a comment. -/
def CommentTail (last : Prop) (bytes : List UInt8) : Prop :=
  ∃ text, newline ∉ text ∧
    (bytes = text ∧ last ∨ ∃ rest, bytes = text ++ newline :: rest ∧ Gap last (newline :: rest))

theorem CommentTail.cons {last : Prop} {r : Rune} {bytes : List UInt8} (h : CommentTail last bytes)
    (hr : r.Formed) (hc : r.char ≠ '\n') : CommentTail last (r.bytes ++ bytes) := by
  obtain ⟨text, htext, h⟩ := h
  refine ⟨r.bytes ++ text, ?_, h.imp (fun h => ⟨by rw [h.1], h.2⟩) fun ⟨rest, heq, h⟩ =>
    ⟨rest, by rw [heq, List.append_assoc], h⟩⟩
  rw [List.mem_append, not_or]
  exact ⟨newline_notMem hr hc, htext⟩

/-- Two slashes and what is left of the comment. -/
theorem CommentTail.gap {last : Prop} {bytes : List UInt8} (h : CommentTail last bytes) :
    Gap last ('/'.toUInt8 :: '/'.toUInt8 :: bytes) := by
  obtain ⟨text, htext, ⟨rfl, hlast⟩ | ⟨rest, rfl, h⟩⟩ := h
  · exact .lastComment hlast htext
  · exact .comment htext h

/-- **A step over a gap**, in characters and in bytes. -/
structure Skips (inComment : Bool) (rs gap rest : List Rune) : Prop where
  runes : rs = gap ++ rest
  skip : skip inComment (rs.map Rune.char) = (gap.map Rune.char, rest.map Rune.char)
  bytes : if inComment then CommentTail (rest = []) (bytesOf gap) else Gap (rest = []) (bytesOf gap)

section
variable {r r' : Rune} {rs gap rest : List Rune}

/-- A rune of a comment. -/
theorem Skips.comment (hr : r.Formed) (h : Skips (r.char != '\n') rs gap rest) :
    Skips true (r :: rs) (r :: gap) rest where
  runes := congrArg (r :: ·) h.runes
  skip := by simp [Token.skip, h.skip]
  bytes := by
    have hbytes := h.bytes
    rw [if_pos rfl, bytesOf_cons]
    by_cases hc : r.char = '\n'
    · rw [if_neg (by simp [hc])] at hbytes
      rw [bytes_eq_newline hr hc]
      have hgap : Gap (rest = []) (newline :: bytesOf gap) := .blank (c := '\n') (by simp) hbytes
      exact ⟨[], List.not_mem_nil, .inr ⟨bytesOf gap, rfl, hgap⟩⟩
    · rw [if_pos (bne_iff_ne.2 hc)] at hbytes
      exact hbytes.cons hr hc

theorem Skips.blank (hr : r.Formed) (hsep : isSeparator r.char) (h : Skips false rs gap rest) :
    Skips false (r :: rs) (r :: gap) rest where
  runes := congrArg (r :: ·) h.runes
  skip := by simp [Token.skip, hsep, h.skip]
  bytes := by
    have hmem : r.char ∈ [' ', '\t', '\n', '\r'] := by simpa [isSeparator, or_assoc] using hsep
    have hascii : [' ', '\t', '\n', '\r'].all (·.toNat < 0x80) := by decide
    rw [bytesOf_cons, hr.bytes_eq (by simpa using List.all_eq_true.1 hascii _ hmem)]
    exact .blank hmem h.bytes

/-- The slashes at the beginning of a comment. -/
theorem Skips.slashes (hr : r.Formed) (hr' : r'.Formed) (hc : r.char = '/') (hc' : r'.char = '/')
    (h : Skips true rs gap rest) : Skips false (r :: r' :: rs) (r :: r' :: gap) rest where
  runes := congrArg (r :: r' :: ·) h.runes
  skip := by simp [Token.skip, hc, hc', h.skip, isSeparator]
  bytes := by
    rw [bytesOf_cons, bytesOf_cons, hr.bytes_eq (by rw [hc]; decide),
      hr'.bytes_eq (by rw [hc']; decide), hc, hc']
    exact CommentTail.gap h.bytes

end

theorem exists_skips (inComment : Bool) (rs : List Rune) (hrs : ∀ r ∈ rs, r.Formed) :
    ∃ gap rest, Skips inComment rs gap rest := by
  cases rs with
  | nil =>
    refine ⟨[], [], rfl, rfl, ?_⟩
    cases inComment with
    | false => exact .nil
    | true => exact ⟨[], List.not_mem_nil, .inl ⟨rfl, rfl⟩⟩
  | cons r rs =>
    obtain ⟨hr, hrs⟩ := List.forall_mem_cons.1 hrs
    cases inComment with
    | true =>
      obtain ⟨gap, rest, h⟩ := exists_skips (r.char != '\n') rs hrs
      exact ⟨_, _, h.comment hr⟩
    | false =>
      cases hsep : isSeparator r.char with
      | true =>
        obtain ⟨gap, rest, h⟩ := exists_skips false rs hrs
        exact ⟨_, _, h.blank hr hsep⟩
      | false =>
        by_cases hslash : r.char = '/' ∧ (rs.map Rune.char).head? = some '/'
        · obtain ⟨hc, hhead⟩ := hslash
          cases rs with
          | nil => cases hhead
          | cons r' rs =>
            obtain ⟨hr', hrs⟩ := List.forall_mem_cons.1 hrs
            obtain ⟨gap, rest, h⟩ := exists_skips true rs hrs
            exact ⟨_, _, h.slashes hr hr' hc (Option.some.inj hhead)⟩
        · exact ⟨[], r :: rs, rfl, skip_eq_nil hsep fun hc hhead => hslash ⟨hc, hhead⟩, .nil⟩
termination_by rs.length

/-! ## Lexemes -/

theorem toNat_lt_of_isWordChar {c : Char} (h : isWordChar c) : c.toNat < 0x80 := by
  have hvalues : 'z'.val.toNat < 0x80 ∧ 'Z'.val.toNat < 0x80 ∧ '_'.val.toNat < 0x80 ∧
      '9'.val.toNat < 0x80 := by decide
  simp only [isWordChar, isLetter, Text.Decimal.isDigit, Bool.or_eq_true, Bool.and_eq_true,
    decide_eq_true_eq, Char.le_def, UInt32.le_iff_toNat_le] at h
  obtain ((h | h) | rfl) | h := h
  · exact Nat.lt_of_le_of_lt h.2 hvalues.1
  · exact Nat.lt_of_le_of_lt h.2 hvalues.2.1
  · exact hvalues.2.2.1
  · exact Nat.lt_of_le_of_lt h.2 hvalues.2.2.2

/-- A lexeme that is neither a string nor illegal is written as it is, in ASCII. -/
theorem lexeme_plain (p : Pos) (c : Char) (cs : List Char) :
    (lexeme p c cs).kind = .string ∨ (lexeme p c cs).kind = .illegal ∨
      (lexeme p c cs).literal = String.ofList (lexeme p c cs).span ∧
        ∀ d ∈ (lexeme p c cs).span, d.toNat < 0x80 := by
  unfold lexeme
  split
  · dsimp only
    split
    · exact .inl rfl
    · exact .inr (.inl rfl)
  · split
    · next hletter =>
      have hc : isWordChar c := by simp [isWordChar, hletter]
      exact .inr (.inr ⟨rfl, List.forall_mem_cons.2 ⟨toNat_lt_of_isWordChar hc,
        fun d hd => toNat_lt_of_isWordChar (List.mem_takeWhile_imp hd)⟩⟩)
    · split
      · next hdigit =>
        have hword {d : Char} (hd : Text.Decimal.isDigit d) : d.toNat < 0x80 :=
          toNat_lt_of_isWordChar (by simp [isWordChar, hd])
        exact .inr (.inr ⟨rfl, List.forall_mem_cons.2 ⟨hword hdigit,
          fun d hd => hword (List.mem_takeWhile_imp hd)⟩⟩)
      · split
        · next k hk =>
          have hascii : ∀ k ∈ Kind.symbols, k.name.toList.all (·.toNat < 0x80) := by decide
          have hname := List.all_eq_true.1 (hascii k (List.mem_of_find?_eq_some hk))
          exact .inr (.inr ⟨String.ofList_toList.symm, fun d hd => of_decide_eq_true (hname d hd)⟩)
        · exact .inr (.inl rfl)

theorem bytesOf_ascii {rs : List Rune} (hrs : ∀ r ∈ rs, r.Formed)
    (h : ∀ c ∈ rs.map Rune.char, c.toNat < 0x80) :
    bytesOf rs = (rs.map Rune.char).map Char.toUInt8 := by
  rw [bytesOf, List.map_map, List.map_eq_flatMap]
  exact List.flatMap_congr fun r hr => (hrs r hr).bytes_eq (h _ (List.mem_map_of_mem hr))

/-- **A lexeme takes runes from the front.** -/
structure Lexes (l : Lexeme) (rs span rest : List Rune) : Prop where
  runes : rs = span ++ rest
  span_chars : span.map Rune.char = l.span
  rest_chars : rest.map Rune.char = l.rest
  ne_nil : bytesOf span ≠ []
  literal : l.kind ≠ .string → l.kind ≠ .illegal → l.literal.toUTF8.data.toList = bytesOf span

theorem exists_lexes (p : Pos) {r : Rune} {rs : List Rune} (hrs : ∀ x ∈ r :: rs, x.Formed) :
    ∃ span rest, Lexes (lexeme p r.char (rs.map Rune.char)) (r :: rs) span rest := by
  have hplain := lexeme_plain p r.char (rs.map Rune.char)
  have hne := lexeme_span_ne_nil p r.char (rs.map Rune.char)
  have happend := lexeme_append p r.char (rs.map Rune.char)
  generalize lexeme p r.char (rs.map Rune.char) = l at hplain hne happend ⊢
  rw [← List.map_cons] at happend
  obtain ⟨span, rest, heq, hspan, hrest⟩ := List.map_eq_append_iff.1 happend.symm
  have hformed : ∀ x ∈ span, x.Formed := fun x hx => hrs x (heq ▸ List.mem_append_left _ hx)
  rw [← hspan] at hplain hne
  refine ⟨span, rest, heq, hspan, hrest, ?_, fun hstring hillegal => ?_⟩
  · obtain ⟨x, hx⟩ := List.exists_mem_of_ne_nil span (mt (congrArg (List.map Rune.char)) hne)
    obtain ⟨b, hb⟩ := List.exists_mem_of_ne_nil x.bytes (hformed x hx).bytes_ne_nil
    exact List.ne_nil_of_mem (List.mem_flatMap.2 ⟨x, hx, hb⟩)
  · obtain ⟨hliteral, hascii⟩ := (hplain.resolve_left hstring).resolve_left hillegal
    rw [hliteral, toUTF8_ofList hascii, bytesOf_ascii hformed hascii]

/-! ## Sources -/

/-- **The tokens of some bytes, where others stand before.**  Gaps and spans follow each other,
with a token for each span, which is not empty; a token has the place of its span.  What is
neither a string nor illegal is written in the span as it is. -/
inductive Laid : (before bytes : List UInt8) → List Token → Prop
  | eof {before gap : List UInt8} (hgap : Gap True gap) :
    Laid before gap [⟨.eof, "", Pos.after (before ++ gap)⟩]
  | token {before gap span rest : List UInt8} {t : Token} {ts : List Token} (hgap : Gap False gap)
    (hspan : span ≠ []) (hkind : t.kind ≠ .eof) (hpos : t.pos = Pos.after (before ++ gap))
    (hliteral : t.kind ≠ .string → t.kind ≠ .illegal → t.literal.toUTF8.data.toList = span)
    (hrest : Laid (before ++ gap ++ span) rest ts) : Laid before (gap ++ span ++ rest) (t :: ts)

/-- The tokens end with the only one that marks the end. -/
theorem Laid.ends {before bytes : List UInt8} {ts : List Token} (h : Laid before bytes ts) :
    ∃ us, ts = us ++ [⟨.eof, "", Pos.after (before ++ bytes)⟩] ∧ ∀ t ∈ us, t.kind ≠ .eof := by
  induction h with
  | eof => exact ⟨[], rfl, by simp⟩
  | @token before gap span rest t ts _ _ hkind _ _ _ ih =>
    obtain ⟨us, rfl, hus⟩ := ih
    exact ⟨t :: us, by simp [List.append_assoc], List.forall_mem_cons.2 ⟨hkind, hus⟩⟩

theorem scanFrom_laid (front rs : List Rune) (h : Reading (front ++ rs)) :
    Laid (bytesOf front) (bytesOf rs)
      (scanFrom (Pos.start.advanceAll (front.map Rune.char)) (rs.map Rune.char)).tokens := by
  obtain ⟨gap, rest, hruns, hskip, hgap⟩ :=
    exists_skips false rs fun r hr => h.formed (List.mem_append_right _ hr)
  rw [hruns, ← List.append_assoc] at h
  have hbytes : bytesOf rs = bytesOf gap ++ bytesOf rest := by rw [hruns, bytesOf_append]
  have hafter : Pos.after (bytesOf front ++ bytesOf gap) =
      (Pos.start.advanceAll (front.map Rune.char)).advanceAll (gap.map Rune.char) := by
    rw [← bytesOf_append, after_bytesOf h.left, List.map_append, Pos.advanceAll_append]
  cases rest with
  | nil =>
    rw [scanFrom_of_nil hskip, ← hafter, hbytes, bytesOf_nil, List.append_nil]
    exact .eof (by simpa using hgap)
  | cons r rest =>
    rw [scanFrom_of_cons hskip, ← hafter]
    dsimp only
    have hkind := lexeme_kind_ne_eof (Pos.after (bytesOf front ++ bytesOf gap)) r.char
      (rest.map Rune.char)
    obtain ⟨span, more, heq, hspan, hmore, hne, hliteral⟩ :=
      exists_lexes (Pos.after (bytesOf front ++ bytesOf gap)) fun x hx => h.right.formed hx
    generalize lexeme (Pos.after (bytesOf front ++ bytesOf gap)) r.char (rest.map Rune.char) = l
      at hkind hspan hmore hliteral ⊢
    rw [heq, ← List.append_assoc] at h
    rw [hbytes, heq, bytesOf_append, ← List.append_assoc]
    refine .token (by simpa using hgap) hne hkind rfl hliteral ?_
    have hless : more.length < rs.length := by
      have hpos : 0 < span.length :=
        List.length_pos_iff.2 fun hnil => hne (by rw [hnil, bytesOf_nil])
      rw [hruns, heq, List.length_append, List.length_append]
      omega
    have hrest := scanFrom_laid (front ++ gap ++ span) more h
    rwa [bytesOf_append, bytesOf_append, List.map_append, List.map_append, Pos.advanceAll_append,
      Pos.advanceAll_append, ← hafter, hspan, hmore] at hrest
termination_by rs.length

/-- **Scanning loses and misplaces nothing**, whatever the bytes of the source: they are gaps and
spans in turn, with a token for each span, and the last token, the only one that marks the end,
stands after all of them. -/
theorem scan_laid (bytes : List UInt8) :
    Laid [] bytes (scan (Text.decode bytes)).tokens ∧
      ∃ ts, (scan (Text.decode bytes)).tokens = ts ++ [⟨.eof, "", Pos.after bytes⟩] ∧
        ∀ t ∈ ts, t.kind ≠ .eof := by
  have hlaid := scanFrom_laid [] (runes bytes) (reading_runes bytes)
  rw [bytesOf_nil, bytesOf, runes_bytes] at hlaid
  exact ⟨hlaid, hlaid.ends⟩

/-- A string over two lines with a character of two bytes, and a byte that is no character. -/
example : (scan (Text.decode [0x22, 0xC3, 0xA9, 0x0A, 0x22, 0xFF, 0x61])).tokens =
    [⟨.string, "é\n", ⟨1, 1⟩⟩, ⟨.illegal, "\uFFFD", ⟨2, 2⟩⟩, ⟨.ident, "a", ⟨2, 3⟩⟩,
      ⟨.eof, "", ⟨2, 4⟩⟩] := by
  cbv

end LetPoly.Token
