import LetPoly.Text.Utf8
import LetPoly.Token.Basic
import Mathlib.Data.List.DropRight

/-! # Runes and places

A byte string is read rune by rune from the left, and what is read at one point depends on the
bytes of that rune only (`leading?_eq_some`).  So a row of runes that is the reading of its
bytes, a **reading**, stays one when runes are taken off at either end (`Reading.left`,
`Reading.right`).

The byte of an ASCII character stands for that character wherever it occurs, for no other rune
contains it (`Rune.Formed`).  Hence lines can be counted in bytes.  A place in a source is
given by the bytes before it, with one line for each newline and one column for each rune since
the last one (`Pos.after`), and this is the place to which the characters of these bytes lead
(`after_bytesOf`).
-/

namespace LetPoly

namespace Text

/-! ## What is read -/

/-- **What a rune can be**: an ASCII character with its byte, or another character with bytes
none of which is that of an ASCII character. -/
inductive Rune.Formed : Rune → Prop
  | ascii {b : UInt8} (hb : b < 0x80) : Formed ⟨Char.ofNat b.toNat, [b]⟩
  | wide {c : Char} {bytes : List UInt8} (hc : 0x80 ≤ c.toNat) (hne : bytes ≠ [])
    (hbytes : ∀ b ∈ bytes, 0x80 ≤ b) : Formed ⟨c, bytes⟩

theorem le_of_continuation? {b : UInt8} {k : Nat} (h : continuation? b = some k) : 0x80 ≤ b := by
  rw [continuation?] at h
  split at h
  · next hb => exact hb.1
  · cases h

theorem le_of_scalar? {least code : Nat} {c : Char} (h : scalar? least code = some c) :
    least ≤ c.toNat := by
  rw [scalar?] at h
  split at h
  · next hcode =>
    cases h
    rw [Char.ofNat, dif_pos hcode.2]
    exact hcode.1
  · cases h

/-- **What is read at the front of some bytes depends on the bytes of the rune only.** -/
theorem leading?_eq_some {b : UInt8} {rest : List UInt8} {c : Char} {n : Nat}
    (h : leading? b rest = some (c, n)) : ∃ xs more, rest = xs ++ more ∧ xs.length = n ∧
      Rune.Formed ⟨c, b :: xs⟩ ∧ ∀ more, leading? b (xs ++ more) = some (c, n) := by
  have hwide {least code : Nat} {xs : List UInt8} (hb : ¬ b < 0x80)
      (hc : scalar? least code = some c) (hleast : 0x80 ≤ least) (hxs : ∀ x ∈ xs, 0x80 ≤ x) :
      Rune.Formed ⟨c, b :: xs⟩ :=
    .wide (hleast.trans (le_of_scalar? hc)) (by simp)
      (List.forall_mem_cons.2 ⟨UInt8.not_lt.1 hb, hxs⟩)
  unfold leading? at h
  split at h
  · next hb =>
    cases h
    exact ⟨[], rest, rfl, rfl, .ascii hb, fun more => by simp [leading?, hb]⟩
  · next hb =>
    split at h
    · next h2 =>
      split at h
      · next x more =>
        obtain ⟨i, hi, h⟩ := Option.bind_eq_some_iff.1 h
        obtain ⟨d, hd, h⟩ := Option.bind_eq_some_iff.1 h
        cases h
        refine ⟨[x], more, rfl, rfl, hwide hb hd (by decide) ?_, fun more => ?_⟩
        · simpa using le_of_continuation? hi
        · simp [leading?, hb, h2, hi, hd]
      · cases h
    · next h2 =>
      split at h
      · next h3 =>
        split at h
        · next x y more =>
          obtain ⟨i, hi, h⟩ := Option.bind_eq_some_iff.1 h
          obtain ⟨j, hj, h⟩ := Option.bind_eq_some_iff.1 h
          obtain ⟨d, hd, h⟩ := Option.bind_eq_some_iff.1 h
          cases h
          refine ⟨[x, y], more, rfl, rfl, hwide hb hd (by decide) ?_, fun more => ?_⟩
          · simpa using ⟨le_of_continuation? hi, le_of_continuation? hj⟩
          · simp [leading?, hb, h2, h3, hi, hj, hd]
        · cases h
      · next h3 =>
        split at h
        · next h4 =>
          split at h
          · next x y z more =>
            obtain ⟨i, hi, h⟩ := Option.bind_eq_some_iff.1 h
            obtain ⟨j, hj, h⟩ := Option.bind_eq_some_iff.1 h
            obtain ⟨k, hk, h⟩ := Option.bind_eq_some_iff.1 h
            obtain ⟨d, hd, h⟩ := Option.bind_eq_some_iff.1 h
            cases h
            refine ⟨[x, y, z], more, rfl, rfl, hwide hb hd (by decide) ?_, fun more => ?_⟩
            · simpa using ⟨le_of_continuation? hi, le_of_continuation? hj, le_of_continuation? hk⟩
            · simp [leading?, hb, h2, h3, h4, hi, hj, hk, hd]
          · cases h
        · cases h

/-! ## Readings -/

/-- The bytes of some runes. -/
def bytesOf (rs : List Rune) : List UInt8 := rs.flatMap Rune.bytes

@[simp] theorem bytesOf_nil : bytesOf [] = [] := rfl

@[simp] theorem bytesOf_cons (r : Rune) (rs : List Rune) :
    bytesOf (r :: rs) = r.bytes ++ bytesOf rs := List.flatMap_cons

@[simp] theorem bytesOf_append (rs ss : List Rune) :
    bytesOf (rs ++ ss) = bytesOf rs ++ bytesOf ss := List.flatMap_append

/-- **The runes are the reading of their bytes.** -/
def Reading (rs : List Rune) : Prop := runes (bytesOf rs) = rs

theorem reading_runes (bytes : List UInt8) : Reading (runes bytes) := by
  rw [Reading, bytesOf, runes_bytes]

theorem formed_of_mem_runes {bytes : List UInt8} {r : Rune} (h : r ∈ runes bytes) : r.Formed := by
  fun_induction runes bytes with
  | case1 => cases h
  | case2 b rest c n hlead ih =>
    rcases List.mem_cons.1 h with rfl | h
    · obtain ⟨xs, more, rfl, rfl, hformed, -⟩ := leading?_eq_some hlead
      rwa [List.take_left]
    · exact ih h
  | case3 b rest hlead ih =>
    rcases List.mem_cons.1 h with rfl | h
    · have hb : ¬ b < 0x80 := fun hb => by simp [leading?, hb] at hlead
      exact .wide (by decide) (by simp) (by simpa using hb)
    · exact ih h

theorem Reading.formed {rs : List Rune} (h : Reading rs) {r : Rune} (hr : r ∈ rs) : r.Formed :=
  formed_of_mem_runes (h ▸ hr)

theorem Rune.Formed.bytes_ne_nil {r : Rune} (h : r.Formed) : r.bytes ≠ [] := by
  cases h with
  | ascii => exact List.cons_ne_nil _ _
  | wide _ hne _ => exact hne

/-- The first rune of a reading. -/
theorem reading_cons {r : Rune} {rs : List Rune} : Reading (r :: rs) ↔ Reading rs ∧
    ∃ b xs, r.bytes = b :: xs ∧ (leading? b (xs ++ bytesOf rs) = some (r.char, xs.length) ∨
      leading? b (bytesOf rs) = none ∧ r.char = replacement ∧ xs = []) := by
  constructor
  · intro h
    obtain ⟨b, xs, hbytes⟩ :=
      List.exists_cons_of_ne_nil (h.formed List.mem_cons_self).bytes_ne_nil
    have hread : runes (b :: (xs ++ bytesOf rs)) = r :: rs := by
      rwa [Reading, bytesOf_cons, hbytes, List.cons_append] at h
    rw [runes] at hread
    split at hread
    · next c n hlead =>
      obtain ⟨rfl, hrs⟩ := List.cons.inj hread
      refine ⟨hrs ▸ reading_runes _, b, xs, hbytes, .inl ?_⟩
      obtain ⟨ys, more, heq, rfl, -⟩ := leading?_eq_some hlead
      have htail := List.tail_eq_of_cons_eq hbytes
      rw [heq, List.take_left] at htail
      rwa [htail] at hlead
    · next hlead =>
      obtain ⟨rfl, hrs⟩ := List.cons.inj hread
      obtain rfl : [] = xs := List.tail_eq_of_cons_eq hbytes
      exact ⟨hrs ▸ reading_runes _, b, [], hbytes, .inr ⟨hlead, rfl, rfl⟩⟩
  · rintro ⟨hrs, b, xs, hbytes, hlead⟩
    obtain ⟨c, bytes⟩ := r
    obtain rfl : bytes = b :: xs := hbytes
    rw [Reading, bytesOf_cons, List.cons_append, runes]
    rcases hlead with hlead | ⟨hlead, hc, rfl⟩
    · simp only [hlead, List.take_left, List.drop_left]
      rw [hrs]
    · obtain rfl : c = replacement := hc
      simp only [List.nil_append, hlead]
      rw [hrs]

theorem Reading.right {rs ss : List Rune} (h : Reading (rs ++ ss)) : Reading ss := by
  induction rs with
  | nil => exact h
  | cons r rs ih => exact ih (reading_cons.1 h).1

/-- What follows has no part in a reading. -/
theorem Reading.left {rs ss : List Rune} (h : Reading (rs ++ ss)) : Reading rs := by
  induction rs with
  | nil => rw [Reading, bytesOf_nil, runes]
  | cons r rs ih =>
    rw [List.cons_append] at h
    obtain ⟨hrest, b, xs, hbytes, hlead⟩ := reading_cons.1 h
    refine reading_cons.2 ⟨ih hrest, b, xs, hbytes,
      hlead.imp (fun hlead => ?_) (.imp_left fun hlead => ?_)⟩
    · obtain ⟨ys, more, heq, hlen, -, hlocal⟩ := leading?_eq_some hlead
      obtain rfl := (List.append_inj heq hlen.symm).1
      exact hlocal _
    · -- a rune that these bytes had would be one of all bytes
      rw [bytesOf_append] at hlead
      refine Option.eq_none_iff_forall_ne_some.2 fun lead hsome => ?_
      obtain ⟨ys, more, heq, -, -, hlocal⟩ := leading?_eq_some (c := lead.1) (n := lead.2) hsome
      rw [heq, List.append_assoc, hlocal] at hlead
      cases hlead

/-! ## ASCII characters -/

theorem toUInt8_ofNat (b : UInt8) : (Char.ofNat b.toNat).toUInt8 = b := by
  have hvalid : b.toNat.isValidChar := .inl (by have := b.toNat_lt; omega)
  have hcode : (Char.ofNat b.toNat).val.toNat = b.toNat := by rw [Char.ofNat, dif_pos hvalid]; rfl
  apply UInt8.toNat_inj.1
  rw [Char.toUInt8, UInt32.toNat_toUInt8, hcode]
  exact Nat.mod_eq_of_lt b.toNat_lt

theorem toNat_toUInt8 {c : Char} (hc : c.toNat < 0x80) : c.toUInt8.toNat = c.toNat := by
  rw [Char.toUInt8, UInt32.toNat_toUInt8]
  exact Nat.mod_eq_of_lt (Nat.lt_trans hc (by decide))

/-- The rune of an ASCII character is its byte. -/
theorem Rune.Formed.bytes_eq {r : Rune} (h : r.Formed) (hc : r.char.toNat < 0x80) :
    r.bytes = [r.char.toUInt8] := by
  cases h with
  | ascii => rw [toUInt8_ofNat]
  | wide hwide => exact absurd hc (Nat.not_lt.2 hwide)

/-- The byte of an ASCII character is in no other rune. -/
theorem Rune.Formed.notMem_bytes {r : Rune} (h : r.Formed) {c : Char} (hc : c.toNat < 0x80)
    (hne : r.char ≠ c) : c.toUInt8 ∉ r.bytes := by
  intro hmem
  cases h with
  | ascii =>
    rw [← List.mem_singleton.1 hmem, toNat_toUInt8 hc, Char.ofNat_toNat] at hne
    exact hne rfl
  | wide _ _ hbytes =>
    have hle := UInt8.le_iff_toNat_le.1 (hbytes _ hmem)
    rw [toNat_toUInt8 hc] at hle
    exact absurd hc (Nat.not_lt.2 hle)

/-! ## Texts as bytes -/

theorem toUTF8_eq (s : String) : s.toUTF8.data.toList = s.toList.flatMap String.utf8EncodeChar := by
  rw [← String.ofList_toList (s := s), String.toUTF8, String.toByteArray_ofList, List.utf8Encode,
    List.data_toByteArray, String.toList_ofList]

/-- The bytes of an ASCII text. -/
theorem toUTF8_ofList {cs : List Char} (h : ∀ c ∈ cs, c.toNat < 0x80) :
    (String.ofList cs).toUTF8.data.toList = cs.map Char.toUInt8 := by
  rw [toUTF8_eq, String.toList_ofList, List.map_eq_flatMap]
  refine List.flatMap_congr fun c hc => String.utf8EncodeChar_eq_singleton ?_
  exact Char.utf8Size_eq_one_iff.2 (UInt32.le_iff_toNat_le.2 (Nat.le_of_lt_succ (h c hc)))

end Text

/-! ## Places -/

open Text

/-- The byte that ends a line. -/
def newline : UInt8 := '\n'.toUInt8

/-- **The place after some bytes**: one line more than they have newlines, and one column more
than there are runes since the last of these. -/
def Pos.after (bytes : List UInt8) : Pos where
  line := 1 + bytes.count newline
  column := 1 + (runes (bytes.rtakeWhile (· ≠ newline))).length

theorem Pos.advanceAll_append (p : Pos) (cs ds : List Char) :
    p.advanceAll (cs ++ ds) = (p.advanceAll cs).advanceAll ds := List.foldl_append

theorem advanceAll_start (cs : List Char) : Pos.start.advanceAll cs =
    ⟨1 + cs.count '\n', 1 + (cs.rtakeWhile (· ≠ '\n')).length⟩ := by
  induction cs using List.reverseRecOn with
  | nil => rfl
  | append_singleton cs c ih =>
    rw [Pos.advanceAll_append, ih, List.count_append, List.rtakeWhile_concat]
    by_cases hc : c = '\n' <;> simp [Pos.advanceAll, Pos.advance, hc, Nat.add_assoc]

theorem newline_notMem {r : Rune} (h : r.Formed) (hc : r.char ≠ '\n') : newline ∉ r.bytes :=
  h.notMem_bytes (by decide) hc

theorem bytes_eq_newline {r : Rune} (h : r.Formed) (hc : r.char = '\n') : r.bytes = [newline] := by
  rw [h.bytes_eq (by rw [hc]; decide), hc, newline]

section
variable {rs : List Rune}

theorem count_bytesOf (h : ∀ r ∈ rs, r.Formed) :
    (bytesOf rs).count newline = (rs.map Rune.char).count '\n' := by
  induction rs with
  | nil => rfl
  | cons r rs ih =>
    obtain ⟨hr, hrs⟩ := List.forall_mem_cons.1 h
    rw [bytesOf_cons, List.count_append, List.map_cons, List.count_cons, ih hrs, Nat.add_comm]
    congr 1
    by_cases hc : r.char = '\n'
    · simp [bytes_eq_newline hr hc, hc]
    · simp [List.count_eq_zero_of_not_mem (newline_notMem hr hc), hc]

/-- The bytes since the last newline are those of the runes since then. -/
theorem rtakeWhile_bytesOf (h : ∀ r ∈ rs, r.Formed) : (bytesOf rs).rtakeWhile (· ≠ newline) =
    bytesOf (rs.rtakeWhile (·.char ≠ '\n')) := by
  induction rs using List.reverseRecOn with
  | nil => rfl
  | append_singleton rs r ih =>
    obtain ⟨hrs, hr⟩ := List.forall_mem_append.1 h
    have hr := hr r List.mem_cons_self
    rw [bytesOf_append, bytesOf_cons, bytesOf_nil, List.append_nil, List.rtakeWhile_concat]
    by_cases hc : r.char = '\n'
    · rw [bytes_eq_newline hr hc, List.rtakeWhile_concat_neg _ _ _ (by simp), if_neg (by simp [hc]),
        bytesOf_nil]
    · have hbytes : ∀ b ∈ r.bytes.reverse, decide (b ≠ newline) := fun b hb =>
        decide_eq_true fun hb' => newline_notMem hr hc (List.mem_reverse.1 (hb' ▸ hb))
      rw [if_pos (by simp [hc]), bytesOf_append, ← ih hrs, List.rtakeWhile, List.reverse_append,
        List.takeWhile_append_of_pos hbytes, List.reverse_append, List.reverse_reverse,
        bytesOf_cons, bytesOf_nil, List.append_nil]
      rfl

/-- **The characters of some bytes lead to the place after them.** -/
theorem after_bytesOf (h : Reading rs) :
    Pos.after (bytesOf rs) = Pos.start.advanceAll (rs.map Rune.char) := by
  have hformed : ∀ r ∈ rs, r.Formed := fun r => h.formed
  have hsplit : Reading (rs.rdropWhile (·.char ≠ '\n') ++ rs.rtakeWhile (·.char ≠ '\n')) := by
    rwa [List.rdropWhile_append_rtakeWhile]
  have hline : Reading (rs.rtakeWhile (·.char ≠ '\n')) := hsplit.right
  rw [Pos.after, advanceAll_start, count_bytesOf hformed, rtakeWhile_bytesOf hformed, hline]
  simp [List.rtakeWhile, ← List.map_reverse, List.takeWhile_map, Function.comp_def]

end

end LetPoly
