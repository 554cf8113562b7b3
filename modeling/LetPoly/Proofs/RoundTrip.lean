import LetPoly.Proofs.Printing

/-! # Printing and parsing

The text of a tree that has been parsed spells a phrase for the tree (`Printing`).  Since every
phrase is read as the tree that it stands for, **parsing the text of a parsed tree gives the
tree back** (`parse_text`).
-/

namespace LetPoly

open Token Word

namespace Expr

/-! ## Whole sources -/

/-- The phrases of a program: a statement, and a semicolon that may follow. -/
inductive Program : List Word → Expr → Prop
  | statement {w : List Word} {e : Expr} (h : Phrase 10 w e) : Program w e
  | ended {w : List Word} {e : Expr} (h : Phrase 10 w e) : Program (w ++ [.mark .semicolon]) e

theorem reads_readProgram (bound : Nat) : Reader.Reads (readProgram bound) Program := by
  intro ts e rest h
  rw [readProgram, Reader.gives_bind] at h
  obtain ⟨stmt, mid, hstmt, h⟩ := h
  obtain ⟨used, rfl, hused⟩ := reads_readStatement (reads_read bound) hstmt
  rw [Reader.gives_accept (by decide)] at h
  obtain ⟨t, mid, rfl, ht, h⟩ | ⟨t, mid, rfl, -, h⟩ := h
  · obtain ⟨rfl, rfl⟩ := Reader.gives_pure.1 h
    refine ⟨used ++ [t], by simp, ?_⟩
    simpa [Token.word_of_kind ht] using Program.ended hused
  · obtain ⟨rfl, rfl⟩ := Reader.gives_pure.1 h
    exact ⟨used, rfl, .statement hused⟩

theorem delivers_readProgram (bound : Nat) {w : List Word} {e : Expr} (h : Program w e)
    (hw : w.length < bound) : Reader.Delivers (readProgram bound) (· = .eof) w e := by
  intro ts next rest hts hnext
  have hexpr : ∀ w e, Phrase 9 w e → w.length < bound →
      Reader.Delivers (read bound) (Follows 9) w e := fun w e => delivers_read bound
  rw [readProgram, Reader.gives_bind]
  cases h with
  | statement h =>
    have hstmt := delivers_readStatement hexpr h hw ts next rest hts
      (.of_closing (by simp [hnext]) 9)
    refine ⟨e, _, hstmt, (Reader.gives_accept (by decide)).2 (.inr ⟨next, rest, rfl, ?_, ?_⟩)⟩
    · simp [hnext]
    · exact Reader.gives_pure.2 ⟨rfl, rfl⟩
  | ended h =>
    obtain ⟨us, semi, vs, rfl, hus, hsemi, hvs⟩ := Token.of_map_mark hts
    obtain rfl := List.map_eq_nil_iff.1 hvs
    rw [List.length_append] at hw
    have hstmt := delivers_readStatement hexpr h (by omega) us semi (next :: rest) hus
      (.of_closing (by simp [hsemi]) 9)
    refine ⟨e, _, by simpa using hstmt, ?_⟩
    refine (Reader.gives_accept (by decide)).2 (.inl ⟨semi, _, rfl, hsemi, ?_⟩)
    exact Reader.gives_pure.2 ⟨rfl, rfl⟩

theorem Program.prints {w : List Word} {e : Expr} (h : Program w e)
    (hw : ∀ x, .ident x ∈ w → Named x) : ∃ ws, Spells e.text ws ∧ Program ws e := by
  rw [text_eq_bare]
  cases h with
  | statement h =>
    obtain ⟨ws, hws, hphrase⟩ := h.prints hw
    exact ⟨ws, hws, .statement hphrase⟩
  | ended h =>
    obtain ⟨ws, hws, hphrase⟩ := h.prints fun x hx => hw x (by simp [hx])
    exact ⟨ws, hws, .statement hphrase⟩

theorem parseProgram_eq_ok {source : List Char} {e : Expr} :
    parseProgram source = .ok e ↔ (scan source).fault = none ∧ Program (words source) e :=
  Reader.readAll_eq_ok_iff reads_readProgram (fun bound _ _ => delivers_readProgram bound) rfl

end Expr

theorem Pat.parse_eq_ok {source : List Char} {p : Pat} :
    parse source = .ok p ↔ (scan source).fault = none ∧ Phrase 2 (words source) p :=
  Reader.readAll_eq_ok_iff reads_read (fun bound _ _ => delivers_read bound) (by decide)

/-- **Printing and parsing round-trip**: the text of a program that has been parsed is
parsed to the same program, and likewise for patterns. -/
theorem parse_text :
    (∀ source e, Expr.parseProgram source = .ok e → Expr.parseProgram e.text.toList = .ok e) ∧
    ∀ source p, Pat.parse source = .ok p → Pat.parse p.text.toList = .ok p := by
  refine ⟨fun source e h => ?_, fun source p h => ?_⟩
  · obtain ⟨-, hprogram⟩ := Expr.parseProgram_eq_ok.1 h
    obtain ⟨ws, hws, hprogram⟩ := hprogram.prints fun x => named_of_mem_words
    obtain ⟨hfault, hwords⟩ := hws.scans.words
    rw [Expr.parseProgram_eq_ok, hwords]
    exact ⟨hfault, hprogram⟩
  · obtain ⟨-, hphrase⟩ := Pat.parse_eq_ok.1 h
    obtain ⟨ws, hws, hphrase⟩ := hphrase.prints fun x => named_of_mem_words
    obtain ⟨hfault, hwords⟩ := hws.scans.words
    rw [Pat.parse_eq_ok, hwords]
    exact ⟨hfault, hphrase.mono p.level_le⟩

theorem parse_text_nested :
    (∃ e, Expr.parseProgram "val (h :: t) : [a] = (x => \"\\n\") 1 - (2 - 3);".toList = .ok e ∧
        Expr.parseProgram e.text.toList = .ok e) ∧
      ∃ p, Pat.parse "((h :: t)) :: _".toList = .ok p ∧ Pat.parse p.text.toList = .ok p := by
  have he : Expr.parseProgram "val (h :: t) : [a] = (x => \"\\n\") 1 - (2 - 3);".toList =
      .ok (.define .val (.cons (.ident "h") (.ident "t")) (some (.list (.var "a")))
        (.binary .minus (.app (.lambda (.ident "x") none (.string "\n")) (.number 1))
          (.binary .minus (.number 2) (.number 3)))) := by
    cbv
  have hp : Pat.parse "((h :: t)) :: _".toList =
      .ok (.cons (.cons (.ident "h") (.ident "t")) .wildcard) := by
    cbv
  exact ⟨⟨_, he, parse_text.1 _ _ he⟩, _, hp, parse_text.2 _ _ hp⟩

end LetPoly
