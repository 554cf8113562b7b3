import LetPoly.Proofs.Reading

/-! # What is read is a phrase

Whatever a reader takes from a row of tokens is a phrase that stands for the tree that
it gives (`Reader.Reads`).  A reader of nested phrases keeps this of the reader that it
is given; the loops for applications and operators keep that the words behind them
stand for the tree so far.  The main statements are `Ty.reads_read`, `Pat.reads_read`,
`Expr.reads_read` and `Expr.reads_readStatement`.
-/

namespace LetPoly

open Reader Word

/-- Whatever the reader takes are words of what it gives. -/
def Reader.Reads {α : Type} (r : Reader α) (P : List Word → α → Prop) : Prop :=
  ∀ {ts a rest}, Gives r ts a rest → ∃ used, ts = used ++ rest ∧ P (used.map Token.word) a

/-! ## Types -/

namespace Ty

variable {type : Reader Ty}

theorem reads_readAtom (htype : Reads type (Phrase 4)) : Reads (readAtom type) (Phrase 1) := by
  intro ts a rest h
  obtain ⟨t, mid, rfl, ⟨-, h⟩ | ⟨hk, h⟩⟩ := gives_next_bind.1 h
  · split at h
    · next hk =>
      obtain ⟨rfl, rfl⟩ := gives_pure.1 h
      refine ⟨[t], rfl, ?_⟩
      rw [List.map_singleton, Token.word_ident hk, ofName]
      split
      · exact .base ‹_›
      · exact .var ‹_›
    · next hk =>
      obtain ⟨inner, close, hinner, hc, rfl⟩ := (gives_closed (by decide)).1 h
      obtain ⟨used, rfl, hused⟩ := htype hinner
      refine ⟨t :: used ++ [close], by simp, ?_⟩
      simpa [between, Token.word_of_kind hk, Token.word_of_kind hc] using Phrase.paren hused
    · next hk =>
      obtain ⟨inner, close, hinner, hc, rfl⟩ := (gives_closed (by decide)).1 h
      obtain ⟨used, rfl, hused⟩ := htype hinner
      refine ⟨t :: used ++ [close], by simp, ?_⟩
      simpa [between, Token.word_of_kind hk, Token.word_of_kind hc] using Phrase.list hused
    · exact absurd h not_gives_failAt
  · simp [hk] at h

/-- The loop over arguments keeps that the words before the rest stand for the
application so far. -/
theorem reads_readApp (htype : Reads type (Phrase 4)) (bound : Nat) :
    Reads (readApp bound type) (Phrase 2) := by
  intro ts a rest h
  rw [readApp, gives_bind] at h
  obtain ⟨func, mid, hfunc, h⟩ := h
  obtain ⟨used, hts, hused⟩ := reads_readAtom htype hfunc
  refine h.extend_induction
    (fun mid a => ∃ used, ts = used ++ mid ∧ Phrase 2 (used.map Token.word) a)
    ?step ?stop ⟨used, hts, hused.loosen⟩
  case step =>
    rintro f mid _ mid' ⟨used, rfl, hf⟩ hstep
    obtain ⟨_, _, _, ⟨-, x, hx, ⟨⟩⟩ | ⟨-, ⟨⟩, -⟩⟩ := gives_optional.1 hstep
    obtain ⟨used', rfl, hused'⟩ := reads_readAtom htype hx
    exact ⟨used ++ used', by simp, by simpa using hf.app hused'⟩
  case stop =>
    intro _ ts mid hnone
    obtain ⟨_, _, _, ⟨-, x, hx, ⟨⟩⟩ | ⟨-, -, rfl⟩⟩ := gives_optional.1 hnone
    rfl

theorem reads_readArrow (htype : Reads type (Phrase 4)) (bound : Nat) :
    Reads (readArrow bound type) (Phrase 3) := by
  intro ts a rest h
  rw [readArrow, gives_bind] at h
  obtain ⟨arg, mid, harg, h⟩ := h
  obtain ⟨used, rfl, hused⟩ := reads_readApp htype bound harg
  rw [gives_accept (by decide)] at h
  obtain ⟨t, mid, rfl, ht, h⟩ | ⟨t, mid, rfl, ht, h⟩ := h
  · rw [if_pos rfl, gives_bind] at h
    obtain ⟨ret, mid', hret, h⟩ := h
    obtain ⟨used', rfl, hused'⟩ := htype hret
    obtain ⟨rfl, rfl⟩ := gives_pure.1 h
    refine ⟨used ++ t :: used', by simp, ?_⟩
    simpa [Token.word_of_kind ht] using hused.arrow hused'
  · obtain ⟨rfl, rfl⟩ := gives_pure.1 h
    exact ⟨used, rfl, hused.loosen⟩

theorem reads_readWith (htype : Reads type (Phrase 4)) (bound : Nat) :
    Reads (readWith bound type) (Phrase 4) := by
  intro ts a rest h
  rw [readWith, gives_bind] at h
  obtain ⟨t, _, hpeek, h⟩ := h
  obtain ⟨rfl, mid, rfl⟩ := gives_peek.1 hpeek
  split at h
  · next hk =>
    simp only [gives_bind, gives_next, gives_expect, gives_pure, hk, ne_eq, reduceCtorEq,
      not_false_eq_true] at h
    obtain ⟨_, _, ⟨rfl, rfl⟩, x, _, ⟨hx, rfl⟩, arrow, _, ⟨harrow, rfl⟩, body, _, hbody, rfl,
      rfl⟩ := h
    obtain ⟨used, rfl, hused⟩ := htype hbody
    refine ⟨_ :: x :: arrow :: used, rfl, ?_⟩
    simpa [Token.word_of_kind hk, Token.word_ident hx, Token.word_of_kind harrow] using
      Phrase.tfn hused
  · rw [gives_bind] at h
    obtain ⟨u, _, hpeek₂, h⟩ := h
    obtain ⟨rfl, hsecond⟩ := gives_peekSecond.1 hpeek₂
    split at h
    · next hk =>
      simp only [Bool.and_eq_true, decide_eq_true_eq] at hk
      obtain ⟨ht, hdot⟩ := hk
      obtain ⟨_, mid, ⟨⟩⟩ | ⟨⟨⟩⟩ := hsecond
      · simp only [gives_bind, gives_pure] at h
        obtain ⟨_, _, hnext, _, _, hnext₂, body, _, hbody, rfl, rfl⟩ := h
        obtain ⟨-, rfl⟩ := (gives_next (by simp [ht])).1 hnext
        obtain ⟨-, rfl⟩ := (gives_next (by simp [hdot])).1 hnext₂
        obtain ⟨used, rfl, hused⟩ := htype hbody
        refine ⟨t :: _ :: used, rfl, ?_⟩
        simpa [Token.word_ident ht, Token.word_of_kind hdot] using Phrase.dot hused
      · rw [ht] at hdot
        cases hdot
    · obtain ⟨used, hts, hused⟩ := reads_readArrow htype bound h
      exact ⟨used, hts, hused.loosen⟩

/-- **What is read as a type is a phrase for it.** -/
theorem reads_read (bound : Nat) : Reads (read bound) (Phrase 4) := by
  induction bound with
  | zero => exact fun h => absurd h not_gives_tooDeep
  | succ n ih => exact reads_readWith ih n

end Ty

/-! ## Patterns -/

namespace Pat

variable {pat : Reader Pat}

theorem reads_readAtomWith (hpat : Reads pat (Phrase 2)) :
    Reads (readAtomWith pat) (Phrase 1) := by
  intro ts p rest h
  obtain ⟨t, mid, rfl, ⟨-, h⟩ | ⟨hk, h⟩⟩ := gives_next_bind.1 h
  · split at h
    · next hk =>
      simp only [gives_bind, gives_numeral, gives_pure] at h
      obtain ⟨n, _, ⟨hn, rfl⟩, rfl, rfl⟩ := h
      exact ⟨[t], rfl, by simpa [Token.word_int hk] using Phrase.number hn⟩
    · next hk =>
      obtain ⟨rfl, rfl⟩ := gives_pure.1 h
      exact ⟨[t], rfl, by simpa [Token.word_string hk] using Phrase.string⟩
    · next hk =>
      obtain ⟨rfl, rfl⟩ := gives_pure.1 h
      exact ⟨[t], rfl, by simpa [Token.word_of_kind hk] using Phrase.boolean rfl⟩
    · next hk =>
      obtain ⟨rfl, rfl⟩ := gives_pure.1 h
      exact ⟨[t], rfl, by simpa [Token.word_of_kind hk] using Phrase.boolean rfl⟩
    · next hk =>
      obtain ⟨rfl, rfl⟩ := gives_pure.1 h
      exact ⟨[t], rfl, by simpa [Token.word_of_kind hk] using Phrase.wildcard⟩
    · next hk =>
      obtain ⟨rfl, rfl⟩ := gives_pure.1 h
      exact ⟨[t], rfl, by simpa [Token.word_ident hk] using Phrase.ident⟩
    · next hk =>
      simp only [gives_bind, gives_expect, gives_pure, ne_eq, reduceCtorEq, not_false_eq_true] at h
      obtain ⟨close, _, ⟨hc, rfl⟩, rfl, rfl⟩ := h
      refine ⟨[t, close], rfl, ?_⟩
      simpa [between, Token.word_of_kind hk, Token.word_of_kind hc] using Phrase.nil
    · next hk =>
      rw [gives_accept (by decide)] at h
      obtain ⟨close, mid, rfl, hc, h⟩ | ⟨_, _, rfl, -, h⟩ := h
      · obtain ⟨rfl, rfl⟩ := gives_pure.1 h
        refine ⟨[t, close], rfl, ?_⟩
        simpa [between, Token.word_of_kind hk, Token.word_of_kind hc] using Phrase.unit
      · rw [if_neg (by decide), gives_closed (by decide)] at h
        obtain ⟨inner, close, hinner, hc, rfl⟩ := h
        obtain ⟨used, hused, hphrase⟩ := hpat hinner
        refine ⟨t :: used ++ [close], by simp [hused], ?_⟩
        simpa [between, Token.word_of_kind hk, Token.word_of_kind hc] using Phrase.paren hphrase
    · exact absurd h not_gives_failAt
  · simp [hk] at h

theorem reads_readWith (hpat : Reads pat (Phrase 2)) : Reads (readWith pat) (Phrase 2) := by
  intro ts p rest h
  rw [readWith, gives_bind] at h
  obtain ⟨head, mid, hhead, h⟩ := h
  obtain ⟨used, rfl, hused⟩ := reads_readAtomWith hpat hhead
  rw [gives_accept (by decide)] at h
  obtain ⟨t, mid, rfl, ht, h⟩ | ⟨t, mid, rfl, -, h⟩ := h
  · rw [if_pos rfl, gives_bind] at h
    obtain ⟨tail, mid', htail, h⟩ := h
    obtain ⟨used', rfl, hused'⟩ := hpat htail
    obtain ⟨rfl, rfl⟩ := gives_pure.1 h
    refine ⟨used ++ t :: used', by simp, ?_⟩
    simpa [Token.word_of_kind ht] using hused.cons hused'
  · obtain ⟨rfl, rfl⟩ := gives_pure.1 h
    exact ⟨used, rfl, hused.loosen⟩

/-- **What is read as a pattern is a phrase for it.** -/
theorem reads_read (bound : Nat) : Reads (read bound) (Phrase 2) := by
  induction bound with
  | zero => exact fun h => absurd h not_gives_tooDeep
  | succ n ih => exact reads_readWith ih

theorem reads_readAtom (bound : Nat) : Reads (readAtom bound) (Phrase 1) :=
  reads_readAtomWith (reads_read bound)

end Pat

/-! ## Expressions -/

namespace Expr

variable {bound : Nat} {expr : Reader Expr}

theorem reads_readPlainHead {ts rest : List Token} {p : Pat}
    (h : Gives (readPlainHead bound) ts (some p) rest) :
    ∃ used arrow, ts = used ++ arrow :: rest ∧ arrow.kind = .fatArrow ∧
      Pat.Phrase 1 (used.map Token.word) p := by
  rw [readPlainHead, gives_bind] at h
  obtain ⟨p', mid, hp, h⟩ := h
  obtain ⟨used, rfl, hused⟩ := Pat.reads_readAtom bound hp
  rw [gives_accept (by decide)] at h
  obtain ⟨t, mid, rfl, ht, h⟩ | ⟨t, mid, rfl, -, h⟩ := h
  · obtain ⟨⟨⟩, rfl⟩ := gives_pure.1 h
    exact ⟨used, t, rfl, ht, hused⟩
  · obtain ⟨⟨⟩, -⟩ := gives_pure.1 h

theorem reads_readTypedHead {ts rest : List Token} {p : Pat} {t : Ty}
    (h : Gives (readTypedHead bound) ts (some (p, t)) rest) :
    ∃ used arrow, ts = used ++ arrow :: rest ∧ arrow.kind = .fatArrow ∧
      Head (used.map Token.word) p (some t) := by
  -- Every way out before the arrow gives nothing.
  have hnone {ts' rest' : List Token} : ¬Gives (pure none) ts' (some (p, t)) rest' :=
    fun h => nomatch (gives_pure.1 h).1
  rw [readTypedHead, gives_accept (by decide)] at h
  obtain ⟨opening, mid, rfl, hopen, h⟩ | ⟨_, _, -, -, h⟩ := h
  · rw [if_pos rfl, gives_bind] at h
    obtain ⟨p', mid, hp, h⟩ := h
    obtain ⟨used, rfl, hused⟩ := Pat.reads_read bound hp
    rw [gives_accept (by decide)] at h
    obtain ⟨colon, mid, rfl, hcolon, h⟩ | ⟨_, _, -, -, h⟩ := h
    · rw [if_pos rfl, gives_bind] at h
      obtain ⟨t', mid, ht, h⟩ := h
      obtain ⟨used', rfl, hused'⟩ := Ty.reads_read bound ht
      rw [gives_accept (by decide)] at h
      obtain ⟨close, mid, rfl, hclose, h⟩ | ⟨_, _, -, -, h⟩ := h
      · rw [if_pos rfl, gives_accept (by decide)] at h
        obtain ⟨arrow, mid, rfl, harrow, h⟩ | ⟨_, _, -, -, h⟩ := h
        · obtain ⟨⟨⟩, rfl⟩ := gives_pure.1 h
          refine ⟨opening :: used ++ colon :: used' ++ [close], arrow, by simp, harrow, ?_⟩
          simpa [between, Token.word_of_kind hopen, Token.word_of_kind hcolon,
            Token.word_of_kind hclose] using Head.typed hused hused'
        · exact absurd h hnone
      · exact absurd h hnone
    · exact absurd h hnone
  · exact absurd h hnone

/-- What is read as the head of a function is one, before `=>`. -/
theorem reads_head? {ts rest : List Token} {p : Pat} {a : Option Ty}
    (h : head? bound ts = some ((p, a), rest)) :
    ∃ used arrow, ts = used ++ arrow :: rest ∧ arrow.kind = .fatArrow ∧
      Head (used.map Token.word) p a := by
  unfold head? at h
  split at h
  · next hplain =>
    cases h
    obtain ⟨used, arrow, hts, harrow, hused⟩ := reads_readPlainHead hplain
    exact ⟨used, arrow, hts, harrow, .plain hused⟩
  · split at h
    · next htyped =>
      cases h
      exact reads_readTypedHead htyped
    · cases h

theorem reads_readAscription : Reads (readAscription bound) Ascription := by
  intro ts a rest h
  rw [readAscription, gives_accept (by decide)] at h
  obtain ⟨colon, mid, rfl, hcolon, h⟩ | ⟨_, _, rfl, -, h⟩ := h
  · rw [if_pos rfl, gives_bind] at h
    obtain ⟨t, mid', ht, h⟩ := h
    obtain ⟨rfl, rfl⟩ := gives_pure.1 h
    obtain ⟨used, rfl, hused⟩ := Ty.reads_read bound ht
    exact ⟨colon :: used, rfl, by simpa [Token.word_of_kind hcolon] using Ascription.some hused⟩
  · obtain ⟨rfl, rfl⟩ := gives_pure.1 h
    exact ⟨[], rfl, .none⟩

theorem reads_readDefinition (hexpr : Reads expr (Phrase 9)) {t : Token} {ts rest : List Token}
    {e : Expr} (ht : t.kind = .kwVal ∨ t.kind = .kwVar)
    (h : Gives (readDefinition bound expr) (t :: ts) e rest) :
    ∃ used, t :: ts = used ++ rest ∧ Phrase 10 (used.map Token.word) e := by
  simp only [readDefinition, gives_bind, gives_expect, gives_pure, ne_eq, reduceCtorEq,
    not_false_eq_true] at h
  obtain ⟨word, _, hnext, p, _, hp, a, _, ha, assign, _, ⟨hassign, rfl⟩, e, _, he, rfl, rfl⟩ := h
  obtain ⟨rfl, rfl⟩ := (gives_next (by rintro hk; simp [hk] at ht)).1 hnext
  obtain ⟨u, rfl, hu⟩ := Pat.reads_readAtom bound hp
  obtain ⟨v, rfl, hv⟩ := reads_readAscription ha
  obtain ⟨w, rfl, hw⟩ := hexpr he
  refine ⟨word :: (u ++ v ++ assign :: w), by simp, ?_⟩
  obtain ht | ht := ht
  · have := Phrase.define (k := .kwVal) (rfl : _ = Binder.val.spelling) hu hv hw
    simpa [ht, Token.word_of_kind ht, Token.word_of_kind hassign] using this
  · have := Phrase.define (k := .kwVar) (rfl : _ = Binder.var.spelling) hu hv hw
    simpa [ht, Token.word_of_kind ht, Token.word_of_kind hassign] using this

theorem reads_readStatement (hexpr : Reads expr (Phrase 9)) :
    Reads (readStatement bound expr) (Phrase 10) := by
  intro ts e rest h
  rw [readStatement, gives_bind] at h
  obtain ⟨t, _, hpeek, h⟩ := h
  obtain ⟨rfl, mid, rfl⟩ := gives_peek.1 hpeek
  split at h
  · exact reads_readDefinition hexpr (.inl ‹_›) h
  · exact reads_readDefinition hexpr (.inr ‹_›) h
  · obtain ⟨used, hts, hused⟩ := hexpr h
    exact ⟨used, hts, hused.loosen⟩

/-- A block, whose opening brace has been taken. -/
theorem reads_readBlock (hexpr : Reads expr (Phrase 9)) {ts rest : List Token} {e : Expr}
    (h : Gives (readBlock bound expr) ts e rest) :
    ∃ used, ts = used ++ rest ∧ Phrase 1 (.mark .lbrace :: used.map Token.word) e := by
  rw [readBlock, gives_bind] at h
  obtain ⟨⟨stmts, brace⟩, mid, hitems, h⟩ := h
  obtain ⟨hbrace, used, ss, rfl, rfl, hss, hsep, -⟩ :=
    hitems.items_sound Spelled.words Spelled.tree (fun s => Phrase 10 s.words s.tree) fun h => by
      obtain ⟨used, hts, hused⟩ := reads_readStatement hexpr h
      exact ⟨used, ⟨_, _⟩, hts, rfl, rfl, hused⟩
  dsimp only at h
  split at h
  · exact absurd h not_gives_failAt
  · next last hlast =>
    split at h
    · exact absurd h not_gives_failAt
    · next hdef =>
      obtain ⟨rfl, rfl⟩ := gives_pure.1 h
      refine ⟨used ++ [brace], by simp, ?_⟩
      have hne : ss ≠ [] := by
        rintro rfl
        cases hlast
      have hend : ∀ s ∈ ss.getLast?, s.tree.isDefinition = false := by
        intro s hs
        rw [List.getLast?_map, Option.mem_def.1 hs] at hlast
        cases hlast
        simpa using hdef
      simpa [between, Token.word_of_kind hbrace] using Phrase.block hss (hsep hne) hend

theorem reads_readAtom (hexpr : Reads expr (Phrase 9)) :
    Reads (readAtom bound expr) (Phrase 1) := by
  intro ts p rest h
  obtain ⟨t, mid, rfl, ⟨-, h⟩ | ⟨hk, h⟩⟩ := gives_next_bind.1 h
  · split at h
    · next hk =>
      simp only [gives_bind, gives_numeral, gives_pure] at h
      obtain ⟨n, _, ⟨hn, rfl⟩, rfl, rfl⟩ := h
      exact ⟨[t], rfl, by simpa [Token.word_int hk] using Phrase.number hn⟩
    · next hk =>
      obtain ⟨rfl, rfl⟩ := gives_pure.1 h
      exact ⟨[t], rfl, by simpa [Token.word_string hk] using Phrase.string⟩
    · next hk =>
      obtain ⟨rfl, rfl⟩ := gives_pure.1 h
      exact ⟨[t], rfl, by simpa [Token.word_of_kind hk] using Phrase.boolean rfl⟩
    · next hk =>
      obtain ⟨rfl, rfl⟩ := gives_pure.1 h
      exact ⟨[t], rfl, by simpa [Token.word_of_kind hk] using Phrase.boolean rfl⟩
    · next hk =>
      obtain ⟨rfl, rfl⟩ := gives_pure.1 h
      exact ⟨[t], rfl, by simpa [Token.word_ident hk] using Phrase.ident⟩
    · next hk =>
      simp only [gives_bind, gives_expect, gives_pure, ne_eq, reduceCtorEq, not_false_eq_true] at h
      obtain ⟨close, _, ⟨hc, rfl⟩, rfl, rfl⟩ := h
      refine ⟨[t, close], rfl, ?_⟩
      simpa [between, Token.word_of_kind hk, Token.word_of_kind hc] using Phrase.nil
    · next hk =>
      rw [gives_accept (by decide)] at h
      obtain ⟨close, mid, rfl, hc, h⟩ | ⟨_, _, rfl, -, h⟩ := h
      · obtain ⟨rfl, rfl⟩ := gives_pure.1 h
        refine ⟨[t, close], rfl, ?_⟩
        simpa [between, Token.word_of_kind hk, Token.word_of_kind hc] using Phrase.unit
      · rw [if_neg (by decide), gives_closed (by decide)] at h
        obtain ⟨inner, close, hinner, hc, rfl⟩ := h
        obtain ⟨used, hused, hphrase⟩ := hexpr hinner
        refine ⟨t :: used ++ [close], by simp [hused], ?_⟩
        simpa [between, Token.word_of_kind hk, Token.word_of_kind hc] using Phrase.paren hphrase
    · next hk =>
      obtain ⟨used, rfl, hused⟩ := reads_readBlock hexpr h
      exact ⟨t :: used, rfl, by simpa [Token.word_of_kind hk] using hused⟩
    · exact absurd h not_gives_failAt
  · simp [hk] at h

/-- The loop over arguments keeps that the words before the rest stand for the
application so far. -/
theorem reads_readApp (hexpr : Reads expr (Phrase 9)) :
    Reads (readApp bound expr) (Phrase 2) := by
  intro ts e rest h
  rw [readApp, gives_bind] at h
  obtain ⟨func, mid, hfunc, h⟩ := h
  obtain ⟨used, hts, hused⟩ := reads_readAtom hexpr hfunc
  refine h.extend_induction
    (fun mid e => ∃ used, ts = used ++ mid ∧ Phrase 2 (used.map Token.word) e)
    ?step ?stop ⟨used, hts, hused.loosen⟩
  case step =>
    rintro f mid _ mid' ⟨used, rfl, hf⟩ hstep
    obtain ⟨_, _, _, ⟨-, a, ha, ⟨⟩⟩ | ⟨-, ⟨⟩, -⟩⟩ := gives_optional.1 hstep
    obtain ⟨used', rfl, hused'⟩ := reads_readAtom hexpr ha
    exact ⟨used ++ used', by simp, by simpa using hf.app hused'⟩
  case stop =>
    intro _ ts mid hnone
    obtain ⟨_, _, _, ⟨-, a, ha, ⟨⟩⟩ | ⟨-, -, rfl⟩⟩ := gives_optional.1 hnone
    rfl

/-- One turn of the loop over operators takes an operator of the level and its operand,
or nothing. -/
theorem gives_readOperation? {level : Nat} {operand : Reader Expr} {left : Expr}
    {ts rest : List Token} {o : Option Expr} :
    Gives (readOperation? level operand left) ts o rest ↔ ∃ t mid, ts = t :: mid ∧
      ((∃ op right, opOf? t.kind = some op ∧ op.level = level ∧ Gives operand mid right rest ∧
          o = some (.binary op left right)) ∨
        (∀ op, opOf? t.kind = some op → op.level ≠ level) ∧ o = none ∧ rest = ts) := by
  simp only [readOperation?, gives_bind, gives_peek]
  constructor
  · rintro ⟨t, _, ⟨rfl, mid, rfl⟩, h⟩
    refine ⟨t, mid, rfl, ?_⟩
    split at h
    · next op hop =>
      split at h
      · next hlevel =>
        simp only [gives_bind, gives_pure] at h
        obtain ⟨_, _, hnext, right, _, hright, rfl, rfl⟩ := h
        obtain ⟨rfl, rfl⟩ := (gives_next (by rintro hk; simp [hk, opOf?] at hop)).1 hnext
        exact .inl ⟨op, right, hop, hlevel, hright, rfl⟩
      · next hlevel =>
        obtain ⟨rfl, rfl⟩ := gives_pure.1 h
        exact .inr ⟨by simpa [hop] using hlevel, rfl, rfl⟩
    · next hop =>
      obtain ⟨rfl, rfl⟩ := gives_pure.1 h
      exact .inr ⟨by simp [hop], rfl, rfl⟩
  · rintro ⟨t, mid, rfl, ⟨op, right, hop, hlevel, hright, rfl⟩ | ⟨hno, rfl, rfl⟩⟩ <;>
      refine ⟨t, _, ⟨rfl, mid, rfl⟩, ?_⟩
    · simp only [hop, hlevel, if_true, gives_bind, gives_pure]
      refine ⟨t, mid, (gives_next ?_).2 ⟨rfl, rfl⟩, right, rest, hright, rfl, rfl⟩
      rintro hk
      simp [hk, opOf?] at hop
    · split
      · next op hop =>
        rw [if_neg (hno op hop)]
        exact gives_pure.2 ⟨rfl, rfl⟩
      · exact gives_pure.2 ⟨rfl, rfl⟩

/-- The loop over operators of a level keeps that the words before the rest stand for the
operation so far. -/
theorem reads_readOperators (hexpr : Reads expr (Phrase 9)) (tiers : Nat) :
    Reads (readOperators bound expr tiers) (Phrase (tiers + 2)) := by
  induction tiers with
  | zero => exact reads_readApp hexpr
  | succ n ih =>
    intro ts e rest h
    rw [readOperators, gives_bind] at h
    obtain ⟨left, mid, hleft, h⟩ := h
    obtain ⟨used, hts, hused⟩ := ih hleft
    refine h.extend_induction
      (fun mid e => ∃ used, ts = used ++ mid ∧ Phrase (n + 3) (used.map Token.word) e)
      ?step ?stop ⟨used, hts, hused.loosen⟩
    case step =>
      rintro l mid _ mid' ⟨used, rfl, hl⟩ hstep
      obtain ⟨t, mid, rfl, ⟨op, r, hop, hlevel, hr, ⟨⟩⟩ | ⟨-, ⟨⟩, -⟩⟩ :=
        gives_readOperation?.1 hstep
      obtain ⟨used', rfl, hused'⟩ := ih hr
      refine ⟨used ++ t :: used', by simp, ?_⟩
      have hname := opOf?_eq_some.1 hop
      have hmark : t.word = .mark t.kind := Token.word_of_kind rfl
        (by refine ⟨?_, ?_, ?_⟩ <;> intro hk <;> simp [hk, opOf?] at hop)
      simpa [hmark] using Phrase.binary hname hlevel hl hused'
    case stop =>
      intro _ ts mid hnone
      obtain ⟨t, mid, rfl, ⟨_, _, _, _, _, ⟨⟩⟩ | ⟨-, -, rfl⟩⟩ := gives_readOperation?.1 hnone
      rfl

theorem reads_readCons (hexpr : Reads expr (Phrase 9)) :
    Reads (readCons bound expr) (Phrase 8) := by
  intro ts e rest h
  rw [readCons, gives_bind] at h
  obtain ⟨head, mid, hhead, h⟩ := h
  obtain ⟨used, rfl, hused⟩ := reads_readOperators hexpr 5 hhead
  rw [gives_accept (by decide)] at h
  obtain ⟨t, mid, rfl, ht, h⟩ | ⟨t, mid, rfl, -, h⟩ := h
  · rw [if_pos rfl, gives_bind] at h
    obtain ⟨tail, mid', htail, h⟩ := h
    obtain ⟨used', rfl, hused'⟩ := hexpr htail
    obtain ⟨rfl, rfl⟩ := gives_pure.1 h
    refine ⟨used ++ t :: used', by simp, ?_⟩
    simpa [Token.word_of_kind ht] using hused.cons hused'
  · obtain ⟨rfl, rfl⟩ := gives_pure.1 h
    exact ⟨used, rfl, hused.loosen⟩

theorem reads_readConditional (hexpr : Reads expr (Phrase 9)) {t : Token} {ts rest : List Token}
    {e : Expr} (ht : t.kind = .kwIf) (h : Gives (readConditional expr) (t :: ts) e rest) :
    ∃ used, t :: ts = used ++ rest ∧ Phrase 9 (used.map Token.word) e := by
  simp only [readConditional, gives_bind, gives_expect, gives_pure, ne_eq, reduceCtorEq,
    not_false_eq_true] at h
  obtain ⟨word, _, hnext, c, _, hc, th, _, ⟨hth, rfl⟩, y, _, hy, el, _, ⟨hel, rfl⟩, n, _, hn, rfl,
    rfl⟩ := h
  obtain ⟨rfl, rfl⟩ := (gives_next (by simp [ht])).1 hnext
  obtain ⟨u, rfl, hu⟩ := hexpr hc
  obtain ⟨v, rfl, hv⟩ := hexpr hy
  obtain ⟨w, rfl, hw⟩ := hexpr hn
  refine ⟨word :: (u ++ th :: (v ++ el :: w)), by simp, ?_⟩
  simpa [Token.word_of_kind ht, Token.word_of_kind hth, Token.word_of_kind hel] using
    Phrase.cond hu hv hw

theorem reads_readArm (hexpr : Reads expr (Phrase 9)) {ts rest : List Token} {arm : Pat × Expr}
    (h : Gives (readArm bound expr) ts arm rest) :
    ∃ used, ∃ s : Spelled Pat × Spelled Expr, ts = used ++ rest ∧
      used.map Token.word = caseWords s ∧ (s.1.tree, s.2.tree) = arm ∧
        Pat.Phrase 2 s.1.words s.1.tree ∧ Phrase 9 s.2.words s.2.tree := by
  simp only [readArm, gives_bind, gives_expect, gives_pure, ne_eq, reduceCtorEq,
    not_false_eq_true] at h
  obtain ⟨ca, _, ⟨hca, rfl⟩, p, _, hp, arrow, _, ⟨harrow, rfl⟩, b, _, hb, rfl, rfl⟩ := h
  obtain ⟨u, rfl, hu⟩ := Pat.reads_read bound hp
  obtain ⟨v, rfl, hv⟩ := hexpr hb
  refine ⟨ca :: (u ++ arrow :: v), (⟨_, p⟩, ⟨_, b⟩), by simp, ?_, rfl, hu, hv⟩
  simp [caseWords, Token.word_of_kind hca, Token.word_of_kind harrow]

theorem reads_readMatch (hexpr : Reads expr (Phrase 9)) {t : Token} {ts rest : List Token}
    {e : Expr} (ht : t.kind = .kwMatch) (h : Gives (readMatch bound expr) (t :: ts) e rest) :
    ∃ used, t :: ts = used ++ rest ∧ Phrase 9 (used.map Token.word) e := by
  simp only [readMatch, gives_bind, gives_expect, ne_eq, reduceCtorEq, not_false_eq_true] at h
  obtain ⟨word, _, hnext, e, _, he, wi, _, ⟨hwi, rfl⟩, lb, _, ⟨hlb, rfl⟩, ⟨arms, brace⟩, mid,
    hitems, h⟩ := h
  obtain ⟨rfl, rfl⟩ := (gives_next (by simp [ht])).1 hnext
  obtain ⟨u, rfl, hu⟩ := hexpr he
  obtain ⟨hbrace, used, ss, rfl, rfl, hss, hsep, -⟩ :=
    hitems.items_sound caseWords (fun s => (s.1.tree, s.2.tree))
      (fun s => Pat.Phrase 2 s.1.words s.1.tree ∧ Phrase 9 s.2.words s.2.tree)
      (reads_readArm hexpr)
  dsimp only at h
  split at h
  · exact absurd h not_gives_failAt
  · next hne =>
    obtain ⟨rfl, rfl⟩ := gives_pure.1 h
    refine ⟨word :: (u ++ wi :: lb :: (used ++ [brace])), by simp, ?_⟩
    have hrow := hsep (by simpa using hne)
    simpa [between, Token.word_of_kind ht, Token.word_of_kind hwi, Token.word_of_kind hlb,
      Token.word_of_kind hbrace] using
      Phrase.select hu (fun s hs => (hss s hs).1) (fun s hs => (hss s hs).2) hrow

theorem gives_readFunction {ts rest : List Token} {e : Expr} :
    Gives (readFunction bound expr) ts e rest ↔
      (∃ p a mid b, head? bound ts = some ((p, a), mid) ∧ Gives expr mid b rest ∧
        .lambda p a b = e) ∨
      head? bound ts = none ∧ Gives (readCons bound expr) ts e rest := by
  cases hhead : head? bound ts with
  | none => simp [Gives, readFunction, hhead, StateT.run]
  | some found =>
    obtain ⟨⟨p, a⟩, mid⟩ := found
    have hrun : Gives (readFunction bound expr) ts e rest ↔
        Gives (Expr.lambda p a <$> expr) mid e rest := by
      simp [Gives, readFunction, hhead, StateT.run]
    rw [hrun, gives_map]
    simp

theorem reads_readFunction (hexpr : Reads expr (Phrase 9)) :
    Reads (readFunction bound expr) (Phrase 9) := by
  intro ts e rest h
  obtain ⟨p, a, mid, b, hhead, hb, rfl⟩ | ⟨-, h⟩ := gives_readFunction.1 h
  · obtain ⟨used, arrow, rfl, harrow, hused⟩ := reads_head? hhead
    obtain ⟨used', rfl, hused'⟩ := hexpr hb
    refine ⟨used ++ arrow :: used', by simp, ?_⟩
    simpa [Token.word_of_kind harrow] using Phrase.lambda hused hused'
  · obtain ⟨used, rfl, hused⟩ := reads_readCons hexpr h
    exact ⟨used, rfl, hused.loosen⟩

theorem reads_readWith (hexpr : Reads expr (Phrase 9)) :
    Reads (readWith bound expr) (Phrase 9) := by
  intro ts e rest h
  rw [readWith, gives_bind] at h
  obtain ⟨t, _, hpeek, h⟩ := h
  obtain ⟨rfl, mid, rfl⟩ := gives_peek.1 hpeek
  split at h
  · exact reads_readConditional hexpr ‹_› h
  · exact reads_readMatch hexpr ‹_› h
  · exact reads_readFunction hexpr h

/-- **What is read as an expression is a phrase for it.** -/
theorem reads_read (bound : Nat) : Reads (read bound) (Phrase 9) := by
  induction bound with
  | zero => exact fun h => absurd h not_gives_tooDeep
  | succ n ih => exact reads_readWith ih

end Expr

end LetPoly
