import LetPoly.Proofs.Stopping

/-! # Unfinished sources can be finished

Words are **viable** as a phrase if other words can be put behind them so that a phrase
stands there (`Viable`).  Viable words stay viable in every place of the grammar: what is
still open there is closed by a few fixed words, such as `)` or `then x else x`
(`Viable.close`).  So wherever a reader stops at the end of the input, the words before
the end are viable (`Reader.Completes`): the reader stops within a part, whose words are
viable already, or before a token that it takes next, which may be put there.

What is put there is spelled by some text, and on the longer source the parser finds the
phrase, since it finds every phrase.  The attempts to read the head of a function, which
see more of the longer source, therefore need no care of their own.
-/

namespace LetPoly

open Reader Word Token

/-! ## The words that finish a phrase -/

namespace Word

/-- The words that are put behind others to finish a phrase: the name `x`, the signs and
the keywords. -/
def isFiller : Word → Bool
  | .ident x => x == "x"
  | .mark k => (Kind.symbols ++ Kind.keywords).contains k
  | .int _ | .string _ => false

/-- Every row of such words is spelled by some text. -/
theorem exists_spells {q : List Word} (h : q.all isFiller) : ∃ s, Spells s q := by
  induction q with
  | nil => exact ⟨"", .empty⟩
  | cons x q ih =>
    rw [List.all_cons, Bool.and_eq_true] at h
    obtain ⟨s, hs⟩ := ih h.2
    cases x with
    | ident y =>
      obtain rfl : y = "x" := by simpa [isFiller] using h.1
      have hname : Named "x" := ⟨by decide, by decide⟩
      exact ⟨_, (Spells.name hname).append hs.blank (boundary_blank s)⟩
    | mark k => exact ⟨_, hs.before (by simpa [isFiller] using h.1)⟩
    | int _ | string _ => exact absurd h.1 (by simp [isFiller])

/-- The words of items that a semicolon follows each. -/
def terminated (ws : List (List Word)) : List Word := ws.flatMap (· ++ [.mark .semicolon])

theorem Separated.after {ws : List (List Word)} {w : List Word} (h : Separated ws w)
    (vs : List (List Word)) : Separated (vs ++ ws) (terminated vs ++ w) := by
  induction vs with
  | nil => exact h
  | cons v vs ih => simpa [terminated] using ih.cons v

end Word

/-! ## Viable words -/

/-- **The words can be finished to a phrase** by others of a certain kind. -/
def Viable {α : Type} (S : List Word → Prop) (P : List Word → α → Prop) (w : List Word) : Prop :=
  ∃ q a, S q ∧ P (w ++ q) a

/-- Rows to which fillers can be appended. -/
def Fillable (S : List Word → Prop) : Prop :=
  ∀ {q q' : List Word}, S q → q'.all isFiller → S (q ++ q')

theorem fillable_all : Fillable fun q => q.all isFiller := by
  intro q q' hq hq'
  simp_all

section Viable

variable {α β : Type} {S : List Word → Prop} {P : List Word → α → Prop} {Q : List Word → β → Prop}

/-- Viable words in a larger phrase, whose end is filled in. -/
theorem Viable.close (hS : Fillable S) {v w : List Word} (h : Viable S P v) (q' : List Word)
    (hq' : q'.all isFiller) (hQ : ∀ q a, P (v ++ q) a → ∃ b, Q (w ++ (q ++ q')) b) :
    Viable S Q w := by
  obtain ⟨q, a, hq, ha⟩ := h
  obtain ⟨b, hb⟩ := hQ q a ha
  exact ⟨q ++ q', b, hS hq hq', hb⟩

/-- Viable words in a larger phrase that ends with them. -/
theorem Viable.imp {v w : List Word} (h : Viable S P v)
    (hQ : ∀ q a, P (v ++ q) a → ∃ b, Q (w ++ q) b) : Viable S Q w := by
  obtain ⟨q, a, hq, ha⟩ := h
  obtain ⟨b, hb⟩ := hQ q a ha
  exact ⟨q, b, hq, hb⟩

/-- What fillers can follow can be left to be filled in. -/
theorem Viable.shorten {v w : List Word} (h : Viable (·.all isFiller) P (w ++ v))
    (hv : v.all isFiller) : Viable (·.all isFiller) P w := by
  obtain ⟨q, a, hq, ha⟩ := h
  exact ⟨v ++ q, a, by simp_all, by simpa using ha⟩

end Viable

/-! ## Rows that end too early -/

namespace Reader

variable {α β : Type} {P : List Word → α → Prop} {Q : List Word → β → Prop}

/-- What stands before the end of the input can be finished. -/
def Unfinished (P : List Word → α → Prop) (ts : List Token) : Prop :=
  ∃ us last rest, ts = us ++ last :: rest ∧ last.kind = .eof ∧
    Viable (·.all isFiller) P (us.map Token.word)

/-- Where the reader stops, what stands before the end of the input can be finished. -/
def Completes (r : Reader α) (P : List Word → α → Prop) : Prop :=
  ∀ {ts}, Stops r ts → Unfinished P ts

/-- Nothing stands before the end of the input. -/
theorem unfinished_nil {t : Token} {ts : List Token} (ht : t.kind = .eof)
    (h : Viable (·.all isFiller) P []) : Unfinished P (t :: ts) :=
  ⟨[], t, ts, rfl, ht, h⟩

/-- A whole phrase stands before the end of the input. -/
theorem unfinished_of_gives {r : Reader α} (hr : Reads r P) {ts mid : List Token} {a : α}
    {t : Token} (h : Gives r ts a (t :: mid)) (ht : t.kind = .eof) : Unfinished P ts := by
  obtain ⟨used, rfl, hused⟩ := hr h
  exact ⟨used, t, mid, rfl, ht, [], a, rfl, by simpa using hused⟩

/-- What can be finished, in a larger phrase. -/
theorem Unfinished.within {ts : List Token} (h : Unfinished P ts) (front : List Token)
    (hQ : ∀ w, Viable (·.all isFiller) P w →
      Viable (·.all isFiller) Q (front.map Token.word ++ w)) : Unfinished Q (front ++ ts) := by
  obtain ⟨us, last, rest, rfl, hlast, hus⟩ := h
  exact ⟨front ++ us, last, rest, by simp, hlast, by simpa using hQ _ hus⟩

theorem Unfinished.imp {ts : List Token} (h : Unfinished P ts)
    (hQ : ∀ w, Viable (·.all isFiller) P w → Viable (·.all isFiller) Q w) : Unfinished Q ts := by
  simpa using h.within [] hQ

/-- A reader that ends with a token of the kind. -/
theorem Completes.closed {r : Reader α} (h : Completes r P) (hr : Reads r P) {k : Token.Kind}
    (hk : k ≠ .eof) {place : SyntaxError.Place} {f : α → β} {ts : List Token}
    (hstops : Stops (do let a ← r; let _ ← expect k place; return f a) ts) : Unfinished P ts := by
  obtain hstops | ⟨a, t, mid, ha, ht⟩ := (stops_closed hk).1 hstops
  · exact h hstops
  · exact unfinished_of_gives hr ha ht

/-- A row of items stops within an item or behind one. -/
theorem Stops.items_sound {σ : Type} (words : σ → List Word) (P : σ → Prop) {item : Reader α}
    {place : SyntaxError.Place} {n : Nat} {ts : List Token}
    (hitem : ∀ {ts a rest}, Gives item ts a rest →
      ∃ used s, ts = used ++ rest ∧ used.map Token.word = words s ∧ P s)
    (h : Stops (items item place n) ts) : ∃ used mid, ∃ ss : List σ, ts = used ++ mid ∧
      used.map Token.word = terminated (ss.map words) ∧ (∀ s ∈ ss, P s) ∧
      (Stops item mid ∨ ∃ a t rest, Gives item mid a (t :: rest) ∧ t.kind = .eof) := by
  induction n generalizing ts with
  | zero => exact absurd h not_stops_tooDeep
  | succ n ih =>
    obtain ⟨-, h | ⟨a, t, mid, ha, ⟨ht, hmore⟩ | ht⟩⟩ := stops_items_succ.1 h
    · exact ⟨[], ts, [], rfl, rfl, by simp, .inl h⟩
    · obtain ⟨used, s, rfl, hused, hs⟩ := hitem ha
      obtain ⟨used', mid', ss, rfl, hused', hss, hend⟩ := ih hmore
      refine ⟨used ++ t :: used', mid', s :: ss, by simp, ?_, by simpa [hs] using hss, hend⟩
      simp [hused, hused', terminated, Token.word_of_kind ht]
    · exact ⟨[], ts, [], rfl, rfl, by simp, .inr ⟨a, t, mid, ha, ht⟩⟩

end Reader

/-! ## Types -/

namespace Ty

theorem phrase_x : Phrase 4 [.ident "x"] (.var "x") :=
  Phrase.mono (.var (by decide)) (by decide : 1 ≤ 4)

section Readers

variable {type : Reader Ty} (hreads : Reads type (Phrase 4)) (htype : Completes type (Phrase 4))

include hreads htype

theorem completes_readAtom : Completes (readAtom type) (Phrase 1) := by
  intro ts h
  obtain ⟨t, mid, rfl, ⟨hne, h⟩ | ⟨hk, h⟩⟩ := stops_next_bind.1 h
  · split at h
    · exact absurd h not_stops_pure
    · next hk =>
      refine (htype.closed hreads (by decide) h).within [t] fun w hw => ?_
      rw [List.map_singleton, Token.word_of_kind hk (by decide)]
      exact hw.close fillable_all [.mark .rparen] rfl fun q a ha =>
        ⟨a, by simpa [between] using Phrase.paren ha⟩
    · next hk =>
      refine (htype.closed hreads (by decide) h).within [t] fun w hw => ?_
      rw [List.map_singleton, Token.word_of_kind hk (by decide)]
      exact hw.close fillable_all [.mark .rbracket] rfl fun q a ha =>
        ⟨.list a, by simpa [between] using Phrase.list ha⟩
    · exact absurd (by simpa [stops_failAt, SyntaxError.Cause.incomplete] using h) hne
  · exact unfinished_nil hk ⟨[.ident "x"], .var "x", rfl, .var (by decide)⟩

theorem completes_readApp (bound : Nat) : Completes (readApp bound type) (Phrase 2) := by
  intro ts hstops
  obtain h | ⟨func, mid, hfunc, h⟩ := stops_bind.1 hstops
  · exact (completes_readAtom hreads htype h).imp fun w hw =>
      hw.imp fun q a ha => ⟨a, ha.loosen⟩
  · obtain ⟨used, hts, hused⟩ := reads_readAtom hreads hfunc
    obtain ⟨f, mid, ⟨used, rfl, hf⟩, hstep⟩ := h.extend_induction
      (fun mid a => ∃ used, ts = used ++ mid ∧ Phrase 2 (used.map Token.word) a)
      (by
        rintro f mid _ mid' ⟨used, rfl, hf⟩ hstep
        obtain ⟨_, _, _, ⟨-, x, hx, ⟨⟩⟩ | ⟨-, ⟨⟩, -⟩⟩ := gives_optional.1 hstep
        obtain ⟨used', rfl, hused'⟩ := reads_readAtom hreads hx
        exact ⟨used ++ used', by simp, by simpa using hf.app hused'⟩)
      ⟨used, hts, hused.loosen⟩
    obtain ⟨-, -, -, -, harg⟩ := stops_optional.1 hstep
    refine (completes_readAtom hreads htype harg).within used fun w hw => ?_
    exact hw.imp fun q a ha => ⟨.app f a, by simpa using hf.app ha⟩

theorem completes_readArrow (bound : Nat) : Completes (readArrow bound type) (Phrase 3) := by
  intro ts hstops
  obtain h | ⟨arg, mid, harg, h⟩ := stops_bind.1 hstops
  · exact (completes_readApp hreads htype bound h).imp fun w hw =>
      hw.imp fun q a ha => ⟨a, ha.loosen⟩
  · obtain ⟨used, rfl, hused⟩ := reads_readApp hreads bound harg
    obtain ⟨t, mid, rfl, ht, h⟩ | ⟨_, _, _, _, h⟩ :=
      (stops_accept (by decide : Token.Kind.arrow ≠ .eof)).1 h
    · rw [if_pos rfl, bind_pure_comp, stops_map] at h
      rw [List.append_cons]
      refine (htype h).within (used ++ [t]) fun w hw => ?_
      exact hw.imp fun q a ha => ⟨.arrow arg a, by
        simpa [Token.word_of_kind ht] using hused.arrow ha⟩
    · exact absurd h not_stops_pure

theorem completes_readWith (bound : Nat) : Completes (readWith bound type) (Phrase 4) := by
  intro ts hstops
  obtain ⟨t, mid, rfl, h⟩ := stops_peek_bind.1 hstops
  split at h
  · next hk =>
    have htfn := Token.word_of_kind hk (by decide)
    rw [stops_next_then (by simp [hk]), stops_expect_bind (by decide)] at h
    obtain ⟨x, mid, rfl, hx | ⟨hx, h⟩⟩ := h
    · exact ⟨[t], x, mid, rfl, hx, [.ident "x", .mark .arrow, .ident "x"], _, rfl,
        by simpa [htfn] using Phrase.tfn phrase_x⟩
    · have hname := Token.word_ident hx
      obtain ⟨arrow, mid, rfl, harrow | ⟨harrow, h⟩⟩ := (stops_expect_bind (by decide)).1 h
      · exact ⟨[t, x], arrow, mid, rfl, harrow, [.mark .arrow, .ident "x"], _, rfl,
          by simpa [htfn, hname] using Phrase.tfn phrase_x⟩
      · rw [bind_pure_comp, stops_map] at h
        refine (htype h).within [t, x, arrow] fun w hw => ?_
        exact hw.imp fun q a ha => ⟨.poly x.literal a, by
          simpa [htfn, hname, Token.word_of_kind harrow] using Phrase.tfn ha⟩
  · obtain ⟨u, _, hpeek, h⟩ := (stops_bind.1 h).resolve_left not_stops_peekSecond
    obtain ⟨rfl, hsecond⟩ := gives_peekSecond.1 hpeek
    split at h
    · next hk =>
      simp only [Bool.and_eq_true, decide_eq_true_eq] at hk
      obtain ⟨ht, hdot⟩ := hk
      obtain ⟨_, mid, ⟨⟩⟩ | ⟨⟨⟩⟩ := hsecond
      · rw [stops_next_then (by simp [ht]), stops_next_then (by simp [hdot]), bind_pure_comp,
          stops_map] at h
        refine (htype h).within [t, u] fun w hw => ?_
        exact hw.imp fun q a ha => ⟨.poly t.literal a, by
          simpa [Token.word_ident ht, Token.word_of_kind hdot] using Phrase.dot ha⟩
      · rw [ht] at hdot
        cases hdot
    · exact (completes_readArrow hreads htype bound h).imp fun w hw =>
        hw.imp fun q a ha => ⟨a, ha.loosen⟩

end Readers

theorem completes_read (bound : Nat) : Completes (read bound) (Phrase 4) := by
  induction bound with
  | zero => exact fun h => absurd h not_stops_tooDeep
  | succ n ih => exact completes_readWith (reads_read n) ih n

end Ty

/-! ## Patterns -/

namespace Pat

section Readers

variable {pat : Reader Pat} (hreads : Reads pat (Phrase 2)) (hpat : Completes pat (Phrase 2))

include hreads hpat

theorem completes_readAtomWith : Completes (readAtomWith pat) (Phrase 1) := by
  intro ts hstops
  obtain ⟨t, mid, rfl, ⟨hne, h⟩ | ⟨hk, h⟩⟩ := stops_next_bind.1 hstops
  · split at h
    · rw [bind_pure_comp, stops_map] at h
      exact absurd h not_stops_numeral
    · exact absurd h not_stops_pure
    · exact absurd h not_stops_pure
    · exact absurd h not_stops_pure
    · exact absurd h not_stops_pure
    · exact absurd h not_stops_pure
    · next hk =>
      obtain ⟨u, mid, rfl, hu | ⟨-, h⟩⟩ := (stops_expect_bind (by decide)).1 h
      · exact ⟨[t], u, mid, rfl, hu, [.mark .rbracket], .nil, rfl,
          by simpa [between, Token.word_of_kind hk] using Phrase.nil⟩
      · exact absurd h not_stops_pure
    · next hk =>
      obtain ⟨_, _, -, -, h⟩ | ⟨_, _, rfl, -, h⟩ := (stops_accept (by decide)).1 h
      · exact absurd h not_stops_pure
      · rw [if_neg (by decide)] at h
        refine (hpat.closed hreads (by decide) h).within [t] fun w hw => ?_
        rw [List.map_singleton, Token.word_of_kind hk (by decide)]
        exact hw.close fillable_all [.mark .rparen] rfl fun q a ha =>
          ⟨a, by simpa [between] using Phrase.paren ha⟩
    · exact absurd (by simpa [stops_failAt, SyntaxError.Cause.incomplete] using h) hne
  · exact unfinished_nil hk ⟨[.ident "x"], .ident "x", rfl, .ident⟩

theorem completes_readWith : Completes (readWith pat) (Phrase 2) := by
  intro ts hstops
  obtain h | ⟨head, mid, hhead, h⟩ := stops_bind.1 hstops
  · exact (completes_readAtomWith hreads hpat h).imp fun w hw =>
      hw.imp fun q p hp => ⟨p, hp.loosen⟩
  · obtain ⟨used, rfl, hused⟩ := reads_readAtomWith hreads hhead
    obtain ⟨t, mid, rfl, ht, h⟩ | ⟨_, _, _, _, h⟩ := (stops_accept (by decide)).1 h
    · rw [if_pos rfl, bind_pure_comp, stops_map] at h
      rw [List.append_cons]
      refine (hpat h).within (used ++ [t]) fun w hw => ?_
      exact hw.imp fun q p hp => ⟨.cons head p, by
        simpa [Token.word_of_kind ht] using hused.cons hp⟩
    · exact absurd h not_stops_pure

end Readers

theorem completes_read (bound : Nat) : Completes (read bound) (Phrase 2) := by
  induction bound with
  | zero => exact fun h => absurd h not_stops_tooDeep
  | succ n ih => exact completes_readWith (reads_read n) ih

theorem completes_readAtom (bound : Nat) : Completes (readAtom bound) (Phrase 1) :=
  completes_readAtomWith (reads_read bound) (completes_read bound)

end Pat

/-! ## Expressions -/

namespace Expr

/-- The phrases of a case. -/
def Case (w : List Word) (arm : Pat × Expr) : Prop :=
  ∃ s : Spelled Pat × Spelled Expr, w = caseWords s ∧ (s.1.tree, s.2.tree) = arm ∧
    Pat.Phrase 2 s.1.words s.1.tree ∧ Phrase 9 s.2.words s.2.tree

theorem phrase_x {n : Nat} (hn : 1 ≤ n) : Phrase n [.ident "x"] (.ident "x") :=
  Phrase.mono .ident hn

theorem case_x {w : List Word} {p : Pat} (hp : Pat.Phrase 2 w p) :
    Case (.mark .kwCase :: (w ++ [.mark .fatArrow, .ident "x"])) (p, .ident "x") :=
  ⟨(⟨w, p⟩, ⟨[.ident "x"], .ident "x"⟩), rfl, rfl, hp, phrase_x (by decide)⟩

theorem viable_case : Viable (·.all isFiller) Case [] :=
  ⟨[.mark .kwCase, .ident "x", .mark .fatArrow, .ident "x"], _, rfl,
    case_x Pat.Phrase.ident.loosen⟩

/-! ### Viable words in larger phrases -/

section Places

variable {S : List Word → Prop} (hS : Fillable S) {u v w : List Word} {e f : Expr}

theorem viable_mono {m n : Nat} (h : Viable S (Phrase m) w) (hmn : m ≤ n) :
    Viable S (Phrase n) w :=
  h.imp fun _ e he => ⟨e, he.mono hmn⟩

theorem viable_argument (hf : Phrase 2 v f) (h : Viable S (Phrase 1) w) :
    Viable S (Phrase 2) (v ++ w) :=
  h.imp fun _ a ha => ⟨.app f a, by simpa using hf.app ha⟩

theorem viable_operand {n : Nat} {k : Token.Kind} {op : Op} (hop : k.name = op.spelling)
    (hlevel : op.level = n + 1) (hl : Phrase (n + 1) v e) (h : Viable S (Phrase n) w) :
    Viable S (Phrase (n + 1)) (v ++ .mark k :: w) :=
  h.imp fun _ r hr => ⟨.binary op e r, by simpa using Phrase.binary hop hlevel hl hr⟩

theorem viable_tail (hh : Phrase 7 v e) (h : Viable S (Phrase 9) w) :
    Viable S (Phrase 8) (v ++ .mark .cons :: w) :=
  h.imp fun _ t ht => ⟨.cons e t, by simpa using hh.cons ht⟩

theorem viable_body {p : Pat} {a : Option Ty} (hp : Head v p a) (h : Viable S (Phrase 9) w) :
    Viable S (Phrase 9) (v ++ .mark .fatArrow :: w) :=
  h.imp fun _ b hb => ⟨.lambda p a b, by simpa using Phrase.lambda hp hb⟩

theorem viable_else (hc : Phrase 9 u e) (hy : Phrase 9 v f) (h : Viable S (Phrase 9) w) :
    Viable S (Phrase 9) (.mark .kwIf :: (u ++ .mark .kwThen :: (v ++ .mark .kwElse :: w))) :=
  h.imp fun _ n hn => ⟨.cond e f n, by simpa using Phrase.cond hc hy hn⟩

theorem viable_value {k : Token.Kind} {binder : Binder} {p : Pat} {a : Option Ty}
    (hk : k.name = binder.spelling) (hp : Pat.Phrase 1 u p) (ha : Ascription v a)
    (h : Viable S (Phrase 9) w) :
    Viable S (Phrase 10) (.mark k :: (u ++ v ++ .mark .assign :: w)) :=
  h.imp fun _ e he => ⟨.define binder p a e, by simpa using Phrase.define hk hp ha he⟩

theorem viable_arm {p : Pat} (hp : Pat.Phrase 2 v p) (h : Viable S (Phrase 9) w) :
    Viable S Case (.mark .kwCase :: (v ++ .mark .fatArrow :: w)) :=
  h.imp fun q b hb => ⟨(p, b), (⟨v, p⟩, ⟨w ++ q, b⟩), by simp [caseWords], rfl, hp, hb⟩

include hS

theorem viable_paren (h : Viable S (Phrase 9) w) : Viable S (Phrase 1) (.mark .lparen :: w) :=
  h.close hS [.mark .rparen] rfl fun _ e he => ⟨e, by simpa [between] using Phrase.paren he⟩

theorem viable_test (h : Viable S (Phrase 9) w) : Viable S (Phrase 9) (.mark .kwIf :: w) :=
  h.close hS [.mark .kwThen, .ident "x", .mark .kwElse, .ident "x"] rfl fun _ c hc =>
    ⟨.cond c (.ident "x") (.ident "x"), by
      simpa using Phrase.cond hc (phrase_x (by decide)) (phrase_x (by decide))⟩

theorem viable_then (hc : Phrase 9 v e) (h : Viable S (Phrase 9) w) :
    Viable S (Phrase 9) (.mark .kwIf :: (v ++ .mark .kwThen :: w)) :=
  h.close hS [.mark .kwElse, .ident "x"] rfl fun _ y hy =>
    ⟨.cond e y (.ident "x"), by simpa using Phrase.cond hc hy (phrase_x (by decide))⟩

/-- A statement that can be finished, after others in a block: `x` makes the last one. -/
theorem viable_block {stmts : List (Spelled Expr)}
    (hs : ∀ s ∈ stmts, Phrase 10 s.words s.tree) (h : Viable S (Phrase 10) w) :
    Viable S (Phrase 1) (.mark .lbrace :: (terminated (stmts.map (·.words)) ++ w)) := by
  refine h.close hS [.mark .semicolon, .ident "x", .mark .rbrace] rfl fun q e he => ?_
  have hall : ∀ s ∈ stmts ++ [⟨w ++ q, e⟩, ⟨[.ident "x"], .ident "x"⟩],
      Phrase 10 s.words s.tree := by
    simp only [List.mem_append, List.mem_cons, List.not_mem_nil, or_false]
    rintro s (hmem | rfl | rfl)
    · exact hs s hmem
    · exact he
    · exact phrase_x (by decide)
  have hsep : Separated [w ++ q, [.ident "x"]] (w ++ q ++ .mark .semicolon :: [.ident "x"]) :=
    .cons _ (.last _)
  have hblock := Phrase.block hall (by simpa using hsep.after (stmts.map (·.words)))
    (by simp [isDefinition, definition?])
  exact ⟨_, by simpa [between] using hblock⟩

theorem viable_matched (h : Viable S (Phrase 9) w) : Viable S (Phrase 9) (.mark .kwMatch :: w) := by
  refine h.close hS [.mark .kwWith, .mark .lbrace, .mark .kwCase, .ident "x", .mark .fatArrow,
    .ident "x", .mark .rbrace] rfl fun q e he => ?_
  have hsep : Separated
      (List.map caseWords [(⟨[.ident "x"], .ident "x"⟩, ⟨[.ident "x"], .ident "x"⟩)])
      [.mark .kwCase, .ident "x", .mark .fatArrow, .ident "x"] := .last _
  have hselect := Phrase.select he (by simpa using Pat.Phrase.ident.loosen)
    (by simpa using phrase_x (by decide)) hsep
  exact ⟨_, by simpa [between] using hselect⟩

/-- A case that can be finished, after others in a match. -/
theorem viable_select {arms : List (Spelled Pat × Spelled Expr)} (he : Phrase 9 v e)
    (hp : ∀ arm ∈ arms, Pat.Phrase 2 arm.1.words arm.1.tree)
    (hb : ∀ arm ∈ arms, Phrase 9 arm.2.words arm.2.tree) (h : Viable S Case w) :
    Viable S (Phrase 9) (.mark .kwMatch :: (v ++ .mark .kwWith :: .mark .lbrace ::
      (terminated (arms.map caseWords) ++ w))) := by
  refine h.close hS [.mark .rbrace] rfl ?_
  rintro q _ ⟨s, hw, -, hsp, hsb⟩
  have hpats : ∀ arm ∈ arms ++ [s], Pat.Phrase 2 arm.1.words arm.1.tree :=
    List.forall_mem_append.2 ⟨hp, List.forall_mem_singleton.2 hsp⟩
  have hbodies : ∀ arm ∈ arms ++ [s], Phrase 9 arm.2.words arm.2.tree :=
    List.forall_mem_append.2 ⟨hb, List.forall_mem_singleton.2 hsb⟩
  have hsep : Separated ((arms ++ [s]).map caseWords)
      (terminated (arms.map caseWords) ++ (w ++ q)) := by
    rw [hw, List.map_append]
    exact (Separated.last _).after _
  exact ⟨_, by simpa [between] using Phrase.select he hpats hbodies hsep⟩

end Places

/-! ### The readers -/

theorem completes_readAscription (bound : Nat) :
    Completes (readAscription bound) Ascription := by
  intro ts hstops
  rw [readAscription] at hstops
  obtain ⟨colon, mid, rfl, hcolon, h⟩ | ⟨_, _, _, _, h⟩ := (stops_accept (by decide)).1 hstops
  · rw [if_pos rfl, bind_pure_comp, stops_map] at h
    refine (Ty.completes_read bound h).within [colon] fun w hw => ?_
    rw [List.map_singleton, Token.word_of_kind hcolon (by decide)]
    exact hw.imp fun q t ht => ⟨some t, .some ht⟩
  · exact absurd h not_stops_pure

theorem word_of_opOf? {t : Token} {op : Op} (h : opOf? t.kind = some op) :
    t.word = .mark t.kind :=
  Token.word_of_kind rfl (by refine ⟨?_, ?_, ?_⟩ <;> intro hk <;> simp [hk, opOf?] at h)

/-- A turn of the loop over operators stops within the operand. -/
theorem stops_readOperation? {level : Nat} {operand : Reader Expr} {left : Expr}
    {ts : List Token} (hstops : Stops (readOperation? level operand left) ts) :
    ∃ t mid op, ts = t :: mid ∧ opOf? t.kind = some op ∧ op.level = level ∧
      Stops operand mid := by
  obtain ⟨t, mid, rfl, h⟩ := stops_peek_bind.1 hstops
  split at h
  · next op hop =>
    split at h
    · next hlevel =>
      rw [stops_next_then (by rintro hk; simp [hk, opOf?] at hop), bind_pure_comp, stops_map] at h
      exact ⟨t, mid, op, rfl, hop, hlevel, h⟩
    · exact absurd h not_stops_pure
  · exact absurd h not_stops_pure

/-- A function stops within its body, and where no function starts, what is tighter does. -/
theorem stops_readFunction {bound : Nat} {expr : Reader Expr} {ts : List Token}
    (h : Stops (readFunction bound expr) ts) :
    (∃ p a mid, head? bound ts = some ((p, a), mid) ∧ Stops expr mid) ∨
      Stops (readCons bound expr) ts := by
  cases hhead : head? bound ts with
  | none =>
    have hrun : readFunction bound expr ts = readCons bound expr ts := by
      simp [readFunction, hhead, StateT.run]
    rw [Stops, hrun] at h
    exact .inr h
  | some found =>
    obtain ⟨⟨p, a⟩, mid⟩ := found
    have hrun : readFunction bound expr ts = (Expr.lambda p a <$> expr : Reader Expr) mid := by
      simp [readFunction, hhead, StateT.run]
    rw [Stops, hrun] at h
    exact .inl ⟨p, a, mid, rfl, stops_map.1 h⟩

/-- What is read as a case is one. -/
theorem reads_case {bound : Nat} {expr : Reader Expr} (hreads : Reads expr (Phrase 9)) :
    Reads (readArm bound expr) Case := by
  intro ts arm rest h
  obtain ⟨used, s, hts, hused, htree, hp, hb⟩ := reads_readArm hreads h
  exact ⟨used, hts, s, hused, htree, hp, hb⟩

section Readers

variable {bound : Nat} {expr : Reader Expr} (hreads : Reads expr (Phrase 9))
  (hexpr : Completes expr (Phrase 9))

theorem completes_readDefinition (hexpr : Completes expr (Phrase 9)) {t : Token}
    {ts : List Token} (ht : t.kind = .kwVal ∨ t.kind = .kwVar)
    (hstops : Stops (readDefinition bound expr) (t :: ts)) : Unfinished (Phrase 10) (t :: ts) := by
  obtain ⟨k, binder, hk, hword⟩ : ∃ k, ∃ binder : Binder, k.name = binder.spelling ∧
      t.word = .mark k := by
    rcases ht with ht | ht
    · exact ⟨.kwVal, .val, rfl, Token.word_of_kind ht (by decide)⟩
    · exact ⟨.kwVar, .var, rfl, Token.word_of_kind ht (by decide)⟩
  rw [readDefinition, stops_next_then (by rcases ht with ht | ht <;> simp [ht])] at hstops
  obtain h | ⟨p, mid, hp, hafter⟩ := stops_bind.1 hstops
  · refine (Pat.completes_readAtom bound h).within [t] fun w hw => ?_
    refine hw.close fillable_all [.mark .assign, .ident "x"] rfl fun q p hp => ?_
    exact ⟨_, by simpa [hword] using Phrase.define hk hp .none (phrase_x (by decide))⟩
  · obtain ⟨us, rfl, hus⟩ := Pat.reads_readAtom bound hp
    obtain h | ⟨a, mid', ha, hassigned⟩ := stops_bind.1 hafter
    · refine (completes_readAscription bound h).within (t :: us) fun w hw => ?_
      refine hw.close fillable_all [.mark .assign, .ident "x"] rfl fun q a ha => ?_
      exact ⟨_, by simpa [hword] using Phrase.define hk hus ha (phrase_x (by decide))⟩
    · obtain ⟨vs, rfl, hvs⟩ := reads_readAscription ha
      obtain ⟨assign, mid, rfl, hend | ⟨hassign, h⟩⟩ := (stops_expect_bind (by decide)).1 hassigned
      · have hdefine := Phrase.define hk hus hvs (phrase_x (by decide))
        exact ⟨t :: (us ++ vs), assign, mid, by simp, hend, [.mark .assign, .ident "x"], _, rfl,
          by simpa [hword] using hdefine⟩
      · rw [bind_pure_comp, stops_map] at h
        have hvalue := (hexpr h).within (t :: (us ++ vs ++ [assign])) fun w hw => by
          simpa [hword, Token.word_of_kind hassign] using viable_value hk hus hvs hw
        simpa using hvalue

theorem completes_readStatement (hexpr : Completes expr (Phrase 9)) :
    Completes (readStatement bound expr) (Phrase 10) := by
  intro ts hstops
  obtain ⟨t, mid, rfl, h⟩ := stops_peek_bind.1 hstops
  split at h
  · exact completes_readDefinition hexpr (.inl ‹_›) h
  · exact completes_readDefinition hexpr (.inr ‹_›) h
  · exact (hexpr h).imp fun w hw => viable_mono hw (by decide)

include hreads hexpr

/-- A block, whose opening brace has been taken. -/
theorem completes_readBlock {t : Token} {ts : List Token} (ht : t.kind = .lbrace)
    (hstops : Stops (readBlock bound expr) ts) : Unfinished (Phrase 1) (t :: ts) := by
  obtain h | ⟨⟨stmts, brace⟩, mid, -, h⟩ := stops_bind.1 hstops
  · obtain ⟨used, mid, ss, rfl, hused, hss, hend⟩ := h.items_sound Spelled.words
      (fun s => Phrase 10 s.words s.tree) fun {ts a rest} h => by
        obtain ⟨used, hts, hused⟩ := reads_readStatement hreads h
        exact ⟨used, ⟨_, a⟩, hts, rfl, hused⟩
    have hlast : Unfinished (Phrase 10) mid := by
      obtain hend | ⟨a, t, rest, ha, hend⟩ := hend
      · exact completes_readStatement hexpr hend
      · exact unfinished_of_gives (reads_readStatement hreads) ha hend
    refine hlast.within (t :: used) fun w hw => ?_
    simpa [Token.word_of_kind ht, hused] using viable_block fillable_all hss hw
  · dsimp only at h
    split at h
    · exact absurd (stops_failAt.1 h) (by simp [SyntaxError.Cause.incomplete])
    · split at h
      · exact absurd (stops_failAt.1 h) (by simp [SyntaxError.Cause.incomplete])
      · exact absurd h not_stops_pure

theorem completes_readAtom : Completes (readAtom bound expr) (Phrase 1) := by
  intro ts hstops
  obtain ⟨t, mid, rfl, ⟨hne, h⟩ | ⟨hk, h⟩⟩ := stops_next_bind.1 hstops
  · split at h
    · rw [bind_pure_comp, stops_map] at h
      exact absurd h not_stops_numeral
    · exact absurd h not_stops_pure
    · exact absurd h not_stops_pure
    · exact absurd h not_stops_pure
    · exact absurd h not_stops_pure
    · next hk =>
      obtain ⟨u, mid, rfl, hu | ⟨-, h⟩⟩ := (stops_expect_bind (by decide)).1 h
      · exact ⟨[t], u, mid, rfl, hu, [.mark .rbracket], .nil, rfl,
          by simpa [between, Token.word_of_kind hk] using Phrase.nil⟩
      · exact absurd h not_stops_pure
    · next hk =>
      obtain ⟨_, _, -, -, h⟩ | ⟨_, _, rfl, -, h⟩ := (stops_accept (by decide)).1 h
      · exact absurd h not_stops_pure
      · rw [if_neg (by decide)] at h
        refine (hexpr.closed hreads (by decide) h).within [t] fun w hw => ?_
        rw [List.map_singleton, Token.word_of_kind hk (by decide)]
        exact viable_paren fillable_all hw
    · next hk => exact completes_readBlock hreads hexpr hk h
    · exact absurd (by simpa [stops_failAt, SyntaxError.Cause.incomplete] using h) hne
  · exact unfinished_nil hk ⟨[.ident "x"], .ident "x", rfl, .ident⟩

theorem completes_readApp : Completes (readApp bound expr) (Phrase 2) := by
  intro ts hstops
  obtain h | ⟨func, mid, hfunc, h⟩ := stops_bind.1 hstops
  · exact (completes_readAtom hreads hexpr h).imp fun w hw => viable_mono hw (by decide)
  · obtain ⟨used, hts, hused⟩ := reads_readAtom hreads hfunc
    obtain ⟨f, mid, ⟨used, rfl, hf⟩, hstep⟩ := h.extend_induction
      (fun mid e => ∃ used, ts = used ++ mid ∧ Phrase 2 (used.map Token.word) e)
      (by
        rintro f mid _ mid' ⟨used, rfl, hf⟩ hstep
        obtain ⟨_, _, _, ⟨-, a, ha, ⟨⟩⟩ | ⟨-, ⟨⟩, -⟩⟩ := gives_optional.1 hstep
        obtain ⟨used', rfl, hused'⟩ := reads_readAtom hreads ha
        exact ⟨used ++ used', by simp, by simpa using hf.app hused'⟩)
      ⟨used, hts, hused.loosen⟩
    obtain ⟨-, -, -, -, harg⟩ := stops_optional.1 hstep
    exact (completes_readAtom hreads hexpr harg).within used fun w hw => viable_argument hf hw

theorem completes_readOperators (tiers : Nat) :
    Completes (readOperators bound expr tiers) (Phrase (tiers + 2)) := by
  induction tiers with
  | zero => exact completes_readApp hreads hexpr
  | succ n ih =>
    have hoperand : Reads (readOperators bound expr n) (Phrase (n + 2)) :=
      reads_readOperators hreads n
    intro ts hstops
    rw [readOperators] at hstops
    obtain h | ⟨left, mid, hleft, h⟩ := stops_bind.1 hstops
    · exact (ih h).imp fun w hw => viable_mono hw (by omega)
    · obtain ⟨used, hts, hused⟩ := hoperand hleft
      obtain ⟨l, mid, ⟨used, rfl, hl⟩, hstep⟩ := h.extend_induction
        (fun mid e => ∃ used, ts = used ++ mid ∧ Phrase (n + 3) (used.map Token.word) e)
        (by
          rintro l mid _ mid' ⟨used, rfl, hl⟩ hstep
          obtain ⟨t, mid, rfl, ⟨op, r, hop, hlevel, hr, ⟨⟩⟩ | ⟨-, ⟨⟩, -⟩⟩ :=
            gives_readOperation?.1 hstep
          obtain ⟨used', rfl, hused'⟩ := hoperand hr
          refine ⟨used ++ t :: used', by simp, ?_⟩
          simpa [word_of_opOf? hop] using
            Phrase.binary (opOf?_eq_some.1 hop) hlevel hl hused')
        ⟨used, hts, hused.loosen⟩
      obtain ⟨t, mid, op, rfl, hop, hlevel, hright⟩ := stops_readOperation? hstep
      rw [List.append_cons]
      refine (ih hright).within (used ++ [t]) fun w hw => ?_
      simpa [word_of_opOf? hop] using viable_operand (opOf?_eq_some.1 hop) hlevel hl hw

theorem completes_readCons : Completes (readCons bound expr) (Phrase 8) := by
  intro ts hstops
  obtain h | ⟨head, mid, hhead, h⟩ := stops_bind.1 hstops
  · exact (completes_readOperators hreads hexpr 5 h).imp fun w hw => viable_mono hw (by decide)
  · obtain ⟨used, rfl, hused⟩ := reads_readOperators hreads 5 hhead
    obtain ⟨t, mid, rfl, ht, h⟩ | ⟨_, _, _, _, h⟩ := (stops_accept (by decide)).1 h
    · rw [if_pos rfl, bind_pure_comp, stops_map] at h
      rw [List.append_cons]
      refine (hexpr h).within (used ++ [t]) fun w hw => ?_
      simpa [Token.word_of_kind ht] using viable_tail hused hw
    · exact absurd h not_stops_pure

theorem completes_readConditional {t : Token} {ts : List Token} (ht : t.kind = .kwIf)
    (hstops : Stops (readConditional expr) (t :: ts)) : Unfinished (Phrase 9) (t :: ts) := by
  have hif := Token.word_of_kind ht (by decide)
  rw [readConditional, stops_next_then (by simp [ht])] at hstops
  obtain h | ⟨c, mid, hc, hafter⟩ := stops_bind.1 hstops
  · refine (hexpr h).within [t] fun w hw => ?_
    simpa [hif] using viable_test fillable_all hw
  · obtain ⟨us, rfl, hus⟩ := hreads hc
    obtain ⟨th, mid, rfl, hend | ⟨hth, hyes⟩⟩ := (stops_expect_bind (by decide)).1 hafter
    · refine (unfinished_of_gives hreads hc hend).within [t] fun w hw => ?_
      simpa [hif] using viable_test fillable_all hw
    · have hthen := Token.word_of_kind hth (by decide)
      rw [List.append_cons, ← List.cons_append]
      obtain h | ⟨y, mid', hy, helse⟩ := stops_bind.1 hyes
      · refine (hexpr h).within (t :: (us ++ [th])) fun w hw => ?_
        simpa [hif, hthen] using viable_then fillable_all hus hw
      · obtain ⟨vs, rfl, hvs⟩ := hreads hy
        obtain ⟨el, mid, rfl, hend | ⟨hel, hno⟩⟩ := (stops_expect_bind (by decide)).1 helse
        · refine (unfinished_of_gives hreads hy hend).within (t :: (us ++ [th])) fun w hw => ?_
          simpa [hif, hthen] using viable_then fillable_all hus hw
        · rw [bind_pure_comp, stops_map] at hno
          rw [List.append_cons vs, ← List.append_assoc]
          refine (hexpr hno).within (t :: (us ++ [th]) ++ (vs ++ [el])) fun w hw => ?_
          simpa [hif, hthen, Token.word_of_kind hel] using viable_else hus hvs hw

omit hreads in
theorem completes_readArm : Completes (readArm bound expr) Case := by
  intro ts hstops
  obtain ⟨t, mid, rfl, hend | ⟨ht, hpat⟩⟩ := (stops_expect_bind (by decide)).1 hstops
  · exact unfinished_nil hend viable_case
  · have hword := Token.word_of_kind ht (by decide)
    have hopen {w : List Word} (hw : Viable (·.all isFiller) (Pat.Phrase 2) w) :
        Viable (·.all isFiller) Case ([t].map Token.word ++ w) :=
      hw.close fillable_all [.mark .fatArrow, .ident "x"] rfl fun q p hp =>
        ⟨_, by simpa [hword] using case_x hp⟩
    obtain h | ⟨p, mid', hp, harrow⟩ := stops_bind.1 hpat
    · exact (Pat.completes_read bound h).within [t] fun w => hopen
    · obtain ⟨us, rfl, hus⟩ := Pat.reads_read bound hp
      obtain ⟨arrow, mid, rfl, hend | ⟨harrow, hbody⟩⟩ := (stops_expect_bind (by decide)).1 harrow
      · exact (unfinished_of_gives (Pat.reads_read bound) hp hend).within [t] fun w => hopen
      · rw [bind_pure_comp, stops_map] at hbody
        rw [List.append_cons, ← List.cons_append]
        refine (hexpr hbody).within (t :: (us ++ [arrow])) fun w hw => ?_
        simpa [hword, Token.word_of_kind harrow] using viable_arm hus hw

theorem completes_readMatch {t : Token} {ts : List Token} (ht : t.kind = .kwMatch)
    (hstops : Stops (readMatch bound expr) (t :: ts)) : Unfinished (Phrase 9) (t :: ts) := by
  have hmatch := Token.word_of_kind ht (by decide)
  rw [readMatch, stops_next_then (by simp [ht])] at hstops
  obtain h | ⟨e, mid, he, hafter⟩ := stops_bind.1 hstops
  · refine (hexpr h).within [t] fun w hw => ?_
    simpa [hmatch] using viable_matched fillable_all hw
  · obtain ⟨us, rfl, hus⟩ := hreads he
    obtain ⟨wi, mid, rfl, hend | ⟨hwi, hopen⟩⟩ := (stops_expect_bind (by decide)).1 hafter
    · refine (unfinished_of_gives hreads he hend).within [t] fun w hw => ?_
      simpa [hmatch] using viable_matched fillable_all hw
    · have hwith := Token.word_of_kind hwi (by decide)
      obtain ⟨lb, mid, rfl, hend | ⟨hlb, hitems⟩⟩ := (stops_expect_bind (by decide)).1 hopen
      · have hcases := viable_select fillable_all hus (List.forall_mem_nil _)
          (List.forall_mem_nil _) viable_case
        refine ⟨t :: (us ++ [wi]), lb, mid, by simp, hend, Viable.shorten (v := [.mark .lbrace]) ?_
          rfl⟩
        simpa [hmatch, hwith, terminated] using hcases
      · have hbrace := Token.word_of_kind hlb (by decide)
        obtain h | ⟨⟨arms, brace⟩, _, -, h⟩ := stops_bind.1 hitems
        · obtain ⟨used, mid, ss, rfl, hused, hss, hlast⟩ := h.items_sound caseWords
            (fun s => Pat.Phrase 2 s.1.words s.1.tree ∧ Phrase 9 s.2.words s.2.tree)
            fun h => by
              obtain ⟨used, s, hts, hused, -, hs⟩ := reads_readArm hreads h
              exact ⟨used, s, hts, hused, hs⟩
          have hcase : Unfinished Case mid := by
            obtain hlast | ⟨a, t, rest, ha, hend⟩ := hlast
            · exact completes_readArm hexpr hlast
            · exact unfinished_of_gives (reads_case hreads) ha hend
          have hselect := hcase.within (t :: (us ++ [wi, lb] ++ used)) fun w hw => by
            simpa [hmatch, hwith, hbrace, hused] using viable_select fillable_all hus
              (fun s hs => (hss s hs).1) (fun s hs => (hss s hs).2) hw
          simpa using hselect
        · dsimp only at h
          split at h
          · exact absurd (stops_failAt.1 h) (by simp [SyntaxError.Cause.incomplete])
          · exact absurd h not_stops_pure

theorem completes_readFunction : Completes (readFunction bound expr) (Phrase 9) := by
  intro ts hstops
  obtain ⟨p, a, mid, hhead, h⟩ | h := stops_readFunction hstops
  · obtain ⟨used, arrow, rfl, harrow, hused⟩ := reads_head? hhead
    rw [List.append_cons]
    refine (hexpr h).within (used ++ [arrow]) fun w hw => ?_
    simpa [Token.word_of_kind harrow] using viable_body hused hw
  · exact (completes_readCons hreads hexpr h).imp fun w hw => viable_mono hw (by decide)

theorem completes_readWith : Completes (readWith bound expr) (Phrase 9) := by
  intro ts hstops
  obtain ⟨t, mid, rfl, h⟩ := stops_peek_bind.1 hstops
  split at h
  · exact completes_readConditional hreads hexpr ‹_› h
  · exact completes_readMatch hreads hexpr ‹_› h
  · exact completes_readFunction hreads hexpr h

end Readers

theorem completes_read (bound : Nat) : Completes (read bound) (Phrase 9) := by
  induction bound with
  | zero => exact fun h => absurd h not_stops_tooDeep
  | succ n ih => exact completes_readWith (reads_read n) ih

theorem completes_readProgram (bound : Nat) : Completes (readProgram bound) Program := by
  intro ts hstops
  obtain h | ⟨e, mid, -, h⟩ := stops_bind.1 hstops
  · exact (completes_readStatement (completes_read bound) h).imp fun w hw =>
      hw.imp fun q e he => ⟨e, .statement he⟩
  · obtain ⟨_, _, -, -, h⟩ | ⟨_, _, -, -, h⟩ := (stops_accept (by decide)).1 h
    · exact absurd h not_stops_pure
    · exact absurd h not_stops_pure

/-- **Reading never waits in vain**: a source that ends too early can be finished on the
lines that follow. -/
theorem parseProgram_finish (source : List Char) (e : SyntaxError)
    (hfault : (Token.scan source).fault = none) (herror : parseProgram source = .error e)
    (hearly : e.incomplete = true) :
    ∃ more tree, parseProgram (source ++ '\n' :: more) = .ok tree := by
  have hstops := (readAll_stops hfault).1 ⟨e, herror, hearly⟩
  obtain ⟨us, last, rest, hus, hlast, q, tree, hq, hprogram⟩ := completes_readProgram _ hstops
  obtain ⟨text, htext⟩ := exists_spells hq
  obtain ⟨hmore, hwords⟩ := htext.scans.words
  refine ⟨text.toList, tree, parseProgram_eq_ok.2 ?_⟩
  obtain ⟨hline, hnone⟩ := words_newline hfault text.toList
  rw [hline, hnone, hwords]
  rw [words_of_eof hus hlast] at hprogram
  exact ⟨hmore, hprogram⟩

theorem parseProgram_finish_nested :
    parseProgram "f (x => match x with \x7b\n case 0 => \x7b val y".toList =
        .error ⟨⟨2, 19⟩, .expected .assign .definition ⟨.eof, "", ⟨2, 19⟩⟩⟩ ∧
      ∃ more tree, parseProgram ("f (x => match x with \x7b\n case 0 => \x7b val y".toList ++
        '\n' :: more) = .ok tree := by
  have hfault : (Token.scan "f (x => match x with \x7b\n case 0 => \x7b val y".toList).fault =
      none := by cbv
  have herror : parseProgram "f (x => match x with \x7b\n case 0 => \x7b val y".toList =
      .error ⟨⟨2, 19⟩, .expected .assign .definition ⟨.eof, "", ⟨2, 19⟩⟩⟩ := by cbv
  exact ⟨herror, parseProgram_finish _ _ hfault herror rfl⟩

end Expr

end LetPoly
