import LetPoly.Proofs.Derivation

/-! # Every phrase is read

A phrase is read as the tree that it stands for, wherever a token follows that cannot
go on the phrase (`Follows`).  There is one statement for each reader, about the phrases
of its level that are no longer than its bound; a reader of nested phrases is given
one that reads what is shorter.

* Applications and operators are chains: their loop reaches every tree that the words
  behind it stand for (`Reader.Reaches`), by induction on the derivation.
* Whether a function starts is found by trying.  The attempt never takes what is no
  function (`Expr.Phrase.not_head`), nor a plain head where a typed one stands, since
  there is no colon in a pattern.

Together with what is read being a phrase, the readers accept exactly the language of
the grammar, and since they give one tree, **the grammar is unambiguous**.
-/

namespace LetPoly

open Reader Word

/-! ## Types -/

namespace Ty

/-- The kinds of tokens that cannot go on a type of a level. -/
def Follows (n : Nat) (k : Token.Kind) : Prop :=
  (2 ≤ n → startsAtom k = false) ∧ (3 ≤ n → k ≠ .arrow ∧ k ≠ .dot)

/-- Arrows and quantifiers end alike. -/
theorem Follows.of_three {m : Nat} {k : Token.Kind} (h : Follows m k) (hm : 3 ≤ m) (n : Nat) :
    Follows n k :=
  ⟨fun _ => h.1 (by omega), fun _ => h.2 hm⟩

section Readers

variable {bound : Nat} {type : Reader Ty}
  (htype : ∀ w t, Phrase 4 w t → w.length < bound → Delivers type (Follows 4) w t)

include htype

theorem delivers_readAtom
    {w : List Word} {t : Ty} (h : Phrase 1 w t) (hw : w.length ≤ bound) :
    Delivers (readAtom type) (fun _ => True) w t := by
  intro ts next rest hts _
  cases h with
  | base hx | var hx =>
    obtain ⟨t, rfl, ht, hk : t.kind = .ident⟩ := Token.of_map_single hts
    simp [readAtom, gives_next_then, hk, gives_pure, ofName, Token.literal_of_ident ht, hx]
  | paren h | list h =>
    obtain ⟨left, us, right, rfl, hl, hus, hr⟩ := Token.of_map_between hts
    rw [length_between] at hw
    have hinner := htype _ _ h (by omega) us right (next :: rest) hus
      (by simp [hr, Follows, startsAtom])
    rw [readAtom, List.cons_append, gives_next_then (by simp [hl])]
    simp only [hl]
    rw [gives_closed (by decide)]
    exact ⟨_, right, by simpa using hinner, hr, rfl⟩
  | loosen h => exact absurd h.pos (by decide)

/-- The loop over arguments reaches every application. -/
theorem reaches_readApp
    {w : List Word} {t : Ty} (h : Phrase 2 w t) (hw : w.length ≤ bound) :
    Reaches (readAtom type) (readArg? type) bound (fun _ => True) w t := by
  -- The chain grows along the derivation at level 2.
  generalize hn : 2 = n at h
  induction h with
  | @app v w f a hf ha ih _ =>
    rw [List.length_append] at hw
    have hstarts := ha.starts
    refine (ih (by omega) rfl).turn (fun ts t rest hts _ => ?_)
      (hstarts.imp fun x => Exists.imp fun u h => ⟨h.1, trivial⟩)
    have harg := delivers_readAtom htype ha (by omega) ts t rest hts trivial
    obtain ⟨u, us, rfl, hu⟩ := Token.exists_first (fun k => startsAtom k) hts
      (hstarts.imp fun x => Exists.imp fun u h => ⟨h.1, h.2 (by decide)⟩)
    exact gives_optional.2 ⟨u, _, rfl, .inl ⟨hu, a, harg, rfl⟩⟩
  | @loosen n w t h _ =>
    obtain rfl : n = 1 := by omega
    exact (delivers_readAtom htype h hw).reaches (by obtain ⟨x, v, rfl, -⟩ := h.starts; simp)
  | _ => omega

theorem delivers_readApp
    {w : List Word} {t : Ty} (h : Phrase 2 w t) (hw : w.length ≤ bound) :
    Delivers (readApp bound type) (Follows 2) w t := by
  refine (reaches_readApp htype h hw).delivers hw (fun _ _ => trivial) fun t rest ht => ?_
  exact gives_optional.2 ⟨t, rest, rfl, .inr ⟨ht.1 (by decide), rfl, rfl⟩⟩

theorem delivers_readArrow
    {w : List Word} {t : Ty} (h : Phrase 3 w t) (hw : w.length ≤ bound) :
    Delivers (readArrow bound type) (Follows 3) w t := by
  intro ts next rest hts hnext
  rw [readArrow, gives_bind]
  cases h with
  | arrow ha hr =>
    obtain ⟨us, arrow, vs, rfl, hus, harrow, hvs⟩ := Token.of_map_mark hts
    simp only [List.length_append, List.length_cons] at hw
    have harg := delivers_readApp htype ha (by omega) us arrow (vs ++ next :: rest) hus
      (by simp [harrow, Follows, startsAtom])
    have hret := htype _ _ hr (by omega) vs next rest hvs (hnext.of_three (by decide) 4)
    refine ⟨_, _, by simpa using harg, ?_⟩
    refine (gives_accept (by decide)).2 (.inl ⟨arrow, _, rfl, harrow, ?_⟩)
    exact gives_bind.2 ⟨_, _, hret, gives_pure.2 ⟨rfl, rfl⟩⟩
  | loosen h =>
    have harg := delivers_readApp htype h hw ts next rest hts (hnext.of_three (by decide) 2)
    refine ⟨_, _, harg, (gives_accept (by decide)).2 (.inr ⟨next, rest, rfl, ?_, ?_⟩)⟩
    · exact (hnext.2 (by decide)).1
    · exact gives_pure.2 ⟨rfl, rfl⟩

theorem delivers_readWith
    {w : List Word} {t : Ty} (h : Phrase 4 w t) (hw : w.length ≤ bound) :
    Delivers (readWith bound type) (Follows 4) w t := by
  intro ts next rest hts hnext
  rw [readWith, gives_bind]
  cases h with
  | dot h =>
    obtain ⟨x, ts, rfl, hx, hts⟩ := List.map_eq_cons_iff.1 hts
    obtain ⟨dot, us, rfl, hdot, hus⟩ := List.map_eq_cons_iff.1 hts
    simp only [List.length_cons] at hw
    have hbody := htype _ _ h (by omega) us next rest hus hnext
    have hxk : x.kind = .ident := Token.kind_of_word hx
    have hdk : dot.kind = .dot := Token.kind_of_word hdot
    refine ⟨x, _, gives_peek.2 ⟨rfl, _, rfl⟩, ?_⟩
    rw [if_neg (by simp [hxk]), gives_bind]
    refine ⟨dot, _, gives_peekSecond.2 ⟨rfl, .inl ⟨x, _, rfl⟩⟩, ?_⟩
    rw [if_pos (by simp [hxk, hdk])]
    simp only [gives_bind, gives_pure]
    exact ⟨x, _, (gives_next (by simp [hxk])).2 ⟨rfl, rfl⟩, dot, _,
      (gives_next (by simp [hdk])).2 ⟨rfl, rfl⟩, _, _, hbody,
      by rw [Token.literal_of_ident hx], rfl⟩
  | tfn h =>
    obtain ⟨tfn, ts, rfl, htfn, hts⟩ := List.map_eq_cons_iff.1 hts
    obtain ⟨x, ts, rfl, hx, hts⟩ := List.map_eq_cons_iff.1 hts
    obtain ⟨arrow, us, rfl, harrow, hus⟩ := List.map_eq_cons_iff.1 hts
    simp only [List.length_cons] at hw
    have hbody := htype _ _ h (by omega) us next rest hus hnext
    have htk : tfn.kind = .kwTfn := Token.kind_of_word htfn
    refine ⟨tfn, _, gives_peek.2 ⟨rfl, _, rfl⟩, ?_⟩
    rw [if_pos htk]
    simp only [gives_bind, gives_expect, gives_pure, ne_eq, reduceCtorEq, not_false_eq_true]
    exact ⟨tfn, _, (gives_next (by simp [htk])).2 ⟨rfl, rfl⟩, x, _, ⟨Token.kind_of_word hx, rfl⟩,
      arrow, _, ⟨Token.kind_of_word harrow, rfl⟩, _, _, hbody,
      by rw [Token.literal_of_ident hx], rfl⟩
  | loosen h =>
    have harrow := delivers_readArrow htype h hw ts next rest hts (hnext.of_three (by decide) 3)
    obtain ⟨x, v, rfl, hx⟩ := h.starts
    obtain ⟨t, us, rfl, rfl, hus⟩ := List.map_eq_cons_iff.1 hts
    rw [Token.kind_word] at hx
    refine ⟨t, _, gives_peek.2 ⟨rfl, _, rfl⟩, ?_⟩
    rw [if_neg (by rintro hk; simp [hk, startsAtom] at hx), gives_bind]
    -- The second token is one of the phrase or the one that follows it.
    obtain ⟨u, vs, hvs, hu⟩ : ∃ u vs, us ++ next :: rest = u :: vs ∧
        (t.kind = .ident → u.kind ≠ .dot) := by
      cases us with
      | nil => exact ⟨next, rest, rfl, fun _ => (hnext.2 (by decide)).2⟩
      | cons u us =>
        refine ⟨u, _, rfl, fun ht hu => h.second (by decide) (by rw [Token.word_ident ht]) ?_⟩
        rw [← hus, List.map_cons, List.head?_cons, Token.word_of_kind hu (by decide)]
    refine ⟨u, _, gives_peekSecond.2 ⟨rfl, .inl ⟨t, vs, by rw [List.cons_append, hvs]⟩⟩, ?_⟩
    rw [if_neg (by simpa using hu)]
    exact harrow

end Readers

/-- **Every phrase for a type is read.** -/
theorem delivers_read (bound : Nat) {w : List Word} {t : Ty} (h : Phrase 4 w t)
    (hw : w.length < bound) : Delivers (read bound) (Follows 4) w t := by
  induction bound generalizing w t with
  | zero => omega
  | succ n ih => exact delivers_readWith (fun w t h hw => ih h hw) h (by omega)

end Ty

/-! ## Patterns -/

namespace Pat

section Readers

variable {bound : Nat} {pat : Reader Pat}
  (hpat : ∀ w p, Phrase 2 w p → w.length < bound → Delivers pat (· ≠ .cons) w p)

include hpat

theorem delivers_readAtomWith
    {w : List Word} {p : Pat} (h : Phrase 1 w p) (hw : w.length ≤ bound) :
    Delivers (readAtomWith pat) (fun _ => True) w p := by
  intro ts next rest hts _
  cases h with
  | number hn =>
    obtain ⟨t, rfl, ht, hk : t.kind = .int⟩ := Token.of_map_single hts
    simp [readAtomWith, gives_next_then, hk, gives_map, gives_numeral, Token.literal_of_int ht, hn]
  | string =>
    obtain ⟨t, rfl, ht, hk : t.kind = .string⟩ := Token.of_map_single hts
    simp [readAtomWith, gives_next_then, hk, gives_pure, Token.literal_of_string ht]
  | @boolean k b hb =>
    obtain ⟨t, rfl, -, hmark⟩ := Token.of_map_single hts
    have hk : t.kind = if b then .kwTrue else .kwFalse :=
      hmark.trans (Token.Kind.eq_of_boolText hb)
    cases b <;> simp [readAtomWith, gives_next_then, gives_pure, hk]
  | wildcard =>
    obtain ⟨t, rfl, -, hk : t.kind = .underscore⟩ := Token.of_map_single hts
    simp [readAtomWith, gives_next_then, hk, gives_pure]
  | ident =>
    obtain ⟨t, rfl, ht, hk : t.kind = .ident⟩ := Token.of_map_single hts
    simp [readAtomWith, gives_next_then, hk, gives_pure, Token.literal_of_ident ht]
  | unit =>
    obtain ⟨left, us, right, rfl, hl, hus, hr⟩ := Token.of_map_between hts
    obtain rfl := List.map_eq_nil_iff.1 hus
    simp [readAtomWith, gives_next_then, hl, gives_accept, hr, gives_pure]
  | nil =>
    obtain ⟨left, us, right, rfl, hl, hus, hr⟩ := Token.of_map_between hts
    obtain rfl := List.map_eq_nil_iff.1 hus
    simp [readAtomWith, gives_next_then, hl, gives_map, gives_expect, hr]
  | paren h =>
    obtain ⟨left, us, right, rfl, hl, hus, hr⟩ := Token.of_map_between hts
    rw [length_between] at hw
    have hinner := hpat _ _ h (by omega) us right (next :: rest) hus (by simp [hr])
    obtain ⟨x, v, rfl, hx⟩ := h.starts
    obtain ⟨t, us, rfl, rfl, hus⟩ := List.map_eq_cons_iff.1 hus
    have ht : t.kind ≠ .rparen := by
      rintro hk
      simp [hk, Expr.startsAtom] at hx
    rw [readAtomWith, List.cons_append, gives_next_then (by simp [hl])]
    simp only [hl]
    rw [gives_accept (by decide)]
    refine .inr ⟨t, _, rfl, ht, ?_⟩
    rw [if_neg (by decide), gives_closed (by decide)]
    exact ⟨_, right, by simpa using hinner, hr, rfl⟩
  | loosen h => exact absurd h.pos (by decide)

theorem delivers_readWith
    {w : List Word} {p : Pat} (h : Phrase 2 w p) (hw : w.length ≤ bound) :
    Delivers (readWith pat) (· ≠ .cons) w p := by
  intro ts next rest hts hnext
  rw [readWith, gives_bind]
  cases h with
  | cons hp hq =>
    obtain ⟨us, cons, vs, rfl, hus, hcons, hvs⟩ := Token.of_map_mark hts
    simp only [List.length_append, List.length_cons] at hw
    have hhead := delivers_readAtomWith hpat hp (by omega) us cons (vs ++ next :: rest) hus trivial
    have htail := hpat _ _ hq (by omega) vs next rest hvs hnext
    refine ⟨_, _, by simpa using hhead, ?_⟩
    refine (gives_accept (by decide)).2 (.inl ⟨cons, _, rfl, hcons, ?_⟩)
    exact gives_bind.2 ⟨_, _, htail, gives_pure.2 ⟨rfl, rfl⟩⟩
  | loosen h =>
    have hhead := delivers_readAtomWith hpat h hw ts next rest hts trivial
    refine ⟨_, _, hhead, (gives_accept (by decide)).2 (.inr ⟨next, rest, rfl, hnext, ?_⟩)⟩
    exact gives_pure.2 ⟨rfl, rfl⟩

end Readers

/-- **Every phrase for a pattern is read.** -/
theorem delivers_read (bound : Nat) {w : List Word} {p : Pat} (h : Phrase 2 w p)
    (hw : w.length < bound) : Delivers (read bound) (· ≠ .cons) w p := by
  induction bound generalizing w p with
  | zero => omega
  | succ n ih => exact delivers_readWith (fun w p h hw => ih h hw) h (by omega)

theorem delivers_readAtom (bound : Nat) {w : List Word} {p : Pat} (h : Phrase 1 w p)
    (hw : w.length ≤ bound) : Delivers (readAtom bound) (fun _ => True) w p :=
  delivers_readAtomWith (fun _ _ h hw => delivers_read bound h hw) h hw

end Pat

/-! ## Expressions -/

namespace Expr

/-- The kinds of tokens that cannot go on an expression of a level. -/
def Follows (n : Nat) (k : Token.Kind) : Prop :=
  (2 ≤ n → startsAtom k = false) ∧ (∀ op, opOf? k = some op → n < op.level) ∧
    (8 ≤ n → k ≠ .cons ∧ k ≠ .fatArrow)

theorem Follows.mono {m n : Nat} {k : Token.Kind} (h : Follows n k) (hmn : m ≤ n) :
    Follows m k :=
  ⟨fun hm => h.1 (by omega), fun op hop => Nat.lt_of_le_of_lt hmn (h.2.1 op hop),
    fun hm => h.2.2 (by omega)⟩

/-- What ends an operation of the loosest level ends every expression. -/
theorem Follows.of_eight {m : Nat} {k : Token.Kind} (h : Follows m k) (hm : 8 ≤ m) (n : Nat) :
    Follows n k :=
  ⟨fun _ => h.1 (by omega), fun op hop => by have := h.2.1 op hop; have := op.level_le; omega,
    fun _ => h.2.2 hm⟩

/-- An operator ends the expressions that bind tighter. -/
theorem Follows.of_opOf? {n : Nat} {k : Token.Kind} {op : Op} (h : opOf? k = some op)
    (hop : op.level = n + 1) : Follows n k := by
  refine ⟨fun _ => ?_, fun op' hop' => ?_, fun hn => ?_⟩
  · revert h
    cases k <;> first | exact fun _ => rfl | exact nofun
  · obtain rfl := Option.some.inj (h.symm.trans hop')
    omega
  · have := op.level_le
    omega

/-- The signs and keywords that end every expression. -/
theorem Follows.of_closing {k : Token.Kind}
    (h : k ∈ [.rparen, .rbrace, .semicolon, .kwThen, .kwElse, .kwWith, .eof]) (n : Nat) :
    Follows n k := by
  simp only [List.mem_cons, List.not_mem_nil, or_false] at h
  rcases h with rfl | rfl | rfl | rfl | rfl | rfl | rfl <;>
    exact ⟨fun _ => rfl, nofun, fun _ => by decide⟩

/-! ### Heads of functions -/

section Heads

variable {bound : Nat}

theorem gives_readPlainHead {v : List Word} {p : Pat} (h : Pat.Phrase 1 v p)
    (hv : v.length ≤ bound) {ts rest : List Token} {arrow : Token} (hts : ts.map Token.word = v)
    (harrow : arrow.kind = .fatArrow) :
    Gives (readPlainHead bound) (ts ++ arrow :: rest) (some p) rest := by
  have hp := Pat.delivers_readAtom bound h hv ts arrow rest hts trivial
  refine gives_bind.2 ⟨p, _, hp, (gives_accept (by decide)).2 (.inl ⟨arrow, rest, rfl, harrow, ?_⟩)⟩
  exact gives_pure.2 ⟨rfl, rfl⟩

theorem gives_readTypedHead {v w : List Word} {p : Pat} {t : Ty} (hp : Pat.Phrase 2 v p)
    (ht : Ty.Phrase 4 w t) (hvw : v.length + w.length < bound) {ts rest : List Token}
    {arrow : Token}
    (hts : ts.map Token.word = between .lparen .rparen (v ++ .mark .colon :: w))
    (harrow : arrow.kind = .fatArrow) :
    Gives (readTypedHead bound) (ts ++ arrow :: rest) (some (p, t)) rest := by
  obtain ⟨left, us, right, rfl, hl, hus, hr⟩ := Token.of_map_between hts
  obtain ⟨us, colon, vs, rfl, hus, hcolon, hvs⟩ := Token.of_map_mark hus
  have hpat := Pat.delivers_read bound hp (by omega) us colon (vs ++ right :: arrow :: rest) hus
    (by simp [hcolon])
  have htype := Ty.delivers_read bound ht (by omega) vs right (arrow :: rest) hvs
    (by simp [hr, Ty.Follows, Ty.startsAtom])
  refine (gives_accept (by decide)).2 (.inl ⟨left, _, rfl, hl, ?_⟩)
  refine gives_bind.2 ⟨p, _, by simpa using hpat, ?_⟩
  refine (gives_accept (by decide)).2 (.inl ⟨colon, _, rfl, hcolon, ?_⟩)
  refine gives_bind.2 ⟨t, _, htype, ?_⟩
  refine (gives_accept (by decide)).2 (.inl ⟨right, _, rfl, hr, ?_⟩)
  refine (gives_accept (by decide)).2 (.inl ⟨arrow, _, rfl, harrow, ?_⟩)
  exact gives_pure.2 ⟨rfl, rfl⟩

/-- Every head of a function is found, the one that stands there. -/
theorem head?_eq_some {v : List Word} {p : Pat} {a : Option Ty} (h : Head v p a)
    (hv : v.length ≤ bound) {ts rest : List Token} {arrow : Token} (hts : ts.map Token.word = v)
    (harrow : arrow.kind = .fatArrow) :
    head? bound (ts ++ arrow :: rest) = some ((p, a), rest) := by
  cases h with
  | plain hp =>
    have hread : (readPlainHead bound).run (ts ++ arrow :: rest) = .ok (some p, rest) :=
      gives_readPlainHead hp hv hts harrow
    rw [head?, hread]
  | @typed v w p t hp ht =>
    simp only [length_between, List.length_append, List.length_cons] at hv
    have hread : (readTypedHead bound).run (ts ++ arrow :: rest) = .ok (some (p, t), rest) :=
      gives_readTypedHead hp ht (by omega) hts harrow
    rw [head?]
    split
    · next q mid hplain =>
      obtain ⟨used, arrow', heq, harrow', hused⟩ := reads_readPlainHead hplain
      have hwords := congrArg (List.map Token.word) heq
      simp only [List.map_append] at hwords
      have hsame := (Head.typed hp ht).solid.eq hused.solid (hts ▸ hwords)
      exact absurd (by simp [← hsame, between]) hused.colon_notMem
    · rw [hread]

/-- No head of a function is found where another expression stands. -/
theorem head?_eq_none {n : Nat} {w : List Word} {e : Expr} (h : Phrase n w e) (hn : n ≤ 8)
    {ts rest : List Token} {next : Token} (hts : ts.map Token.word = w)
    (hnext : next.kind ≠ .fatArrow) : head? bound (ts ++ next :: rest) = none := by
  refine Option.eq_none_iff_forall_ne_some.2 fun ⟨⟨p, a⟩, mid⟩ hsome => ?_
  obtain ⟨used, arrow, heq, harrow, hhead⟩ := reads_head? hsome
  have hwords := congrArg (List.map Token.word) heq
  simp only [List.map_append, List.map_cons, hts, Token.word_of_kind harrow (by decide)] at hwords
  refine h.not_head hn ?_ hhead hwords
  intro hhead
  have : next.word = .mark .fatArrow := by simpa using hhead
  exact hnext (Token.kind_of_word this)

end Heads

/-! ### The readers -/

theorem delivers_readAscription (bound : Nat) {w : List Word} {a : Option Ty} (h : Ascription w a)
    (hw : w.length ≤ bound) : Delivers (readAscription bound) (· = .assign) w a := by
  intro ts next rest hts hnext
  rw [readAscription, gives_accept (by decide)]
  cases h with
  | none =>
    obtain rfl := List.map_eq_nil_iff.1 hts
    exact .inr ⟨next, rest, rfl, by simp [hnext], gives_pure.2 ⟨rfl, rfl⟩⟩
  | some h =>
    obtain ⟨colon, us, rfl, hcolon, hus⟩ := List.map_eq_cons_iff.1 hts
    have htype := Ty.delivers_read bound h hw us next rest hus
      (by simp [hnext, Ty.Follows, Ty.startsAtom])
    refine .inl ⟨colon, _, rfl, Token.kind_of_word hcolon, ?_⟩
    exact gives_bind.2 ⟨_, _, htype, gives_pure.2 ⟨rfl, rfl⟩⟩

section Readers

variable {bound : Nat} {expr : Reader Expr}
  (hexpr : ∀ w e, Phrase 9 w e → w.length < bound → Delivers expr (Follows 9) w e)

include hexpr

theorem delivers_readDefinition
    {u v w : List Word} {k : Token.Kind} {binder : Binder} {p : Pat} {a : Option Ty} {e : Expr}
    (hk : k.name = binder.spelling) (hp : Pat.Phrase 1 u p) (ha : Ascription v a)
    (he : Phrase 9 w e) (hw : u.length + v.length + w.length < bound) :
    Delivers (readDefinition bound expr) (Follows 9)
      (.mark k :: (u ++ v ++ .mark .assign :: w)) (.define binder p a e) := by
  intro ts next rest hts hnext
  obtain ⟨word, ts, rfl, hword, hts⟩ := List.map_eq_cons_iff.1 hts
  obtain ⟨uvs, assign, ws, rfl, huvs, hassign, hws⟩ := Token.of_map_mark hts
  obtain ⟨us, vs, rfl, hus, hvs⟩ := List.map_eq_append_iff.1 huvs
  have hvalue := hexpr w e he (by omega) ws next rest hws hnext
  have hascription := delivers_readAscription bound ha (by omega) vs assign (ws ++ next :: rest)
    hvs hassign
  -- After the pattern stands the ascription, or `=` at once.
  obtain ⟨t, mid, hmid⟩ : ∃ t mid, vs ++ assign :: (ws ++ next :: rest) = t :: mid := by
    cases vs <;> simp
  have hpat := Pat.delivers_readAtom bound hp (by omega) us t mid hus trivial
  rw [← hmid] at hpat
  have hkind : word.kind = if binder = .var then .kwVar else .kwVal :=
    (Token.kind_of_word hword).trans (Token.Kind.eq_of_binder hk)
  rw [readDefinition, List.cons_append, gives_next_then (by rw [hkind]; split <;> decide)]
  simp only [gives_bind, gives_expect, gives_pure, ne_eq, reduceCtorEq, not_false_eq_true]
  refine ⟨p, _, by simpa using hpat, a, _, hascription, assign, _, ⟨hassign, rfl⟩, e, _, hvalue, ?_,
    rfl⟩
  cases binder <;> simp [hkind]

theorem delivers_readStatement
    {w : List Word} {e : Expr} (h : Phrase 10 w e) (hw : w.length < bound) :
    Delivers (readStatement bound expr) (Follows 9) w e := by
  intro ts next rest hts hnext
  rw [readStatement, gives_bind]
  cases h with
  | binary _ hlevel _ _ =>
    have := Op.level_le ‹_›
    omega
  | @define u v w k binder p a e hk hp ha he =>
    simp only [List.length_append, List.length_cons] at hw
    have hread := delivers_readDefinition hexpr hk hp ha he (by omega) ts next rest hts hnext
    obtain ⟨word, us, rfl, hword, -⟩ := List.map_eq_cons_iff.1 hts
    refine ⟨word, _, gives_peek.2 ⟨rfl, _, rfl⟩, ?_⟩
    rw [Token.kind_of_word hword, Word.kind, Token.Kind.eq_of_binder hk]
    cases binder <;> exact hread
  | loosen h =>
    have hread := hexpr _ _ h hw ts next rest hts hnext
    obtain ⟨t, us, rfl, ht⟩ := Token.exists_first (Starts 9) hts h.starts
    refine ⟨t, _, gives_peek.2 ⟨rfl, _, rfl⟩, ?_⟩
    split
    · simp_all [Starts, startsAtom]
    · simp_all [Starts, startsAtom]
    · exact hread

/-- A block, whose opening brace has been taken. -/
theorem delivers_readBlock
    {w : List Word} {stmts : List (Spelled Expr)} (hs : ∀ s ∈ stmts, Phrase 10 s.words s.tree)
    (hsep : Separated (stmts.map (·.words)) w)
    (hlast : ∀ s ∈ stmts.getLast?, s.tree.isDefinition = false) (hw : w.length < bound) :
    Delivers (readBlock bound expr) (fun _ => True) (w ++ [.mark .rbrace])
      (.block (stmts.map (·.tree))) := by
  intro ts next rest hts _
  obtain ⟨us, brace, vs, rfl, hus, hbrace, hvs⟩ := Token.of_map_mark hts
  obtain rfl := List.map_eq_nil_iff.1 hvs
  have hitems : Gives (items (readStatement bound expr) .statementEnd bound)
      (us ++ brace :: next :: rest) (stmts.map (·.tree), brace) (next :: rest) := by
    refine items_complete hsep (fun s hmem => ?_) (fun s hmem us t rest hus ht => ?_) hus
      (by omega) hbrace
    · obtain ⟨x, v, hx, hstarts⟩ := (hs s hmem).starts
      refine ⟨x, v, hx, fun hk => ?_⟩
      simp [hk, Starts, startsAtom] at hstarts
    · have := (hsep.sublist (List.mem_map_of_mem hmem)).length_le
      refine delivers_readStatement hexpr (hs s hmem) (by omega) us t rest hus ?_
      exact .of_closing (by rcases ht with ht | ht <;> simp [ht]) 9
  rw [readBlock, gives_bind]
  refine ⟨_, _, by simpa using hitems, ?_⟩
  dsimp only
  rw [List.getLast?_map]
  cases hl : stmts.getLast? with
  | none =>
    obtain rfl := List.getLast?_eq_none_iff.1 hl
    exact absurd rfl hsep.ne_nil
  | some s => simp [hlast s hl, gives_pure]

theorem delivers_readAtom
    {w : List Word} {e : Expr} (h : Phrase 1 w e) (hw : w.length ≤ bound) :
    Delivers (readAtom bound expr) (fun _ => True) w e := by
  intro ts next rest hts _
  cases h with
  | number hn =>
    obtain ⟨t, rfl, ht, hk : t.kind = .int⟩ := Token.of_map_single hts
    simp [readAtom, gives_next_then, hk, gives_map, gives_numeral, Token.literal_of_int ht, hn]
  | string =>
    obtain ⟨t, rfl, ht, hk : t.kind = .string⟩ := Token.of_map_single hts
    simp [readAtom, gives_next_then, hk, gives_pure, Token.literal_of_string ht]
  | @boolean k b hb =>
    obtain ⟨t, rfl, -, hmark⟩ := Token.of_map_single hts
    have hk : t.kind = if b then .kwTrue else .kwFalse :=
      hmark.trans (Token.Kind.eq_of_boolText hb)
    cases b <;> simp [readAtom, gives_next_then, gives_pure, hk]
  | ident =>
    obtain ⟨t, rfl, ht, hk : t.kind = .ident⟩ := Token.of_map_single hts
    simp [readAtom, gives_next_then, hk, gives_pure, Token.literal_of_ident ht]
  | unit =>
    obtain ⟨left, us, right, rfl, hl, hus, hr⟩ := Token.of_map_between hts
    obtain rfl := List.map_eq_nil_iff.1 hus
    simp [readAtom, gives_next_then, hl, gives_accept, hr, gives_pure]
  | nil =>
    obtain ⟨left, us, right, rfl, hl, hus, hr⟩ := Token.of_map_between hts
    obtain rfl := List.map_eq_nil_iff.1 hus
    simp [readAtom, gives_next_then, hl, gives_map, gives_expect, hr]
  | paren h =>
    obtain ⟨left, us, right, rfl, hl, hus, hr⟩ := Token.of_map_between hts
    rw [length_between] at hw
    have hinner := hexpr _ _ h (by omega) us right (next :: rest) hus (.of_closing (by simp [hr]) 9)
    obtain ⟨t, us, rfl, ht⟩ := Token.exists_first (Starts 9) hus h.starts
    rw [readAtom, List.cons_append, gives_next_then (by simp [hl])]
    simp only [hl]
    rw [gives_accept (by decide)]
    refine .inr ⟨t, _, rfl, fun hk => by simp [hk, Starts, startsAtom] at ht, ?_⟩
    rw [if_neg (by decide), gives_closed (by decide)]
    exact ⟨_, right, by simpa using hinner, hr, rfl⟩
  | block hs hsep hlast =>
    obtain ⟨left, us, rfl, hl, hus⟩ := List.map_eq_cons_iff.1 hts
    rw [length_between] at hw
    have hblock := delivers_readBlock hexpr hs hsep hlast (by omega) us next rest hus trivial
    have hk : left.kind = .lbrace := Token.kind_of_word hl
    rw [readAtom, List.cons_append, gives_next_then (by simp [hk])]
    simpa only [hk] using hblock
  | binary _ hlevel _ _ =>
    have := Op.level_le ‹_›
    omega
  | loosen h => exact absurd h.pos (by decide)

/-- The loop over arguments reaches every application. -/
theorem reaches_readApp
    {w : List Word} {e : Expr} (h : Phrase 2 w e) (hw : w.length ≤ bound) :
    Reaches (readAtom bound expr) (readArg? bound expr) bound (fun _ => True) w e := by
  -- The chain grows along the derivation at level 2.
  generalize hn : 2 = n at h
  induction h with
  | @app v w f a hf ha ih _ =>
    rw [List.length_append] at hw
    have hstarts := ha.starts
    refine (ih (by omega) rfl).turn (fun ts t rest hts _ => ?_)
      (hstarts.imp fun x => Exists.imp fun u h => ⟨h.1, trivial⟩)
    have harg := delivers_readAtom hexpr ha (by omega) ts t rest hts trivial
    obtain ⟨u, us, rfl, hu⟩ := Token.exists_first (Starts 1) hts hstarts
    refine gives_optional.2 ⟨u, _, rfl, .inl ⟨?_, a, harg, rfl⟩⟩
    simpa [Starts] using hu
  | @loosen n w e h _ =>
    obtain rfl : n = 1 := by omega
    exact (delivers_readAtom hexpr h hw).reaches h.solid.ne_nil
  | binary _ hlevel _ _ _ _ =>
    have := Op.level_le ‹_›
    omega
  | _ => omega

theorem delivers_readApp
    {w : List Word} {e : Expr} (h : Phrase 2 w e) (hw : w.length ≤ bound) :
    Delivers (readApp bound expr) (Follows 2) w e := by
  refine (reaches_readApp hexpr h hw).delivers hw (fun _ _ => trivial) fun t rest ht => ?_
  exact gives_optional.2 ⟨t, rest, rfl, .inr ⟨ht.1 (by decide), rfl, rfl⟩⟩

omit hexpr in
/-- The loop over the operators of a level reaches every operation of the level, if its
operands are read. -/
theorem reaches_readOperators {m : Nat} (hmax : m < 5)
    (hm : ∀ {w e}, Phrase (m + 2) w e → w.length ≤ bound →
      Delivers (readOperators bound expr m) (Follows (m + 2)) w e)
    {w : List Word} {e : Expr} (h : Phrase (m + 3) w e) (hw : w.length ≤ bound) :
    Reaches (readOperators bound expr m) (readOperation? (m + 3) (readOperators bound expr m))
      bound (Follows (m + 2)) w e := by
  -- The chain grows along the derivation at the level of the operators.
  generalize hn : m + 3 = n at h
  induction h with
  | @binary n v w k op l r hop hlevel hl hr ihl _ =>
    obtain rfl : n = m + 2 := by omega
    rw [List.length_append, List.length_cons] at hw
    have hk := opOf?_eq_some.2 hop
    refine (ihl (by omega) rfl).turn (fun ts t rest hts ht => ?_)
      ⟨_, _, rfl, .of_opOf? hk hlevel⟩
    obtain ⟨opTok, us, rfl, hopTok, hus⟩ := List.map_eq_cons_iff.1 hts
    have hright := hm hr (by omega) us t rest hus ht
    refine gives_readOperation?.2 ⟨opTok, _, rfl, .inl ⟨op, r, ?_, hlevel, hright, rfl⟩⟩
    rw [Token.kind_of_word hopTok]
    exact hk
  | @loosen n w e h _ =>
    obtain rfl : n = m + 2 := by omega
    refine (hm h hw).reaches ?_
    obtain ⟨x, v, rfl, -⟩ := h.starts
    simp
  | _ => omega

theorem delivers_readOperators
    (tiers : Nat) (htiers : tiers ≤ 5) {w : List Word} {e : Expr} (h : Phrase (tiers + 2) w e)
    (hw : w.length ≤ bound) :
    Delivers (readOperators bound expr tiers) (Follows (tiers + 2)) w e := by
  induction tiers generalizing w e with
  | zero => exact delivers_readApp hexpr h hw
  | succ m ihm =>
    refine (reaches_readOperators htiers (ihm (by omega)) h hw).delivers hw
      (fun _ h => h.mono (by omega)) fun t rest ht => ?_
    refine gives_readOperation?.2 ⟨t, rest, rfl, .inr ⟨fun op hop => ?_, rfl, rfl⟩⟩
    have := ht.2.1 op hop
    omega

theorem delivers_readCons
    {w : List Word} {e : Expr} (h : Phrase 8 w e) (hw : w.length ≤ bound) :
    Delivers (readCons bound expr) (Follows 8) w e := by
  intro ts next rest hts hnext
  rw [readCons, gives_bind]
  cases h with
  | binary _ hlevel _ _ =>
    have := Op.level_le ‹_›
    omega
  | cons hh ht =>
    obtain ⟨us, cons, vs, rfl, hus, hcons, hvs⟩ := Token.of_map_mark hts
    simp only [List.length_append, List.length_cons] at hw
    have hhead := delivers_readOperators hexpr 5 (by decide) hh (by omega) us cons
      (vs ++ next :: rest) hus (by simp [hcons, Follows, startsAtom, opOf?])
    have htail := hexpr _ _ ht (by omega) vs next rest hvs (hnext.of_eight (by decide) 9)
    refine ⟨_, _, by simpa using hhead, ?_⟩
    refine (gives_accept (by decide)).2 (.inl ⟨cons, _, rfl, hcons, ?_⟩)
    exact gives_bind.2 ⟨_, _, htail, gives_pure.2 ⟨rfl, rfl⟩⟩
  | loosen h =>
    have hhead := delivers_readOperators hexpr 5 (by decide) h hw ts next rest hts
      (hnext.mono (by decide))
    refine ⟨_, _, hhead, (gives_accept (by decide)).2 (.inr ⟨next, rest, rfl, ?_, ?_⟩)⟩
    · exact (hnext.2.2 (by decide)).1
    · exact gives_pure.2 ⟨rfl, rfl⟩

theorem delivers_readConditional
    {u v w : List Word} {c y n : Expr} (hc : Phrase 9 u c) (hy : Phrase 9 v y)
    (hn : Phrase 9 w n) (hw : u.length + v.length + w.length < bound) :
    Delivers (readConditional expr) (Follows 9)
      (.mark .kwIf :: (u ++ .mark .kwThen :: (v ++ .mark .kwElse :: w))) (.cond c y n) := by
  intro ts next rest hts hnext
  obtain ⟨word, ts, rfl, hword, hts⟩ := List.map_eq_cons_iff.1 hts
  obtain ⟨us, th, ts, rfl, hus, hth, hts⟩ := Token.of_map_mark hts
  obtain ⟨vs, el, ws, rfl, hvs, hel, hws⟩ := Token.of_map_mark hts
  have htest := hexpr u c hc (by omega) us th (vs ++ el :: ws ++ next :: rest) hus
    (.of_closing (by simp [hth]) 9)
  have hyes := hexpr v y hy (by omega) vs el (ws ++ next :: rest) hvs
    (.of_closing (by simp [hel]) 9)
  have hno := hexpr w n hn (by omega) ws next rest hws hnext
  have hk : word.kind = .kwIf := Token.kind_of_word hword
  rw [readConditional, List.cons_append, gives_next_then (by simp [hk])]
  simp only [gives_bind, gives_expect, gives_pure, ne_eq, reduceCtorEq, not_false_eq_true]
  exact ⟨c, _, by simpa using htest, th, _, ⟨hth, rfl⟩, y, _, by simpa using hyes, el, _,
    ⟨hel, rfl⟩, n, _, hno, rfl, rfl⟩

theorem delivers_readArm
    {arm : Spelled Pat × Spelled Expr} (hp : Pat.Phrase 2 arm.1.words arm.1.tree)
    (hb : Phrase 9 arm.2.words arm.2.tree) (hw : (caseWords arm).length ≤ bound) :
    Delivers (readArm bound expr) (Follows 9) (caseWords arm) (arm.1.tree, arm.2.tree) := by
  intro ts next rest hts hnext
  obtain ⟨ca, ts, rfl, hca, hts⟩ := List.map_eq_cons_iff.1 hts
  obtain ⟨us, arrow, vs, rfl, hus, harrow, hvs⟩ := Token.of_map_mark hts
  simp only [caseWords, List.length_append, List.length_cons] at hw
  have hpat := Pat.delivers_read bound hp (by omega) us arrow (vs ++ next :: rest) hus
    (by simp [harrow])
  have hbody := hexpr _ _ hb (by omega) vs next rest hvs hnext
  simp only [readArm, gives_bind, gives_expect, gives_pure, ne_eq, reduceCtorEq, not_false_eq_true]
  exact ⟨ca, _, ⟨Token.kind_of_word hca, rfl⟩, _, _, by simpa using hpat, arrow, _,
    ⟨harrow, rfl⟩, _, _, hbody, rfl, rfl⟩

theorem delivers_readMatch
    {v w : List Word} {e : Expr} {arms : List (Spelled Pat × Spelled Expr)} (he : Phrase 9 v e)
    (hp : ∀ arm ∈ arms, Pat.Phrase 2 arm.1.words arm.1.tree)
    (hb : ∀ arm ∈ arms, Phrase 9 arm.2.words arm.2.tree)
    (hsep : Separated (arms.map caseWords) w) (hw : v.length + w.length < bound) :
    Delivers (readMatch bound expr) (fun _ => True)
      (.mark .kwMatch :: (v ++ .mark .kwWith :: between .lbrace .rbrace w))
      (.select e (arms.map fun arm => (arm.1.tree, arm.2.tree))) := by
  intro ts next rest hts _
  obtain ⟨word, ts, rfl, hword, hts⟩ := List.map_eq_cons_iff.1 hts
  obtain ⟨vs, wi, ts, rfl, hvs, hwi, hts⟩ := Token.of_map_mark hts
  obtain ⟨lb, ws, brace, rfl, hlb, hws, hbrace⟩ := Token.of_map_between hts
  have hvalue := hexpr v e he (by omega) vs wi (lb :: (ws ++ brace :: next :: rest)) hvs
    (.of_closing (by simp [hwi]) 9)
  have hitems : Gives (items (readArm bound expr) .matchCaseEnd bound)
      (ws ++ brace :: next :: rest)
      (arms.map fun arm => (arm.1.tree, arm.2.tree), brace) (next :: rest) := by
    refine items_complete hsep (fun arm _ => ⟨_, _, rfl, by decide⟩)
      (fun arm hmem us t rest hus ht => ?_) hws (by omega) hbrace
    have := (hsep.sublist (List.mem_map_of_mem hmem)).length_le
    refine delivers_readArm hexpr (hp arm hmem) (hb arm hmem) (by omega) us t rest hus ?_
    exact .of_closing (by rcases ht with ht | ht <;> simp [ht]) 9
  have hk : word.kind = .kwMatch := Token.kind_of_word hword
  rw [readMatch, List.cons_append, gives_next_then (by simp [hk])]
  simp only [gives_bind, gives_expect, ne_eq, reduceCtorEq, not_false_eq_true]
  refine ⟨e, _, by simpa using hvalue, wi, _, ⟨hwi, rfl⟩, lb, _, ⟨hlb, rfl⟩, _, _, hitems, ?_⟩
  cases arms with
  | nil => exact absurd rfl hsep.ne_nil
  | cons arm arms => exact gives_pure.2 ⟨rfl, rfl⟩

theorem delivers_readFunction_lambda {v w : List Word} {p : Pat} {a : Option Ty} {e : Expr}
    (hp : Head v p a) (he : Phrase 9 w e) (hw : v.length + w.length < bound) :
    Delivers (readFunction bound expr) (Follows 9) (v ++ .mark .fatArrow :: w)
      (.lambda p a e) := by
  intro ts next rest hts hnext
  obtain ⟨vs, arrow, ws, rfl, hvs, harrow, hws⟩ := Token.of_map_mark hts
  have hbody := hexpr w e he (by omega) ws next rest hws hnext
  rw [List.append_assoc]
  exact gives_readFunction.2
    (.inl ⟨p, a, _, e, head?_eq_some hp (by omega) hvs harrow, hbody, rfl⟩)

theorem delivers_readFunction_tighter {w : List Word} {e : Expr} (h : Phrase 8 w e)
    (hw : w.length ≤ bound) : Delivers (readFunction bound expr) (Follows 9) w e := by
  intro ts next rest hts hnext
  have hnone : head? bound (ts ++ next :: rest) = none :=
    head?_eq_none h (by decide) hts (hnext.2.2 (by decide)).2
  have hread := delivers_readCons hexpr h hw ts next rest hts (hnext.mono (by decide))
  exact gives_readFunction.2 (.inr ⟨hnone, hread⟩)

theorem delivers_readWith {w : List Word} {e : Expr} (h : Phrase 9 w e) (hw : w.length ≤ bound) :
    Delivers (readWith bound expr) (Follows 9) w e := by
  intro ts next rest hts hnext
  rw [readWith, gives_bind]
  cases h with
  | binary _ hlevel _ _ =>
    have := Op.level_le ‹_›
    omega
  | lambda hp he =>
    simp only [List.length_append, List.length_cons] at hw
    have hread := delivers_readFunction_lambda hexpr hp he (by omega) ts next rest hts hnext
    obtain ⟨x, v, rfl, hx⟩ := hp.starts
    obtain ⟨t, us, rfl, rfl, -⟩ := List.map_eq_cons_iff.1 hts
    refine ⟨t, _, gives_peek.2 ⟨rfl, _, rfl⟩, ?_⟩
    split
    · simp_all [startsAtom]
    · simp_all [startsAtom]
    · exact hread
  | cond hc hy hn =>
    simp only [List.length_append, List.length_cons] at hw
    have hread := delivers_readConditional hexpr hc hy hn (by omega) ts next rest hts hnext
    obtain ⟨t, us, rfl, ht, -⟩ := List.map_eq_cons_iff.1 hts
    refine ⟨t, _, gives_peek.2 ⟨rfl, _, rfl⟩, ?_⟩
    rw [Token.kind_of_word ht]
    exact hread
  | select he hp hb hsep =>
    simp only [List.length_append, List.length_cons, length_between] at hw
    have hread := delivers_readMatch hexpr he hp hb hsep (by omega) ts next rest hts trivial
    obtain ⟨t, us, rfl, ht, -⟩ := List.map_eq_cons_iff.1 hts
    refine ⟨t, _, gives_peek.2 ⟨rfl, _, rfl⟩, ?_⟩
    rw [Token.kind_of_word ht]
    exact hread
  | loosen h =>
    have hread := delivers_readFunction_tighter hexpr h hw ts next rest hts hnext
    obtain ⟨t, us, rfl, ht⟩ := Token.exists_first (Starts 8) hts h.starts
    refine ⟨t, _, gives_peek.2 ⟨rfl, _, rfl⟩, ?_⟩
    split
    · simp_all [Starts, startsAtom]
    · simp_all [Starts, startsAtom]
    · exact hread

end Readers

/-- **Every phrase for an expression is read.** -/
theorem delivers_read (bound : Nat) {w : List Word} {e : Expr} (h : Phrase 9 w e)
    (hw : w.length < bound) : Delivers (read bound) (Follows 9) w e := by
  induction bound generalizing w e with
  | zero => omega
  | succ n ih => exact delivers_readWith (fun w e h hw => ih h hw) h (by omega)

end Expr

/-! ## Whole sources -/

namespace Token

theorem Kind.ofWord_ne_eof (s : String) : Kind.ofWord s ≠ .eof := by
  unfold Kind.ofWord
  cases h : Kind.keywords.find? (·.name == s) with
  | none => decide
  | some k =>
    have : ∀ k ∈ Kind.keywords, k ≠ .eof := by decide
    exact this k (List.mem_of_find?_eq_some h)

theorem lexeme_kind_ne_eof (p : Pos) (c : Char) (cs : List Char) :
    (lexeme p c cs).kind ≠ .eof := by
  unfold lexeme
  split
  · dsimp only
    split <;> decide
  · split
    · exact Kind.ofWord_ne_eof _
    · split
      · exact nofun
      · split
        · next k hk =>
          have : ∀ k ∈ Kind.symbols, k ≠ .eof := by decide
          exact this k (List.mem_of_find?_eq_some hk)
        · exact nofun

/-- The tokens of a source end with the only one that marks the end. -/
theorem scanFrom_tokens (p : Pos) (cs : List Char) :
    ∃ ts last, (scanFrom p cs).tokens = ts ++ [last] ∧ last.kind = .eof ∧
      ∀ t ∈ ts, t.kind ≠ .eof := by
  fun_induction scanFrom p cs with
  | case1 p cs gap _ => exact ⟨[], _, rfl, rfl, by simp⟩
  | case2 p cs gap c rest _ q l more ih =>
    obtain ⟨ts, last, hts, hlast, hall⟩ := ih
    refine ⟨_ :: ts, last, by rw [hts]; rfl, hlast, ?_⟩
    simpa using ⟨lexeme_kind_ne_eof q c rest, hall⟩

/-- The words of a source, without the mark of its end. -/
def words (source : List Char) : List Word :=
  ((scan source).tokens.filter (·.kind ≠ .eof)).map Token.word

theorem scan_tokens (source : List Char) :
    ∃ ts last, (scan source).tokens = ts ++ [last] ∧ last.kind = .eof ∧
      (∀ t ∈ ts, t.kind ≠ .eof) ∧ ts.map Token.word = words source := by
  obtain ⟨ts, last, hts, hlast, hall⟩ := scanFrom_tokens .start source
  refine ⟨ts, last, hts, hlast, hall, ?_⟩
  rw [words, scan, hts, List.filter_append, List.filter_eq_self.2 (by simpa using hall)]
  simp [hlast]

end Token

namespace Reader

variable {α : Type}

theorem readAll_eq_ok {r : Nat → Reader α} {source : List Char} {a : α} :
    readAll r source = .ok a ↔ (Token.scan source).fault = none ∧
      ∃ t mid, t.kind = .eof ∧ Gives (r ((Token.scan source).tokens.length + 1))
        (Token.scan source).tokens a (t :: mid) := by
  have hrun (ts : List Token) (x : Reader α) : x.run' ts = .ok a ↔ ∃ rest, Gives x ts a rest := by
    unfold Gives StateT.run'
    rcases x ts with err | ⟨b, rest⟩ <;> simp
  rw [readAll]
  split
  · next err hfault => simp [hfault, throw, throwThe, MonadExceptOf.throw]
  · next hfault =>
    rw [hrun]
    simp only [hfault, true_and, gives_bind, gives_pure]
    constructor
    · rintro ⟨_, b, mid, hb, _, _, hend, rfl, rfl⟩
      obtain ⟨rfl, t, us, rfl, ht⟩ := gives_expectEnd.1 hend
      exact ⟨t, us, ht, hb⟩
    · rintro ⟨t, us, ht, hb⟩
      exact ⟨_, a, _, hb, (), _, gives_expectEnd.2 ⟨rfl, t, us, rfl, ht⟩, rfl, rfl⟩

/-- **A reader of whole sources accepts exactly its language**, if what it takes is of the
language and it takes all of the language before the end of the input. -/
theorem readAll_eq_ok_iff {r : Nat → Reader α} {P : List Word → α → Prop}
    {F : Token.Kind → Prop} (hreads : ∀ bound, Reads (r bound) P)
    (hdelivers : ∀ bound w a, P w a → w.length < bound → Delivers (r bound) F w a) (hF : F .eof)
    {source : List Char} {a : α} :
    readAll r source = .ok a ↔ (Token.scan source).fault = none ∧ P (Token.words source) a := by
  rw [readAll_eq_ok]
  obtain ⟨ts, last, hts, hlast, hall, hwords⟩ := Token.scan_tokens source
  rw [hts, ← hwords]
  refine and_congr_right fun _ => ⟨?_, fun h => ?_⟩
  · rintro ⟨t, mid, ht, h⟩
    obtain ⟨used, heq, hused⟩ := hreads _ h
    -- The rest starts with a mark of the end, and there is only one.
    obtain ⟨z, rfl, hz⟩ | ⟨z, rfl, hz⟩ := List.append_eq_append_iff.1 heq
    · cases z with
      | nil => simpa using hused
      | cons u z =>
        have := congrArg List.length hz
        simp at this
    · cases z with
      | nil => simpa using hused
      | cons u z =>
        obtain ⟨rfl, -⟩ := List.cons.inj hz
        exact absurd ht (hall t (by simp))
  · have := hdelivers (ts.length + 2) _ a h (by simp) ts last [] rfl (hlast ▸ hF)
    exact ⟨last, [], hlast, by simpa using this⟩

end Reader

namespace Expr

/-- **Parsing accepts exactly the grammar, and the grammar is unambiguous.**  A source
without lexical faults is parsed to an expression if and only if its words are derivable
as that expression, and no row of tokens is derivable as two expressions. -/
theorem parse_exact :
    (∀ source e, parse source = .ok e ↔
      (Token.scan source).fault = none ∧ Phrase 9 (Token.words source) e) ∧
    ∀ (ts : List Token) e e', Phrase 9 (ts.map Token.word) e → Phrase 9 (ts.map Token.word) e' →
      e = e' := by
  refine ⟨fun source e => ?_, fun ts e e' h h' => ?_⟩
  · exact readAll_eq_ok_iff reads_read (fun bound _ _ => delivers_read bound)
      (Follows.of_closing (by simp) 9)
  · -- Both trees are what the reader gives from these tokens before the end of the input.
    have hread {e : Expr} (h : Phrase 9 (ts.map Token.word) e) :=
      delivers_read (ts.length + 1) h (by simp) ts ⟨.eof, "", .start⟩ [] rfl
        (Follows.of_closing (by simp) 9)
    have heq := (hread h).symm.trans (hread h')
    simpa using heq

theorem parse_exact_typed :
    Phrase 9 (Token.words "(x : a . a) => f x :: y => x".toList)
        (.lambda (.ident "x") (some (.poly "a" (.var "a")))
          (.cons (.app (.ident "f") (.ident "x")) (.lambda (.ident "y") none (.ident "x")))) ∧
      ∀ e, Phrase 9 (Token.words "(x : a . a) => f x :: y => x".toList) e →
        parse "(x : a . a) => f x :: y => x".toList = .ok e := by
  have hparse : parse "(x : a . a) => f x :: y => x".toList =
      .ok (.lambda (.ident "x") (some (.poly "a" (.var "a")))
        (.cons (.app (.ident "f") (.ident "x")) (.lambda (.ident "y") none (.ident "x")))) := by
    cbv
  obtain ⟨hfault, h⟩ := (parse_exact.1 _ _).1 hparse
  refine ⟨h, fun e he => ?_⟩
  obtain ⟨ts, _, _, _, _, hts⟩ := Token.scan_tokens "(x : a . a) => f x :: y => x".toList
  rw [← hts] at h he
  rw [hparse, parse_exact.2 ts _ e h he]

end Expr

end LetPoly
