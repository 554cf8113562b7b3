import Mathlib
import LetPoly.Proofs.Grammar

/-! # The shape of phrases

A reader decides what it has before it by the next few words.  Three facts about
phrases show that this is enough.

* Every phrase starts with a word that tells its level (`Expr.Phrase.starts`).
* Brackets pair up in every phrase (`Expr.Phrase.balanced`).
* A phrase that stands by itself is **solid**: it ends where its first word is closed
  again.  Of all the rows at the front of given words at most one is solid
  (`Solid.eq`), so an atomic pattern, the head of a function and the first atom of an
  expression, where they start together, also end together.

From the last one, no row of words starts a function and another expression
(`Expr.Phrase.not_head`).
-/

namespace LetPoly

/-! ## Words and their kinds -/

@[simp] theorem Token.kind_word (t : Token) : t.word.kind = t.kind := by
  unfold Token.word
  split_ifs with h₁ h₂ h₃ <;> simp_all [Word.kind]

/-- A sign or keyword is its kind. -/
theorem Token.word_of_kind {t : Token} {k : Token.Kind} (h : t.kind = k)
    (hk : k ≠ .ident ∧ k ≠ .int ∧ k ≠ .string) : t.word = .mark k := by
  subst h
  simp [Token.word, hk]

theorem Token.kind_of_word {t : Token} {w : Word} (h : t.word = w) : t.kind = w.kind := by
  rw [← h, kind_word]

theorem Token.literal_of_ident {t : Token} {x : String} (h : t.word = .ident x) :
    t.literal = x := by
  unfold Token.word at h
  split_ifs at h
  exact Word.ident.inj h

theorem Token.literal_of_int {t : Token} {s : String} (h : t.word = .int s) : t.literal = s := by
  unfold Token.word at h
  split_ifs at h
  exact Word.int.inj h

theorem Token.literal_of_string {t : Token} {s : String} (h : t.word = .string s) :
    t.literal = s := by
  unfold Token.word at h
  split_ifs at h
  exact Word.string.inj h

/-! ## Spellings -/

theorem Token.Kind.eq_of_boolText {k : Token.Kind} {b : Bool} (h : k.name = boolText b) :
    k = if b then .kwTrue else .kwFalse := by
  revert h
  cases k <;> cases b <;> decide

theorem Token.Kind.eq_of_binder {k : Token.Kind} {b : Binder} (h : k.name = b.spelling) :
    k = if b = .var then .kwVar else .kwVal := by
  revert h
  cases k <;> cases b <;> decide

/-- The reader knows the operators by their spelling. -/
theorem Expr.opOf?_eq_some {k : Token.Kind} {op : Op} :
    opOf? k = some op ↔ k.name = op.spelling := by
  revert op
  cases k <;> intro op <;> cases op <;> decide

theorem Op.level_le (op : Op) : 3 ≤ op.level ∧ op.level ≤ 7 := by
  cases op <;> decide

/-! ## Depth -/

namespace Word

/-- How much deeper in brackets a row is after the word. -/
def turn : Word → Int
  | .mark .lparen | .mark .lbracket | .mark .lbrace => 1
  | .mark .rparen | .mark .rbracket | .mark .rbrace => -1
  | _ => 0

/-- The number of brackets that a row opens and does not close. -/
def depth (w : List Word) : Int := (w.map turn).sum

@[simp] theorem depth_nil : depth [] = 0 := rfl

@[simp] theorem depth_cons (x : Word) (w : List Word) : depth (x :: w) = x.turn + depth w := by
  simp [depth]

@[simp] theorem depth_append (v w : List Word) : depth (v ++ w) = depth v + depth w := by
  simp [depth]

/-- Every bracket that the row opens is closed in it, and none is closed before it is
opened. -/
structure Balanced (w : List Word) : Prop where
  depth_eq : depth w = 0
  nonneg : ∀ u v, w = u ++ v → 0 ≤ depth u

theorem turn_operator {k : Token.Kind} {op : Op} (h : k.name = op.spelling) :
    (mark k).turn = 0 := by
  rw [← Expr.opOf?_eq_some] at h
  revert h
  cases k <;> first | (intro _; rfl) | exact nofun

theorem Balanced.nil : Balanced [] where
  depth_eq := rfl
  nonneg u v h := by simp [(List.append_eq_nil_iff.1 h.symm).1]

theorem Balanced.append {v w : List Word} (hv : Balanced v) (hw : Balanced w) :
    Balanced (v ++ w) where
  depth_eq := by simp [hv.depth_eq, hw.depth_eq]
  nonneg x y h := by
    -- The row is cut inside the left part or inside the right part.
    obtain ⟨z, hz, -⟩ | ⟨z, rfl, hz⟩ := List.append_eq_append_iff.1 h.symm
    · exact hv.nonneg x z hz
    · have := hw.nonneg z y hz
      simp only [depth_append, hv.depth_eq]
      omega

theorem Balanced.cons {x : Word} {w : List Word} (hx : x.turn = 0) (hw : Balanced w) :
    Balanced (x :: w) where
  depth_eq := by simp [hx, hw.depth_eq]
  nonneg u v h := by
    cases u with
    | nil => simp
    | cons y u =>
      rw [List.cons_append, List.cons.injEq] at h
      obtain ⟨rfl, h⟩ := h
      simpa [hx] using hw.nonneg u v h

theorem Balanced.single {x : Word} (hx : x.turn = 0) : Balanced [x] := Balanced.nil.cons hx

/-- A row ends where its first word is closed again. -/
structure Solid (w : List Word) : Prop where
  ne_nil : w ≠ []
  depth_eq : depth w = 0
  pos : ∀ u v, w = u ++ v → u ≠ [] → v ≠ [] → 0 < depth u

theorem Solid.balanced {w : List Word} (h : Solid w) : Balanced w where
  depth_eq := h.depth_eq
  nonneg u v huv := by
    rcases eq_or_ne u [] with rfl | hu
    · simp
    · rcases eq_or_ne v [] with rfl | hv
      · rw [List.append_nil] at huv
        exact huv ▸ Int.le_of_eq h.depth_eq.symm
      · exact Int.le_of_lt (h.pos u v huv hu hv)

theorem Solid.single {x : Word} (hx : x.turn = 0) : Solid [x] where
  ne_nil := by simp
  depth_eq := by simp [hx]
  pos u v h hu hv := by
    have := congrArg List.length h
    have := List.length_pos_iff.2 hu
    have := List.length_pos_iff.2 hv
    simp only [List.length_append, List.length_singleton] at *
    omega

/-- Brackets around balanced words make them solid. -/
theorem Solid.between {l r : Token.Kind} {w : List Word} (hl : (mark l).turn = 1)
    (hr : (mark r).turn = -1) (hw : Balanced w) : Solid (between l r w) where
  ne_nil := by simp [Word.between]
  depth_eq := by simp [Word.between, hl, hr, hw.depth_eq]
  pos u v h hu hv := by
    obtain ⟨x, u, rfl⟩ := List.exists_cons_of_ne_nil hu
    obtain ⟨v, y, rfl⟩ := (List.eq_nil_or_concat' v).resolve_left hv
    simp only [Word.between, List.cons_append, List.cons.injEq, ← List.append_assoc] at h
    obtain ⟨rfl, h⟩ := h
    have := hw.nonneg u v (List.append_inj' h rfl).1
    simp only [depth_cons, hl]
    omega

/-- **At most one row at the front of given words is solid.** -/
theorem Solid.eq {u v u' v' : List Word} (hu : Solid u) (hu' : Solid u')
    (h : u ++ v = u' ++ v') : u = u' := by
  -- If one reaches further, its depth is already zero where the other one ends.
  obtain ⟨z, hz, -⟩ | ⟨z, hz, -⟩ := List.append_eq_append_iff.1 h
  · rcases eq_or_ne z [] with rfl | hne
    · rw [hz, List.append_nil]
    · have := hu'.pos u z hz hu.ne_nil hne
      rw [hu.depth_eq] at this
      omega
  · rcases eq_or_ne z [] with rfl | hne
    · rw [hz, List.append_nil]
    · have := hu.pos u' z hz hu'.ne_nil hne
      rw [hu'.depth_eq] at this
      omega

theorem Separated.balanced {ws : List (List Word)} {w : List Word} (h : Separated ws w)
    (hws : ∀ v ∈ ws, Balanced v) : Balanced w := by
  induction h with
  | last w => exact hws w (by simp)
  | closed w => exact (hws w (by simp)).append (.single rfl)
  | cons v _ ih =>
    exact (hws v (by simp)).append ((ih fun u hu => hws u (by simp [hu])).cons rfl)

theorem Separated.ne_nil {ws : List (List Word)} {w : List Word} (h : Separated ws w) :
    ws ≠ [] := by
  cases h <;> simp

/-- The words of an item are among those of the row. -/
theorem Separated.sublist {ws : List (List Word)} {w v : List Word} (h : Separated ws w)
    (hv : v ∈ ws) : v.Sublist w := by
  induction h with
  | last w => simp_all
  | closed w => simp_all
  | cons u _ ih =>
    obtain rfl | hv := List.mem_cons.1 hv
    · exact List.sublist_append_left _ _
    · exact ((ih hv).cons _).trans (List.sublist_append_right _ _)

end Word

open Word

/-! ## Types -/

namespace Ty

theorem Phrase.mono {m n : Nat} {w : List Word} {t : Ty} (h : Phrase m w t) (hmn : m ≤ n) :
    Phrase n w t := by
  induction hmn with
  | refl => exact h
  | step _ ih => exact ih.loosen

theorem Phrase.pos {n : Nat} {w : List Word} {t : Ty} (h : Phrase n w t) : 0 < n := by
  cases h <;> omega

theorem Phrase.balanced {n : Nat} {w : List Word} {t : Ty} (h : Phrase n w t) : Balanced w := by
  induction h with
  | base _ | var _ => exact .single rfl
  | paren _ ih | list _ ih => exact (Solid.between rfl rfl ih).balanced
  | app _ _ ihf iha => exact ihf.append iha
  | arrow _ _ iha ihr => exact iha.append (ihr.cons rfl)
  | dot _ ih => exact (ih.cons rfl).cons rfl
  | tfn _ ih => exact ((ih.cons rfl).cons rfl).cons rfl
  | loosen _ ih => exact ih

/-- The first word of a type. -/
theorem Phrase.starts {n : Nat} {w : List Word} {t : Ty} (h : Phrase n w t) :
    ∃ x v, w = x :: v ∧ (n ≤ 3 → startsAtom x.kind) := by
  induction h with
  | base _ | var _ | paren _ _ | list _ _ => exact ⟨_, _, rfl, fun _ => rfl⟩
  | dot _ _ | tfn _ _ => exact ⟨_, _, rfl, fun h => absurd h (by decide)⟩
  | app _ _ ih _ | arrow _ _ ih _ =>
    obtain ⟨x, v, rfl, hx⟩ := ih
    exact ⟨x, _, rfl, fun _ => hx (by omega)⟩
  | loosen _ ih =>
    obtain ⟨x, v, rfl, hx⟩ := ih
    exact ⟨x, v, rfl, fun _ => hx (by omega)⟩

/-- A name that starts a type without a quantifier has no dot after it. -/
theorem Phrase.second {n : Nat} {w : List Word} {t : Ty} (h : Phrase n w t) (hn : n ≤ 3)
    {x : String} {v : List Word} (hw : w = .ident x :: v) : v.head? ≠ some (.mark .dot) := by
  induction h generalizing v with
  | base _ | var _ => simp_all
  | paren _ _ | list _ _ => cases hw
  | app hf ha ih _ =>
    obtain ⟨_, u, rfl, -⟩ := hf.starts
    obtain ⟨rfl, rfl⟩ := List.cons.inj hw
    cases u with
    | nil =>
      obtain ⟨y, u, rfl, hy⟩ := ha.starts
      rintro ⟨⟩
      exact absurd (hy (by decide)) (by decide)
    | cons y u => exact ih (v := y :: u) (by decide) rfl
  | arrow ha _ ih _ =>
    obtain ⟨_, u, rfl, -⟩ := ha.starts
    obtain ⟨rfl, rfl⟩ := List.cons.inj hw
    cases u with
    | nil => simp
    | cons y u => exact ih (v := y :: u) (by decide) rfl
  | dot _ _ | tfn _ _ => omega
  | loosen _ ih => exact ih (by omega) hw

end Ty

/-! ## Patterns -/

namespace Pat

theorem Phrase.mono {m n : Nat} {w : List Word} {p : Pat} (h : Phrase m w p) (hmn : m ≤ n) :
    Phrase n w p := by
  induction hmn with
  | refl => exact h
  | step _ ih => exact ih.loosen

theorem Phrase.pos {n : Nat} {w : List Word} {p : Pat} (h : Phrase n w p) : 0 < n := by
  cases h <;> omega

theorem Phrase.balanced {n : Nat} {w : List Word} {p : Pat} (h : Phrase n w p) : Balanced w := by
  induction h with
  | number _ | string | wildcard | ident => exact .single rfl
  | @boolean k b h => cases b <;> cases Token.Kind.eq_of_boolText h <;> exact .single rfl
  | unit | nil => exact (Solid.between rfl rfl .nil).balanced
  | paren _ ih => exact (Solid.between rfl rfl ih).balanced
  | cons _ _ ihp ihq => exact ihp.append (ihq.cons rfl)
  | loosen _ ih => exact ih

theorem Phrase.solid {w : List Word} {p : Pat} (h : Phrase 1 w p) : Solid w := by
  cases h with
  | number _ | string | wildcard | ident => exact .single rfl
  | @boolean k b h => cases b <;> cases Token.Kind.eq_of_boolText h <;> exact .single rfl
  | unit | nil => exact .between rfl rfl .nil
  | paren h => exact .between rfl rfl h.balanced
  | loosen h => exact absurd h.pos (by decide)

/-- The first word of a pattern. -/
theorem Phrase.starts {n : Nat} {w : List Word} {p : Pat} (h : Phrase n w p) :
    ∃ x v, w = x :: v ∧ (Expr.startsAtom x.kind ∨ x.kind = .underscore) := by
  induction h with
  | number _ | string | unit | ident | nil | paren _ _ => exact ⟨_, _, rfl, .inl rfl⟩
  | @boolean k b h =>
    cases b <;> cases Token.Kind.eq_of_boolText h <;> exact ⟨_, _, rfl, .inl rfl⟩
  | wildcard => exact ⟨_, _, rfl, .inr rfl⟩
  | cons _ _ ih _ =>
    obtain ⟨x, v, rfl, hx⟩ := ih
    exact ⟨x, _, rfl, hx⟩
  | loosen _ ih => exact ih

/-- No type stands in a pattern. -/
theorem Phrase.colon_notMem {n : Nat} {w : List Word} {p : Pat} (h : Phrase n w p) :
    .mark .colon ∉ w := by
  induction h with
  | number _ | string | unit | wildcard | ident | nil => simp [between]
  | @boolean k b h => cases b <;> cases Token.Kind.eq_of_boolText h <;> simp
  | paren _ ih => simp [between, ih]
  | cons _ _ ihp ihq => simp [ihp, ihq]
  | loosen _ ih => exact ih

end Pat

/-! ## Expressions -/

namespace Expr

theorem Ascription.balanced {w : List Word} {a : Option Ty} (h : Ascription w a) :
    Balanced w := by
  cases h with
  | none => exact .nil
  | some h => exact h.balanced.cons rfl

theorem Head.solid {w : List Word} {p : Pat} {a : Option Ty} (h : Head w p a) : Solid w := by
  cases h with
  | plain h => exact h.solid
  | typed hp ht => exact .between rfl rfl (hp.balanced.append (ht.balanced.cons rfl))

theorem Head.starts {w : List Word} {p : Pat} {a : Option Ty} (h : Head w p a) :
    ∃ x v, w = x :: v ∧ (startsAtom x.kind ∨ x.kind = .underscore) := by
  cases h with
  | plain h => exact h.starts
  | typed _ _ => exact ⟨_, _, rfl, .inl rfl⟩

theorem Phrase.mono {m n : Nat} {w : List Word} {e : Expr} (h : Phrase m w e) (hmn : m ≤ n) :
    Phrase n w e := by
  induction hmn with
  | refl => exact h
  | step _ ih => exact ih.loosen

theorem Phrase.pos {n : Nat} {w : List Word} {e : Expr} (h : Phrase n w e) : 0 < n := by
  cases h <;> omega

theorem Phrase.balanced {n : Nat} {w : List Word} {e : Expr} (h : Phrase n w e) :
    Balanced w := by
  induction h with
  | number _ | string | ident => exact .single rfl
  | @boolean k b h => cases b <;> cases Token.Kind.eq_of_boolText h <;> exact .single rfl
  | unit | nil => exact (Solid.between rfl rfl .nil).balanced
  | paren _ ih => exact (Solid.between rfl rfl ih).balanced
  | block _ hw _ ih =>
    refine (Solid.between rfl rfl (hw.balanced ?_)).balanced
    simpa using ih
  | app _ _ ihf iha => exact ihf.append iha
  | binary hop _ _ _ ihl ihr => exact ihl.append (ihr.cons (turn_operator hop))
  | cons _ _ ihh iht => exact ihh.append (iht.cons rfl)
  | lambda hp _ ihb => exact hp.solid.balanced.append (ihb.cons rfl)
  | cond _ _ _ ihc ihy ihn =>
    exact (ihc.append ((ihy.append (ihn.cons rfl)).cons rfl)).cons rfl
  | select _ hp _ hw ihe ihb =>
    have harms := hw.balanced fun v hv => by
      obtain ⟨arm, harm, rfl⟩ := List.mem_map.1 hv
      exact ((hp arm harm).balanced.append ((ihb arm harm).cons rfl)).cons rfl
    exact (ihe.append ((Solid.between rfl rfl harms).balanced.cons rfl)).cons rfl
  | @define u v w k b p a e hk hp ha _ ihe =>
    have hrow := (hp.balanced.append ha.balanced).append (ihe.cons (x := .mark .assign) rfl)
    cases b <;> cases Token.Kind.eq_of_binder hk <;> exact hrow.cons rfl
  | loosen _ ih => exact ih

theorem Phrase.solid {w : List Word} {e : Expr} (h : Phrase 1 w e) : Solid w := by
  cases h with
  | number _ | string | ident => exact .single rfl
  | @boolean k b h => cases b <;> cases Token.Kind.eq_of_boolText h <;> exact .single rfl
  | unit | nil => exact .between rfl rfl .nil
  | paren h => exact .between rfl rfl h.balanced
  | block hs hw _ =>
    refine .between rfl rfl (hw.balanced fun v hv => ?_)
    obtain ⟨s, hmem, rfl⟩ := List.mem_map.1 hv
    exact (hs s hmem).balanced
  | binary _ h _ _ =>
    have := Op.level_le ‹_›
    omega
  | loosen h => exact absurd h.pos (by decide)

/-- The kinds of words that a phrase of a level may start with. -/
def Starts (n : Nat) (k : Token.Kind) : Prop :=
  startsAtom k ∨ 9 ≤ n ∧ (k = .underscore ∨ k = .kwIf ∨ k = .kwMatch) ∨
    10 ≤ n ∧ (k = .kwVal ∨ k = .kwVar)

theorem Starts.mono {m n : Nat} {k : Token.Kind} (h : Starts m k) (hmn : m ≤ n) : Starts n k := by
  rcases h with h | ⟨hm, h⟩ | ⟨hm, h⟩
  · exact .inl h
  · exact .inr (.inl ⟨Nat.le_trans hm hmn, h⟩)
  · exact .inr (.inr ⟨Nat.le_trans hm hmn, h⟩)

/-- **The first word of a phrase tells its level.** -/
theorem Phrase.starts {n : Nat} {w : List Word} {e : Expr} (h : Phrase n w e) :
    ∃ x v, w = x :: v ∧ Starts n x.kind := by
  induction h with
  | number _ | string | unit | nil | ident | paren _ _ | block _ _ _ _ =>
    exact ⟨_, _, rfl, .inl rfl⟩
  | @boolean k b h =>
    cases b <;> cases Token.Kind.eq_of_boolText h <;> exact ⟨_, _, rfl, .inl rfl⟩
  | app _ _ ih _ =>
    obtain ⟨x, v, rfl, hx⟩ := ih
    exact ⟨x, _, rfl, hx⟩
  | binary _ _ _ _ ih _ =>
    obtain ⟨x, v, rfl, hx⟩ := ih
    exact ⟨x, _, rfl, hx⟩
  | cons _ _ ih _ =>
    obtain ⟨x, v, rfl, hx⟩ := ih
    exact ⟨x, _, rfl, hx.mono (by decide)⟩
  | lambda hp _ _ =>
    obtain ⟨x, v, rfl, hx⟩ := hp.starts
    exact ⟨x, _, rfl, hx.imp id fun h => .inl ⟨by decide, .inl h⟩⟩
  | cond _ _ _ _ _ _ => exact ⟨_, _, rfl, .inr (.inl ⟨by decide, .inr (.inl rfl)⟩)⟩
  | select _ _ _ _ _ _ => exact ⟨_, _, rfl, .inr (.inl ⟨by decide, .inr (.inr rfl)⟩)⟩
  | @define u v w k b p a e hk _ _ _ _ =>
    refine ⟨_, _, rfl, .inr (.inr ⟨by decide, ?_⟩)⟩
    cases b <;> cases Token.Kind.eq_of_binder hk <;> simp [Word.kind]
  | loosen _ ih =>
    obtain ⟨x, v, rfl, hx⟩ := ih
    exact ⟨x, v, rfl, hx.mono (by omega)⟩

/-- A phrase that is no function starts with an atom, and `=>` does not follow it. -/
theorem Phrase.leads {n : Nat} {w : List Word} {e : Expr} (h : Phrase n w e) (hn : n ≤ 8) :
    ∃ u v a, w = u ++ v ∧ Phrase 1 u a ∧ v.head? ≠ some (.mark .fatArrow) := by
  induction h with
  | number h => exact ⟨_, [], _, (List.append_nil _).symm, .number h, by simp⟩
  | string => exact ⟨_, [], _, (List.append_nil _).symm, .string, by simp⟩
  | boolean h => exact ⟨_, [], _, (List.append_nil _).symm, .boolean h, by simp⟩
  | unit => exact ⟨_, [], _, (List.append_nil _).symm, .unit, by simp⟩
  | nil => exact ⟨_, [], _, (List.append_nil _).symm, .nil, by simp⟩
  | ident => exact ⟨_, [], _, (List.append_nil _).symm, .ident, by simp⟩
  | paren h _ => exact ⟨_, [], _, (List.append_nil _).symm, .paren h, by simp⟩
  | block hs hw hlast _ => exact ⟨_, [], _, (List.append_nil _).symm, .block hs hw hlast, by simp⟩
  | app _ ha ih _ =>
    obtain ⟨u, v, a, rfl, hu, hv⟩ := ih (by decide)
    refine ⟨u, _, a, List.append_assoc .., hu, ?_⟩
    obtain ⟨x, w, rfl, hx⟩ := ha.starts
    cases v with
    | nil =>
      rintro ⟨⟩
      simp [Starts, Word.kind, startsAtom] at hx
    | cons y v => exact hv
  | @binary n v w k op l r hop _ _ _ ih _ =>
    obtain ⟨u, v, a, rfl, hu, hv⟩ := ih hn
    refine ⟨u, _, a, List.append_assoc .., hu, ?_⟩
    cases v with
    | nil =>
      rintro ⟨⟩
      revert hop
      cases op <;> decide
    | cons y v => exact hv
  | cons _ _ ih _ =>
    obtain ⟨u, v, a, rfl, hu, hv⟩ := ih (by decide)
    refine ⟨u, _, a, List.append_assoc .., hu, ?_⟩
    cases v with
    | nil => simp
    | cons y v => exact hv
  | lambda _ _ _ | cond _ _ _ _ _ _ | select _ _ _ _ _ _ | define _ _ _ _ _ => omega
  | loosen _ ih => exact ih (by omega)

/-- **No words start both a function and another expression**: where a phrase that is
no function stands, and then no `=>`, there is no head before a `=>`. -/
theorem Phrase.not_head {n : Nat} {w v rest rest' : List Word} {e : Expr} {p : Pat}
    {a : Option Ty} (h : Phrase n w e) (hn : n ≤ 8)
    (hrest : rest.head? ≠ some (.mark .fatArrow)) (hv : Head v p a) :
    w ++ rest ≠ v ++ .mark .fatArrow :: rest' := by
  intro heq
  obtain ⟨u, v₂, _, rfl, hu, hnext⟩ := h.leads hn
  rw [List.append_assoc] at heq
  obtain rfl := hu.solid.eq hv.solid heq
  have hnext' := congrArg List.head? (List.append_cancel_left heq)
  cases v₂ with
  | nil => exact hrest hnext'
  | cons y v₂ => exact hnext hnext'

end Expr

end LetPoly
