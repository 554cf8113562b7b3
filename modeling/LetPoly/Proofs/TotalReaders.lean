import LetPoly.Expr.Reader
import LetPoly.Proofs.ReaderProgress

/-! # The readers are total

On a row that ends with its only end token, every reader of the language settles what it is given:
it takes at least one token, or fails because of a token.  There is one statement for each
reader, about rows up to a length and readers of shorter rows for the phrases inside, and about
two bounds at once, which have to be no less than the length.  The rows get shorter from
phrase to phrase, so readers of nested phrases proceed (`proceeds_of_succ`).

Tokens are looked at only by `peek`, `next` and `peekSecond`, which fail with an error of their
own where the row is at its end already.  Such an error is passed on by all readers, except where
the head of a function is tried: the attempts are therefore among the readers here
(`PhraseReader`).  That no reader fails in this way, nor by its bound, is the main statement
(`readers_total`).
-/

namespace LetPoly

open Reader

/-! ## Types -/

namespace Ty

section
variable {n b b' : Nat} {type type' : Reader Ty} (htype : Proceeds n type type')
include htype

theorem readAtom_proceeds : Proceeds (n + 1) (readAtom type) (readAtom type') := by
  intro ts hts hle
  refine settles_next hts (fun t us _ _ hlt hus => ?_) fun t _ ht => ?_
  · have hinner := htype.within hus (m := ts.length) (by omega) (by omega)
    split
    · exact settles_pure hus hlt
    · refine hinner.bind fun a rest hrest _ hshort => ?_
      exact settles_expect (by decide) hrest fun _ vs _ _ hvs hclosed =>
        settles_pure hclosed (by omega)
    · refine hinner.bind fun a rest hrest _ hshort => ?_
      exact settles_expect (by decide) hrest fun _ vs _ _ hvs hclosed =>
        settles_pure hclosed (by omega)
    · exact settles_failAt (by simp [SyntaxError.Internal])
  · simp only [ht]
    exact settles_failAt (by simp [SyntaxError.Internal])

theorem readApp_proceeds (hb : n ≤ b) (hb' : n ≤ b') :
    Proceeds (n + 1) (readApp b type) (readApp b' type') := by
  intro ts hts hle
  refine (readAtom_proceeds htype ts hts hle).bind fun func rest hrest _ hlt => ?_
  have hloop : Settles (extend (readArg? type) b func) (extend (readArg? type') b' func) rest
      fun _ _ => True := by
    refine settles_extend hrest (by omega) (by omega) fun f us hus hsuffix => ?_
    have hlen := hsuffix.length_le
    refine settles_peek hus fun t vs _ => ?_
    split
    · exact (readAtom_proceeds htype us hus (by omega)).bind fun arg left hleft _ hshort =>
        settles_pure hleft fun _ => hshort
    · exact settles_pure hus (by simp)
  exact hloop.imp fun _ left hleft _ => Nat.lt_of_le_of_lt hleft.length_le hlt

theorem readArrow_proceeds (hb : n ≤ b) (hb' : n ≤ b') :
    Proceeds (n + 1) (readArrow b type) (readArrow b' type') := by
  intro ts hts hle
  refine (readApp_proceeds htype hb hb' ts hts hle).bind fun arg rest hrest _ hlt => ?_
  refine settles_accept (by decide) hrest (fun _ us _ _ hus hclosed => ?_)
    (settles_pure hrest hlt)
  exact (htype.within hclosed (by omega) (by omega)).bind fun ret left hleft _ hshort =>
    settles_pure hleft hshort

theorem readWith_proceeds (hb : n ≤ b) (hb' : n ≤ b') :
    Proceeds (n + 1) (readWith b type) (readWith b' type') := by
  intro ts hts hle
  refine settles_peek hts fun t us hus => ?_
  have hbody {vs : List Token} {f : Ty → Ty} (hclosed : Closed vs) (hvs : vs.length < ts.length) :
      Settles (do return f (← type)) (do return f (← type')) vs
        fun _ rest => rest.length < ts.length :=
    (htype.within hclosed (by omega) (by omega)).bind fun body rest hrest _ hshort =>
      settles_pure hrest hshort
  have hstart (hk : t.kind ≠ .eof) {u : Token} (hu : ts = [u]) (heof : u.kind = .eof) : False := by
    obtain ⟨rfl, -⟩ := List.cons_eq_cons.1 (hus.symm.trans hu)
    exact hk heof
  split
  · next ht =>
    refine settles_next hts (fun _ us _ _ hus hclosed => ?_) fun u hu heof =>
      (hstart (by simp [ht]) hu heof).elim
    refine settles_expect (by decide) hclosed fun x vs _ _ hvs hclosed => ?_
    exact settles_expect (by decide) hclosed fun _ ws _ _ hws hclosed => hbody hclosed (by omega)
  · refine settles_peekSecond hts fun _ _ _ => ?_
    split
    · next hdot =>
      simp only [Bool.and_eq_true, decide_eq_true_eq] at hdot
      refine settles_next hts (fun _ us _ _ hus hclosed => ?_) fun u hu heof =>
        (hstart (by simp [hdot.1]) hu heof).elim
      exact settles_next hclosed (fun _ vs _ _ hvs hclosed => hbody hclosed (by omega))
        fun _ _ _ => hbody hclosed hus
    · exact readArrow_proceeds htype hb hb' ts hts hle

end

theorem read_proceeds {n b b' : Nat} (hb : n ≤ b) (hb' : n ≤ b') :
    Proceeds n (read b) (read b') :=
  proceeds_of_succ (fun _ _ _ hb hb' h => readWith_proceeds h hb hb') hb hb'

end Ty

/-! ## Patterns -/

namespace Pat

section
variable {n : Nat} {pat pat' : Reader Pat} (hpat : Proceeds n pat pat')
include hpat

theorem readAtomWith_proceeds : Proceeds (n + 1) (readAtomWith pat) (readAtomWith pat') := by
  intro ts hts hle
  refine settles_next hts (fun t us _ _ hlt hus => ?_) fun t _ ht => ?_
  · split
    · exact (settles_numeral t hus).bind fun k rest hrest _ heq =>
        settles_pure hrest (by rwa [heq])
    · exact settles_pure hus hlt
    · exact settles_pure hus hlt
    · exact settles_pure hus hlt
    · exact settles_pure hus hlt
    · exact settles_pure hus hlt
    · exact settles_expect (by decide) hus fun _ vs _ _ hvs hclosed =>
        settles_pure hclosed (by omega)
    · refine settles_accept (by decide) hus (fun _ vs _ _ hvs hclosed =>
        settles_pure hclosed (by omega)) ?_
      refine (hpat us hus (by omega)).bind fun p rest hrest _ hshort => ?_
      exact settles_expect (by decide) hrest fun _ vs _ _ hvs hclosed =>
        settles_pure hclosed (by omega)
    · exact settles_failAt (by simp [SyntaxError.Internal])
  · simp only [ht]
    exact settles_failAt (by simp [SyntaxError.Internal])

theorem readWith_proceeds : Proceeds (n + 1) (readWith pat) (readWith pat') := by
  intro ts hts hle
  refine (readAtomWith_proceeds hpat ts hts hle).bind fun p rest hrest _ hlt => ?_
  refine settles_accept (by decide) hrest (fun _ us _ _ hus hclosed => ?_)
    (settles_pure hrest hlt)
  exact (hpat.within hclosed (by omega) (by omega)).bind fun q left hleft _ hshort =>
    settles_pure hleft hshort

end

theorem read_proceeds {n b b' : Nat} (hb : n ≤ b) (hb' : n ≤ b') :
    Proceeds n (read b) (read b') :=
  proceeds_of_succ (fun _ _ _ _ _ h => readWith_proceeds h) hb hb'

theorem readAtom_proceeds {n b b' : Nat} (hb : n ≤ b) (hb' : n ≤ b') :
    Proceeds (n + 1) (readAtom b) (readAtom b') :=
  readAtomWith_proceeds (read_proceeds hb hb')

end Pat

/-! ## Expressions -/

namespace Expr

section
variable {n b b' : Nat} (hb : n ≤ b) (hb' : n ≤ b')
include hb hb'

theorem readPlainHead_proceeds : Proceeds (n + 1) (readPlainHead b) (readPlainHead b') := by
  intro ts hts hle
  refine (Pat.readAtom_proceeds hb hb' ts hts hle).bind fun p rest hrest _ hlt => ?_
  exact settles_accept (by decide) hrest
    (fun _ us _ _ hus hclosed => settles_pure hclosed (by omega)) (settles_pure hrest hlt)

theorem readTypedHead_settles {ts : List Token} (hts : Closed ts) (hle : ts.length ≤ n + 1) :
    Settles (readTypedHead b) (readTypedHead b') ts
      fun o rest => o.isSome → rest.length < ts.length := by
  refine settles_accept (by decide) hts (fun _ us _ _ hus hclosed => ?_)
    (settles_pure hts (by simp))
  refine (Pat.read_proceeds hb hb' us hclosed (by omega)).bind fun p rest hrest _ hshort => ?_
  refine settles_accept (by decide) hrest (fun _ vs _ _ hvs hclosed => ?_)
    (settles_pure hrest (by simp))
  refine (Ty.read_proceeds hb hb' vs hclosed (by omega)).bind fun t rest hrest _ hshort => ?_
  refine settles_accept (by decide) hrest (fun _ ws _ _ hws hclosed => ?_)
    (settles_pure hrest (by simp))
  exact settles_accept (by decide) hclosed
    (fun _ xs _ _ hxs hclosed => settles_pure hclosed fun _ => by omega)
    (settles_pure hclosed (by simp))

/-- Whether a function starts does not depend on the bounds, and what follows its head is the end
of the row. -/
theorem head?_settles {ts : List Token} (hts : Closed ts) (hle : ts.length ≤ n + 1) :
    head? b ts = head? b' ts ∧ ∀ x rest, head? b ts = some (x, rest) →
      Closed rest ∧ rest <:+ ts ∧ rest.length < ts.length := by
  have hplain := readPlainHead_proceeds hb hb' ts hts hle
  have htyped := readTypedHead_settles hb hb' hts hle
  refine ⟨by simp only [head?, StateT.run, hplain.same, htyped.same], fun x rest h => ?_⟩
  unfold head? at h
  split at h
  · next hrun =>
    cases h
    exact hplain.leaves _ _ hrun
  · split at h
    · next hrun =>
      cases h
      obtain ⟨hclosed, hsuffix, hshort⟩ := htyped.leaves _ _ hrun
      exact ⟨hclosed, hsuffix, hshort rfl⟩
    · cases h

theorem readAscription_settles {ts : List Token} (hts : Closed ts) (hle : ts.length ≤ n) :
    Settles (readAscription b) (readAscription b') ts fun _ _ => True := by
  refine settles_accept (by decide) hts (fun _ us _ _ hus hclosed => ?_) (settles_pure hts trivial)
  exact (Ty.read_proceeds hb hb' us hclosed (by omega)).bind fun t rest hrest _ _ =>
    settles_pure hrest trivial

variable {expr expr' : Reader Expr} (hexpr : Proceeds n expr expr')
include hexpr

theorem readDefinition_proceeds : Proceeds n (readDefinition b expr) (readDefinition b' expr') := by
  intro ts hts hle
  refine (next_settles hts).bind fun word us hus hsuffix _ => ?_
  have hlen := hsuffix.length_le
  refine (Pat.readAtom_proceeds hb hb' us hus (by omega)).bind fun p vs hvs _ hshort => ?_
  refine (readAscription_settles hb hb' hvs (by omega)).bind fun a ws hws hsuffix _ => ?_
  have hlen := hsuffix.length_le
  refine settles_expect (by decide) hws fun _ xs _ _ hxs hclosed => ?_
  exact (hexpr.within hclosed (by omega) (by omega)).bind fun v rest hrest _ hlt =>
    settles_pure hrest hlt

theorem readStatement_proceeds : Proceeds n (readStatement b expr) (readStatement b' expr') := by
  intro ts hts hle
  refine settles_peek hts fun t us _ => ?_
  split
  · exact readDefinition_proceeds hb hb' hexpr ts hts hle
  · exact readDefinition_proceeds hb hb' hexpr ts hts hle
  · exact hexpr ts hts hle

theorem readBlock_proceeds : Proceeds n (readBlock b expr) (readBlock b' expr') := by
  intro ts hts hle
  have hstmts := settles_items .statementEnd hts (hle.trans hb) (hle.trans hb')
    fun us hus hsuffix => readStatement_proceeds hb hb' hexpr us hus (hsuffix.length_le.trans hle)
  refine hstmts.bind fun ⟨stmts, brace⟩ rest hrest _ ⟨front, hfront⟩ => ?_
  have hlt : rest.length < ts.length := by
    rw [hfront, List.length_append, List.length_cons]
    omega
  dsimp only
  split
  · exact settles_failAt (by simp [SyntaxError.Internal])
  · split
    · exact settles_failAt (by simp [SyntaxError.Internal])
    · exact settles_pure hrest hlt

theorem readAtom_proceeds : Proceeds (n + 1) (readAtom b expr) (readAtom b' expr') := by
  intro ts hts hle
  refine settles_next hts (fun t us _ _ hlt hus => ?_) fun t _ ht => ?_
  · split
    · exact (settles_numeral t hus).bind fun k rest hrest _ heq =>
        settles_pure hrest (by rwa [heq])
    · exact settles_pure hus hlt
    · exact settles_pure hus hlt
    · exact settles_pure hus hlt
    · exact settles_pure hus hlt
    · exact settles_expect (by decide) hus fun _ vs _ _ hvs hclosed =>
        settles_pure hclosed (by omega)
    · refine settles_accept (by decide) hus (fun _ vs _ _ hvs hclosed =>
        settles_pure hclosed (by omega)) ?_
      refine (hexpr us hus (by omega)).bind fun p rest hrest _ hshort => ?_
      exact settles_expect (by decide) hrest fun _ vs _ _ hvs hclosed =>
        settles_pure hclosed (by omega)
    · exact (readBlock_proceeds hb hb' hexpr).within hus (by omega) (by omega)
    · exact settles_failAt (by simp [SyntaxError.Internal])
  · simp only [ht]
    exact settles_failAt (by simp [SyntaxError.Internal])

theorem readApp_proceeds : Proceeds (n + 1) (readApp b expr) (readApp b' expr') := by
  intro ts hts hle
  have hatom := readAtom_proceeds hb hb' hexpr
  refine (hatom ts hts hle).bind fun func rest hrest _ hlt => ?_
  have hloop : Settles (extend (readArg? b expr) b func) (extend (readArg? b' expr') b' func) rest
      fun _ _ => True := by
    refine settles_extend hrest (by omega) (by omega) fun f us hus hsuffix => ?_
    have hlen := hsuffix.length_le
    refine settles_peek hus fun t vs _ => ?_
    split
    · exact (hatom us hus (by omega)).bind fun arg left hleft _ hshort =>
        settles_pure hleft fun _ => hshort
    · exact settles_pure hus (by simp)
  exact hloop.imp fun _ left hleft _ => Nat.lt_of_le_of_lt hleft.length_le hlt

theorem readOperators_proceeds (tiers : Nat) :
    Proceeds (n + 1) (readOperators b expr tiers) (readOperators b' expr' tiers) := by
  induction tiers with
  | zero => exact readApp_proceeds hb hb' hexpr
  | succ k ih =>
    intro ts hts hle
    refine (ih ts hts hle).bind fun left rest hrest _ hlt => ?_
    have hloop : Settles (extend (readOperation? (k + 3) (readOperators b expr k)) b left)
        (extend (readOperation? (k + 3) (readOperators b' expr' k)) b' left) rest
        fun _ _ => True := by
      refine settles_extend hrest (by omega) (by omega) fun e us hus hsuffix => ?_
      have hlen := hsuffix.length_le
      refine settles_peek hus fun t vs _ => ?_
      cases opOf? t.kind with
      | none => exact settles_pure hus (by simp)
      | some op =>
        by_cases hop : op.level = k + 3
        · simp only [if_pos hop]
          refine (next_settles hus).bind fun _ ws hws hsuffix _ => ?_
          have hlen := hsuffix.length_le
          exact (ih.within hws (by omega) hlen).bind fun right left hleft _ hshort =>
            settles_pure hleft fun _ => hshort
        · simp only [if_neg hop]
          exact settles_pure hus (by simp)
    exact hloop.imp fun _ left hleft _ => Nat.lt_of_le_of_lt hleft.length_le hlt

theorem readCons_proceeds : Proceeds (n + 1) (readCons b expr) (readCons b' expr') := by
  intro ts hts hle
  refine (readOperators_proceeds hb hb' hexpr 5 ts hts hle).bind fun head rest hrest _ hlt => ?_
  refine settles_accept (by decide) hrest (fun _ us _ _ hus hclosed => ?_)
    (settles_pure hrest hlt)
  exact (hexpr.within hclosed (by omega) (by omega)).bind fun tail left hleft _ hshort =>
    settles_pure hleft hshort

theorem readArm_proceeds : Proceeds n (readArm b expr) (readArm b' expr') := by
  intro ts hts hle
  refine settles_expect (by decide) hts fun _ us _ _ hus hclosed => ?_
  refine (Pat.read_proceeds hb hb' us hclosed (by omega)).bind fun p vs hvs _ hshort => ?_
  refine settles_expect (by decide) hvs fun _ ws _ _ hws hclosed => ?_
  exact (hexpr.within hclosed (by omega) (by omega)).bind fun body rest hrest _ hlt =>
    settles_pure hrest hlt

/-- A match, at a word that may be taken. -/
theorem readMatch_settles {ts : List Token} (hts : Closed ts)
    (hword : ∀ t us, Gives next ts t us → us.length ≤ n) :
    Settles (readMatch b expr) (readMatch b' expr') ts fun _ rest => rest.length < ts.length := by
  refine (next_settles hts).bind fun t us hus hsuffix hnext => ?_
  have hle := hword t us hnext
  have hlen := hsuffix.length_le
  refine (hexpr us hus hle).bind fun value vs hvs _ hshort => ?_
  refine settles_expect (by decide) hvs fun _ ws _ _ hws hclosed => ?_
  refine settles_expect (by decide) hclosed fun _ xs _ _ hxs hclosed => ?_
  have hxs : xs.length ≤ n := by omega
  have harms := settles_items .matchCaseEnd hclosed (hxs.trans hb) (hxs.trans hb')
    fun ys hys hsuffix => readArm_proceeds hb hb' hexpr ys hys (hsuffix.length_le.trans hxs)
  refine harms.bind fun ⟨arms, brace⟩ rest hrest hsuffix _ => ?_
  have hlen := hsuffix.length_le
  dsimp only
  split
  · exact settles_failAt (by simp [SyntaxError.Internal])
  · exact settles_pure hrest (by omega)

theorem readFunction_proceeds : Proceeds (n + 1) (readFunction b expr) (readFunction b' expr') := by
  intro ts hts hle
  obtain ⟨hsame, hleaves⟩ := head?_settles hb hb' hts hle
  cases hhead : head? b ts with
  | none =>
    refine (readCons_proceeds hb hb' hexpr ts hts hle).step ?_ ?_ (List.suffix_refl _)
    · simp only [readFunction, hhead, StateT.run]
    · simp only [readFunction, ← hsame, hhead, StateT.run]
  | some x =>
    obtain ⟨⟨p, a⟩, rest⟩ := x
    obtain ⟨hclosed, hsuffix, hlt⟩ := hleaves _ _ hhead
    have hbody := (hexpr.within hclosed (m := ts.length) (by omega) (by omega)).map
      (f := Expr.lambda p a) (R := fun _ rest => rest.length < ts.length) fun _ _ h => h
    refine hbody.step ?_ ?_ hsuffix
    · simp only [readFunction, hhead, StateT.run]
    · simp only [readFunction, ← hsame, hhead, StateT.run]

end

/-- A conditional, at a word that may be taken. -/
theorem readConditional_settles {n : Nat} {expr expr' : Reader Expr} (hexpr : Proceeds n expr expr')
    {ts : List Token} (hts : Closed ts) (hword : ∀ t us, Gives next ts t us → us.length ≤ n) :
    Settles (readConditional expr) (readConditional expr') ts
      fun _ rest => rest.length < ts.length := by
  refine (next_settles hts).bind fun t us hus hsuffix hnext => ?_
  have hle := hword t us hnext
  have hlen := hsuffix.length_le
  refine (hexpr us hus hle).bind fun test vs hvs _ hshort => ?_
  refine settles_expect (by decide) hvs fun _ ws _ _ hws hclosed => ?_
  refine (hexpr ws hclosed (by omega)).bind fun yes xs hxs _ hshort => ?_
  refine settles_expect (by decide) hxs fun _ ys _ _ hys hclosed => ?_
  exact (hexpr.within hclosed (by omega) (by omega)).bind fun no rest hrest _ hlt =>
    settles_pure hrest hlt

theorem readWith_proceeds {n b b' : Nat} (hb : n ≤ b) (hb' : n ≤ b') {expr expr' : Reader Expr}
    (hexpr : Proceeds n expr expr') : Proceeds (n + 1) (readWith b expr) (readWith b' expr') := by
  intro ts hts hle
  refine settles_peek hts fun t us hus => ?_
  have hword (ht : t.kind ≠ .eof) : ∀ u vs, Gives next ts u vs → vs.length ≤ n := by
    intro u vs hnext
    rw [hus, gives_next ht] at hnext
    rw [hus, List.length_cons] at hle
    rw [hnext.2]
    omega
  split
  · next ht => exact readConditional_settles hexpr hts (hword (by simp [ht]))
  · next ht => exact readMatch_settles hb hb' hexpr hts (hword (by simp [ht]))
  · exact readFunction_proceeds hb hb' hexpr ts hts hle

theorem read_proceeds {n b b' : Nat} (hb : n ≤ b) (hb' : n ≤ b') :
    Proceeds n (read b) (read b') :=
  proceeds_of_succ (fun _ _ _ hb hb' h => readWith_proceeds hb hb' h) hb hb'

/-! ## Whole sources -/

theorem readProgram_proceeds {n b b' : Nat} (hb : n ≤ b) (hb' : n ≤ b') :
    Proceeds n (readProgram b) (readProgram b') := by
  intro ts hts hle
  refine (readStatement_proceeds hb hb' (read_proceeds hb hb') ts hts hle).bind
    fun stmt rest hrest _ hlt => ?_
  exact settles_accept (by decide) hrest
    (fun _ us _ _ hus hclosed => settles_pure hclosed (by omega)) (settles_pure hrest hlt)

theorem readSequence_settles {n b b' k k' : Nat} (hb : n ≤ b) (hb' : n ≤ b') {ts : List Token}
    (hts : Closed ts) (hle : ts.length ≤ n) (hk : ts.length ≤ k) (hk' : ts.length ≤ k') :
    Settles (readSequence b k) (readSequence b' k') ts fun _ _ => True := by
  induction k generalizing k' ts with
  | zero =>
    have := hts.length_pos
    omega
  | succ k ih =>
    obtain ⟨k', rfl⟩ : ∃ m, k' = m + 1 :=
      Nat.exists_eq_succ_of_ne_zero (by have := hts.length_pos; omega)
    refine settles_peek hts fun t us _ => ?_
    split
    · exact settles_pure hts trivial
    · refine (readStatement_proceeds hb hb' (read_proceeds hb hb') ts hts hle).bind
        fun stmt rest hrest _ hlt => ?_
      refine settles_accept (by decide) hrest (fun _ us _ _ hus hclosed => ?_)
        (settles_pure hrest trivial)
      exact (ih hclosed (by omega) (by omega) (by omega)).bind fun stmts left hleft _ _ =>
        settles_pure hleft trivial

end Expr

/-! ## All readers -/

/-- **The readers of the language**, each with the least number of tokens that it takes.  The bound
that they are given is one for nesting and for loops. -/
inductive PhraseReader : {α : Type} → (Nat → Reader α) → Nat → Prop
  | type : PhraseReader Ty.read 1
  | arrowType : PhraseReader (fun n => Ty.readArrow n (Ty.read n)) 1
  | appType : PhraseReader (fun n => Ty.readApp n (Ty.read n)) 1
  | atomType : PhraseReader (fun n => Ty.readAtom (Ty.read n)) 1
  | pattern : PhraseReader Pat.read 1
  | atomPattern : PhraseReader Pat.readAtom 1
  | expression : PhraseReader Expr.read 1
  | conditional : PhraseReader (fun n => Expr.readConditional (Expr.read n)) 1
  | select : PhraseReader (fun n => Expr.readMatch n (Expr.read n)) 1
  | arm : PhraseReader (fun n => Expr.readArm n (Expr.read n)) 1
  | function : PhraseReader (fun n => Expr.readFunction n (Expr.read n)) 1
  | plainHead : PhraseReader Expr.readPlainHead 1
  | typedHead : PhraseReader Expr.readTypedHead 0
  | cons : PhraseReader (fun n => Expr.readCons n (Expr.read n)) 1
  | operators (tiers : Nat) : PhraseReader (fun n => Expr.readOperators n (Expr.read n) tiers) 1
  | app : PhraseReader (fun n => Expr.readApp n (Expr.read n)) 1
  | atom : PhraseReader (fun n => Expr.readAtom n (Expr.read n)) 1
  | block : PhraseReader (fun n => Expr.readBlock n (Expr.read n)) 1
  | statement : PhraseReader (fun n => Expr.readStatement n (Expr.read n)) 1
  | definition : PhraseReader (fun n => Expr.readDefinition n (Expr.read n)) 1
  | ascription : PhraseReader Expr.readAscription 0
  | program : PhraseReader Expr.readProgram 1
  | sequence : PhraseReader (fun n => Expr.readSequence n n) 0

theorem PhraseReader.settles {α : Type} {r : Nat → Reader α} {least : Nat}
    (h : PhraseReader r least) {ts : List Token} (hts : Closed ts) {b b' : Nat}
    (hb : ts.length ≤ b) (hb' : ts.length ≤ b') :
    Settles (r b) (r b') ts fun _ rest => rest.length + least ≤ ts.length := by
  have htype := Ty.read_proceeds hb hb'
  have hexpr := Expr.read_proceeds hb hb'
  have hword : ∀ t us, Gives next ts t us → us.length ≤ ts.length := fun t us hnext =>
    ((next_settles hts).leaves t us hnext).2.1.length_le
  have hone {α : Type} {r r' : Reader α} (h : Proceeds (ts.length + 1) r r') :
      Settles r r' ts fun _ rest => rest.length < ts.length := h ts hts (by omega)
  cases h with
  | type => exact htype ts hts (Nat.le_refl _)
  | arrowType => exact hone (Ty.readArrow_proceeds htype hb hb')
  | appType => exact hone (Ty.readApp_proceeds htype hb hb')
  | atomType => exact hone (Ty.readAtom_proceeds htype)
  | pattern => exact Pat.read_proceeds hb hb' ts hts (Nat.le_refl _)
  | atomPattern => exact hone (Pat.readAtom_proceeds hb hb')
  | expression => exact hexpr ts hts (Nat.le_refl _)
  | conditional => exact Expr.readConditional_settles hexpr hts hword
  | select => exact Expr.readMatch_settles hb hb' hexpr hts hword
  | arm => exact Expr.readArm_proceeds hb hb' hexpr ts hts (Nat.le_refl _)
  | function => exact hone (Expr.readFunction_proceeds hb hb' hexpr)
  | plainHead => exact hone (Expr.readPlainHead_proceeds hb hb')
  | typedHead =>
    exact (Expr.readTypedHead_settles hb hb' hts (by omega)).imp fun _ _ hle _ => hle.length_le
  | cons => exact hone (Expr.readCons_proceeds hb hb' hexpr)
  | operators tiers => exact hone (Expr.readOperators_proceeds hb hb' hexpr tiers)
  | app => exact hone (Expr.readApp_proceeds hb hb' hexpr)
  | atom => exact hone (Expr.readAtom_proceeds hb hb' hexpr)
  | block => exact Expr.readBlock_proceeds hb hb' hexpr ts hts (Nat.le_refl _)
  | statement => exact Expr.readStatement_proceeds hb hb' hexpr ts hts (Nat.le_refl _)
  | definition => exact Expr.readDefinition_proceeds hb hb' hexpr ts hts (Nat.le_refl _)
  | ascription =>
    exact (Expr.readAscription_settles hb hb' hts (Nat.le_refl _)).imp
      fun _ _ hle _ => hle.length_le
  | program => exact Expr.readProgram_proceeds hb hb' ts hts (Nat.le_refl _)
  | sequence =>
    exact (Expr.readSequence_settles hb hb' hts (Nat.le_refl _) hb hb').imp
      fun _ _ hle _ => hle.length_le

/-! ## Places in a row -/

/-- The cursor is moved on within the row, by at least so many tokens. -/
def Moves (toks : List Token) (pos least : Nat) (rest : List Token) : Prop :=
  ∃ pos', pos + least ≤ pos' ∧ pos' < toks.length ∧ rest = toks.drop pos'

/-- The reader comes to a result at a place of the row: it fails because of a token, or it gives a
value and moves the cursor. -/
def Answers {α : Type} (toks : List Token) (pos least : Nat) :
    Except SyntaxError (α × List Token) → Prop
  | .error e => ¬e.Internal
  | .ok (_, rest) => Moves toks pos least rest

theorem moves_of_suffix {toks rest : List Token} {pos least : Nat} (hpos : pos < toks.length)
    (hsuffix : rest <:+ toks.drop pos) (hrest : Closed rest)
    (hle : rest.length + least ≤ (toks.drop pos).length) : Moves toks pos least rest := by
  have hwhole : rest <:+ toks := hsuffix.trans (List.drop_suffix pos toks)
  have hlen := hrest.length_pos
  have hlen' := hwhole.length_le
  rw [List.length_drop] at hle
  exact ⟨toks.length - rest.length, by omega, by omega, List.suffix_iff_eq_drop.1 hwhole⟩

theorem Reader.Settles.answers {α : Type} {r r' : Reader α} {toks : List Token} {pos least : Nat}
    (hpos : pos < toks.length) (h : Settles r r' (toks.drop pos)
      fun _ rest => rest.length + least ≤ (toks.drop pos).length) :
    Answers toks pos least (r (toks.drop pos)) := by
  cases hr : r (toks.drop pos) with
  | error e => exact h.fails e hr
  | ok x =>
    obtain ⟨hclosed, hsuffix, hle⟩ := h.leaves x.1 x.2 hr
    exact moves_of_suffix hpos hsuffix hclosed hle

section
variable {α : Type} {r : Nat → Reader α} {least : Nat} {toks : List Token}

/-- **Every reader comes to a result at every place**, whatever the bound. -/
theorem PhraseReader.exists_answer (h : PhraseReader r least) (htoks : Closed toks) {pos : Nat}
    (hpos : pos < toks.length) : ∃ answer, Answers toks pos least answer ∧
      ∀ bound, toks.length - pos ≤ bound → r bound (toks.drop pos) = answer := by
  have hlen : (toks.drop pos).length ≤ toks.length - pos := Nat.le_of_eq List.length_drop
  have hsettles {bound : Nat} (hbound : toks.length - pos ≤ bound) :=
    h.settles (htoks.drop hpos) (hlen.trans hbound) hlen
  exact ⟨_, (hsettles (Nat.le_refl _)).answers hpos, fun bound hbound => (hsettles hbound).same⟩

/-- Reads a whole row. -/
def Reader.whole (r : Reader α) (ts : List Token) : Except SyntaxError α :=
  (do let a ← r; expectEnd; return a : Reader α).run' ts

theorem Reader.readAll_eq_whole {source : List Char} (h : (Token.scan source).fault = none) :
    readAll r source =
      (r ((Token.scan source).tokens.length + 1)).whole (Token.scan source).tokens := by
  rw [readAll]
  simp only [h]
  rfl

theorem PhraseReader.exists_whole (h : PhraseReader r least) (htoks : Closed toks) :
    ∃ answer, (∀ e, answer = .error e → ¬e.Internal) ∧
      ∀ bound, toks.length ≤ bound → (r bound).whole toks = answer := by
  have hsettles {bound : Nat} (hbound : toks.length ≤ bound) :
      Settles (do let a ← r bound; expectEnd; return a)
        (do let a ← r toks.length; expectEnd; return a) toks fun _ _ => True :=
    (h.settles htoks hbound (Nat.le_refl _)).bind fun a rest hrest _ _ =>
      (settles_expectEnd hrest).bind fun _ left hleft _ _ => settles_pure hleft trivial
  refine ⟨(r toks.length).whole toks, fun e he => ?_, fun bound hbound =>
    congrArg (Except.map Prod.fst) (hsettles hbound).same⟩
  have hfails := (hsettles (Nat.le_refl _)).fails
  rw [whole, StateT.run'] at he
  cases hrun : (do let a ← r toks.length; expectEnd; return a : Reader α) toks with
  | error e' =>
    rw [hrun] at he
    cases he
    exact hfails e hrun
  | ok x =>
    rw [hrun] at he
    cases he

/-- The brace that ends items is the token before the cursor. -/
theorem PhraseReader.items_brace (h : PhraseReader r 1) (htoks : Closed toks) {pos bound : Nat}
    (hpos : pos < toks.length) (hbound : toks.length - pos ≤ bound) {place : SyntaxError.Place}
    {as : List α} {brace : Token} {rest : List Token}
    (hitems : Gives (items (r bound) place bound) (toks.drop pos) (as, brace) rest) :
    ∃ pos', pos < pos' ∧ pos' < toks.length ∧ rest = toks.drop pos' ∧
      toks[pos' - 1]? = some brace := by
  have hlen : (toks.drop pos).length ≤ bound := by rwa [List.length_drop]
  have hsettles := settles_items place (htoks.drop hpos) hlen hlen fun us hus hsuffix =>
    h.settles hus (hsuffix.length_le.trans hlen) (hsuffix.length_le.trans hlen)
  obtain ⟨hclosed, -, front, hfront⟩ := hsettles.leaves _ _ hitems
  have hbrace : toks.drop (pos + front.length) = brace :: rest := by
    rw [← List.drop_drop, hfront, List.drop_left]
  have hrest : rest = toks.drop (pos + front.length + 1) := by
    rw [← List.drop_drop, hbrace, List.drop_one, List.tail_cons]
  have hlast := hclosed.length_pos
  rw [hrest, List.length_drop] at hlast
  refine ⟨pos + front.length + 1, by omega, by omega, hrest, ?_⟩
  rw [Nat.add_sub_cancel, ← List.head?_drop, hbrace, List.head?_cons]

end

/-- Whether a function starts at a place does not depend on the bound, and if it does, its head is
taken. -/
theorem exists_head? {toks : List Token} (htoks : Closed toks) {pos : Nat}
    (hpos : pos < toks.length) : ∃ found,
      (∀ bound, toks.length - pos ≤ bound → Expr.head? bound (toks.drop pos) = found) ∧
      ∀ x rest, found = some (x, rest) → Moves toks pos 1 rest := by
  have hlen : (toks.drop pos).length ≤ toks.length - pos := Nat.le_of_eq List.length_drop
  have hsettles {bound : Nat} (hbound : toks.length - pos ≤ bound) :=
    Expr.head?_settles (hlen.trans hbound) hlen (htoks.drop hpos) (Nat.le_succ _)
  refine ⟨_, fun bound hbound => (hsettles hbound).1, fun x rest hfound => ?_⟩
  obtain ⟨hclosed, hsuffix, hlt⟩ := (hsettles (Nat.le_refl _)).2 x rest hfound
  exact moves_of_suffix hpos hsuffix hclosed hlt

/-- **The readers are total.**  On a row that ends with its only end token, every reader comes to a
result at every place, the same for all bounds that are no less than the number of tokens left:
it fails because of a token of the row, or it moves the cursor on within the row.  The brace
that ends a block or a match is the token before the cursor, and where no function starts, what
is read instead starts at the same place.  So a whole row is read or fails because of one of
its tokens, and a whole source is read as its row is. -/
theorem readers_total (toks : List Token) (htoks : Closed toks) :
    (∀ {α : Type} {r : Nat → Reader α} {least : Nat}, PhraseReader r least →
      ∀ pos < toks.length, ∃ answer, Answers toks pos least answer ∧
        ∀ bound, toks.length - pos ≤ bound → r bound (toks.drop pos) = answer) ∧
    (∀ {α : Type} {r : Nat → Reader α}, PhraseReader r 1 → ∀ pos bound place as brace rest,
      pos < toks.length → toks.length - pos ≤ bound →
      Gives (items (r bound) place bound) (toks.drop pos) (as, brace) rest →
        ∃ pos', pos < pos' ∧ pos' < toks.length ∧ rest = toks.drop pos' ∧
          toks[pos' - 1]? = some brace) ∧
    (∀ pos < toks.length, ∃ found,
      (∀ bound, toks.length - pos ≤ bound → Expr.head? bound (toks.drop pos) = found ∧
        (found = none → Expr.readFunction bound (Expr.read bound) (toks.drop pos) =
          Expr.readCons bound (Expr.read bound) (toks.drop pos))) ∧
      ∀ x rest, found = some (x, rest) → Moves toks pos 1 rest) ∧
    ∀ {α : Type} {r : Nat → Reader α} {least : Nat}, PhraseReader r least →
      ∃ answer, (∀ e, answer = .error e → ¬e.Internal) ∧
        (∀ bound, toks.length ≤ bound → (r bound).whole toks = answer) ∧
        ∀ source, (Token.scan source).fault = none → (Token.scan source).tokens = toks →
          readAll r source = answer := by
  refine ⟨fun h pos hpos => h.exists_answer htoks hpos,
    fun h pos bound place as brace rest hpos hbound => h.items_brace htoks hpos hbound,
    fun pos hpos => ?_, fun h => ?_⟩
  · obtain ⟨found, hfound, hmoves⟩ := exists_head? htoks hpos
    refine ⟨found, fun bound hbound => ⟨hfound bound hbound, ?_⟩, hmoves⟩
    rintro rfl
    simp only [Expr.readFunction, hfound bound hbound, StateT.run]
  · obtain ⟨answer, hreal, hwhole⟩ := h.exists_whole htoks
    refine ⟨answer, hreal, hwhole, fun source hfault hscan => ?_⟩
    rw [readAll_eq_whole hfault, hscan]
    exact hwhole _ (Nat.le_succ _)

/-- A block that is not closed, with a function in it: reading fails because of a token, with any
bound from the number of tokens on. -/
theorem readers_total_block :
    let toks := [Token.Kind.lbrace, .ident, .fatArrow, .int, .eof].map (⟨·, "1", .start⟩)
    Closed toks ∧ ∃ answer, (∀ e, answer = .error e → ¬e.Internal) ∧
      ∀ bound, toks.length ≤ bound → (Expr.read bound).whole toks = answer := by
  intro toks
  have htoks : Closed toks := ⟨toks.dropLast, ⟨.eof, "1", .start⟩, by decide, rfl, by decide⟩
  obtain ⟨answer, hreal, hwhole, -⟩ := (readers_total toks htoks).2.2.2 .expression
  exact ⟨htoks, answer, hreal, hwhole⟩

end LetPoly
