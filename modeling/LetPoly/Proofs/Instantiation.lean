import LetPoly.Proofs.Matching
import LetPoly.Proofs.SessionTypes

/-! # Fresh instances

An instance of a scheme is its body with new names for the leading variables.  They are put
in one by one, under the binders that are left, but the result is that of putting them in at
once (`Infer.outcome_instantiate_bindAll`): a variable that several leading binders bind takes
the name of the innermost, and all other variables stay as they are.

A supply that has passed all numbers among the names of a scheme mints names that are not
among them (`Supply.Past.not_mem_freshList`), so no binder inside captures one of them.  This
holds up to the largest number only: after it comes the smallest, which may be a name in the
scheme (`Context.instantiate_wraps`).
-/

namespace LetPoly

/-! ## Numbers that a supply has passed -/

namespace Text.Decimal

theorem fit?_toInt (n : Int64) : fit? n.toInt = some n := by
  rw [fit?, if_pos ⟨n.minValue_le_toInt, n.toInt_le⟩, Int64.ofInt_toInt]

/-- A numeral is read as the word that it was written for. -/
theorem signed?_word (n : Int64) : signed? (word n) = some n := by
  have hmax := n.toInt_lt
  by_cases hn : n.toInt < 0
  · have hs : (word n).toList = '-' :: Nat.toDigits 10 n.toInt.natAbs := by
      rw [word, integer, if_pos hn, natural, String.toList_append, String.toList_ofList,
        String.toList_ofList, List.singleton_append]
    have habs : -(n.toInt.natAbs : Int) = n.toInt := by omega
    simp only [signed?, hs, digits?_toDigits, Option.bind_eq_bind, Option.bind_some, habs,
      fit?_toInt]
  · obtain ⟨k, hk⟩ := Int.eq_ofNat_of_zero_le (Int.not_lt.1 hn)
    have hword : word n = natural k := by
      rw [word, integer, if_neg hn, hk, Int.natAbs_natCast]
    have hcapacity : Supply.capacity = 2 ^ 63 := by decide
    rw [hword, signed?_natural (by omega), ← Int64.ofInt_eq_ofNat, ← hk, Int64.ofInt_toInt]

theorem word_injective {m n : Int64} (h : word m = word n) : m = n :=
  Option.some.inj (by rw [← signed?_word, h, signed?_word])

end Text.Decimal

namespace Supply

open Text.Decimal

/-- The supply has passed the number of a name, if it is one. -/
def Past (s : Supply) (x : String) : Prop := ∀ n, signed? x = some n → n < s.next

instance (s : Supply) (x : String) : Decidable (s.Past x) :=
  decidable_of_iff ((signed? x).all (· < s.next) = true) (by simp [Past, Option.all_eq_true])

/-- The supply can number so many variables more, and the one after them. -/
def Room (s : Supply) (n : Nat) : Prop := s.next.toInt + n ≤ Int64.maxValue.toInt

instance (s : Supply) (n : Nat) : Decidable (s.Room n) :=
  inferInstanceAs (Decidable (s.next.toInt + n ≤ Int64.maxValue.toInt))

theorem Room.mono {s : Supply} {m n : Nat} (h : s.Room n) (hm : m ≤ n) : s.Room m := by
  rw [Room] at h ⊢
  omega

theorem Room.toInt_advance {s : Supply} {n : Nat} (h : s.Room n) :
    (s.advance n).next.toInt = s.next.toInt + n := by
  rw [Room, Int64.toInt_maxValue] at h
  have hmin := s.next.le_toInt
  have hsize : (Int64.size : Int) = 2 ^ 64 := rfl
  have hword : (Int64.ofNat n).toInt = (n : Int).bmod Int64.size := by
    rw [← Int64.ofInt_eq_ofNat, Int64.toInt_ofInt]
  show (s.next + Int64.ofNat n).toInt = _
  rw [Int64.toInt_add, hword, Int.add_bmod_bmod]
  exact Int.bmod_eq_of_le (by omega) (by omega)

theorem Room.advance {s : Supply} {m n : Nat} (h : s.Room (m + n)) : (s.advance m).Room n := by
  rw [Room, (h.mono (Nat.le_add_right m n)).toInt_advance]
  rw [Room] at h
  omega

/-- The names of several variables are the numerals of consecutive words. -/
theorem freshList_fst (n : Nat) (s : Supply) :
    (s.freshList n).1 = (List.range n).map fun i => word (s.advance i).next := by
  induction n generalizing s with
  | zero => rfl
  | succ n ih =>
    show s.fresh.1 :: (s.fresh.2.freshList n).1 = _
    rw [ih, List.range_succ_eq_map, List.map_cons, List.map_map, advance_zero, fresh_snd]
    refine congrArg (_ :: ·) (List.map_congr_left fun i _ => ?_)
    rw [advance_advance, Nat.add_comm]
    rfl

variable {s : Supply} {n : Nat} {x : String}

/-- The last name may be that of the last word: no number comes after it then. -/
theorem nodup_freshList_of_pred (hroom : s.Room (n - 1)) : (s.freshList n).1.Nodup := by
  rw [freshList_fst]
  refine List.nodup_range.map_on fun i hi j hj hij => ?_
  have hi := (hroom.mono (Nat.le_pred_of_lt (List.mem_range.1 hi))).toInt_advance
  have hj := (hroom.mono (Nat.le_pred_of_lt (List.mem_range.1 hj))).toInt_advance
  have hij := congrArg Int64.toInt (word_injective hij)
  omega

theorem nodup_freshList (hroom : s.Room n) : (s.freshList n).1.Nodup :=
  nodup_freshList_of_pred (hroom.mono (Nat.sub_le n 1))

theorem word_of_mem_freshList (hroom : s.Room (n - 1)) (hx : x ∈ (s.freshList n).1) :
    ∃ m, x = word m ∧ s.next ≤ m ∧ m.toInt < s.next.toInt + n := by
  rw [freshList_fst] at hx
  obtain ⟨i, hi, rfl⟩ := List.mem_map.1 hx
  have hi := List.mem_range.1 hi
  have htoInt := (hroom.mono (Nat.le_pred_of_lt hi)).toInt_advance
  refine ⟨_, rfl, ?_, ?_⟩
  · rw [Int64.le_iff_toInt_le, htoInt]
    omega
  · rw [htoInt]
    omega

/-- What is minted is numbered from the next number on. -/
theorem number_of_mem_freshList (hroom : s.Room n) (hx : x ∈ (s.freshList n).1) :
    ∃ m, signed? x = some m ∧ s.next ≤ m ∧ m < (s.advance n).next := by
  obtain ⟨m, rfl, hle, hlt⟩ := word_of_mem_freshList (hroom.mono (Nat.sub_le n 1)) hx
  refine ⟨m, signed?_word m, hle, ?_⟩
  rwa [Int64.lt_iff_toInt_lt, hroom.toInt_advance]

theorem Past.not_mem_freshList (hx : s.Past x) (hroom : s.Room n) : x ∉ (s.freshList n).1 := by
  intro hmem
  obtain ⟨m, hm, hle, -⟩ := number_of_mem_freshList hroom hmem
  exact Int64.not_lt.2 hle (hx m hm)

theorem Past.advance (hx : s.Past x) (hroom : s.Room n) : (s.advance n).Past x := by
  intro m hm
  have hlt := hx m hm
  rw [Int64.lt_iff_toInt_lt] at hlt ⊢
  rw [hroom.toInt_advance]
  omega

theorem past_of_mem_freshList (hroom : s.Room n) (hx : x ∈ (s.freshList n).1) :
    (s.advance n).Past x := by
  obtain ⟨m, hm, -, hlt⟩ := number_of_mem_freshList hroom hx
  intro m' hm'
  rw [hm, Option.some.injEq] at hm'
  exact hm' ▸ hlt

end Supply

/-! ## Renaming free variables -/

namespace Ty

/-- **Renames the free variables**; what a binder binds keeps its name. -/
def renameFree (f : String → String) : Ty → Ty
  | .const c => .const c
  | .missing => .missing
  | .var x => .var (f x)
  | .arrow a r => .arrow (a.renameFree f) (r.renameFree f)
  | .app g a => .app (g.renameFree f) (a.renameFree f)
  | .poly b t => .poly b (t.renameFree (Function.update f b b))
  | .list t => .list (t.renameFree f)

/-- No binder captures a new name. -/
def Avoids (t : Ty) (f : String → String) : Prop :=
  ∀ x ∈ t.freeOccurrences, f x = x ∨ f x ∉ t.binders

variable {f g : String → String}

theorem Avoids.arrow {a r : Ty} (h : (arrow a r).Avoids f) : a.Avoids f ∧ r.Avoids f := by
  simp only [Avoids, freeOccurrences, binders, List.mem_append, not_or] at h
  exact ⟨fun x hx => (h x (.inl hx)).imp_right And.left,
    fun x hx => (h x (.inr hx)).imp_right And.right⟩

theorem Avoids.app {t u : Ty} (h : (app t u).Avoids f) : t.Avoids f ∧ u.Avoids f := Avoids.arrow h

/-- Under a binder its own variable keeps its name, and no other takes it. -/
theorem Avoids.poly {b : String} {t : Ty} (h : (poly b t).Avoids f) :
    t.Avoids (Function.update f b b) ∧ ∀ x ∈ t.freeOccurrences, x ≠ b → f x ≠ b := by
  have hfree {x : String} (hx : x ∈ t.freeOccurrences) (hxb : x ≠ b) :
      f x = x ∨ f x ≠ b ∧ f x ∉ t.binders := by
    have := h x (List.mem_filter.2 ⟨hx, by simpa using hxb⟩)
    simpa only [binders, List.mem_cons, not_or] using this
  refine ⟨fun x hx => ?_, fun x hx hxb => ?_⟩
  · by_cases hxb : x = b
    · exact .inl (by rw [hxb, Function.update_self])
    · rw [Function.update_of_ne hxb]
      exact (hfree hx hxb).imp_right And.right
  · rcases hfree hx hxb with heq | ⟨hne, -⟩
    · rwa [heq]
    · exact hne

theorem renameFree_congr {t : Ty} (h : ∀ x ∈ t.freeOccurrences, f x = g x) :
    t.renameFree f = t.renameFree g := by
  induction t generalizing f g with
  | const | missing => rfl
  | var x => rw [renameFree, renameFree, h x (List.mem_singleton_self x)]
  | arrow a r iha ihr | app a r iha ihr =>
    obtain ⟨ha, hr⟩ := List.forall_mem_append.1 h
    rw [renameFree, renameFree, iha ha, ihr hr]
  | poly b t ih =>
    rw [renameFree, renameFree, ih fun x hx => ?_]
    by_cases hxb : x = b
    · rw [hxb, Function.update_self, Function.update_self]
    · rw [Function.update_of_ne hxb, Function.update_of_ne hxb]
      exact h x (List.mem_filter.2 ⟨hx, by simpa using hxb⟩)
  | list t ih => rw [renameFree, renameFree, ih h]

theorem renameFree_id (t : Ty) : t.renameFree id = t := by
  induction t with
  | const | missing | var => rfl
  | arrow a r iha ihr | app a r iha ihr => rw [renameFree, iha, ihr]
  | poly b t ih =>
    rw [renameFree, show Function.update id b b = id from Function.update_eq_self b id, ih]
  | list t ih => rw [renameFree, ih]

/-- Renaming twice is renaming once, unless the first new name is captured. -/
theorem renameFree_renameFree {t : Ty} (h : t.Avoids f) :
    (t.renameFree f).renameFree g = t.renameFree (g ∘ f) := by
  induction t generalizing f g with
  | const | missing | var => rfl
  | arrow a r iha ihr =>
    simp only [renameFree, iha h.arrow.1, ihr h.arrow.2]
  | app a r iha ihr =>
    simp only [renameFree, iha h.app.1, ihr h.app.2]
  | poly b t ih =>
    obtain ⟨ht, hb⟩ := h.poly
    rw [renameFree, renameFree, renameFree, ih ht]
    refine congrArg (Ty.poly b) (renameFree_congr fun x hx => ?_)
    by_cases hxb : x = b
    · simp [hxb]
    · simp [hxb, hb x hx hxb]
  | list t ih => rw [renameFree, renameFree, renameFree, ih h]

theorem binders_renameFree (t : Ty) : (t.renameFree f).binders = t.binders := by
  induction t generalizing f with
  | const | missing | var => rfl
  | arrow a r iha ihr | app a r iha ihr => rw [renameFree, binders, binders, iha, ihr]
  | poly b t ih => rw [renameFree, binders, binders, ih]
  | list t ih => rw [renameFree, binders, binders, ih]

theorem freeOccurrences_renameFree {t : Ty} (h : t.Avoids f) :
    (t.renameFree f).freeOccurrences = t.freeOccurrences.map f := by
  induction t generalizing f with
  | const | missing | var => rfl
  | arrow a r iha ihr =>
    simp only [renameFree, freeOccurrences, iha h.arrow.1, ihr h.arrow.2, List.map_append]
  | app a r iha ihr =>
    simp only [renameFree, freeOccurrences, iha h.app.1, ihr h.app.2, List.map_append]
  | poly b t ih =>
    obtain ⟨ht, hb⟩ := h.poly
    rw [renameFree, freeOccurrences, freeOccurrences, ih ht, List.filter_map]
    have hkept : t.freeOccurrences.filter ((· != b) ∘ Function.update f b b) =
        t.freeOccurrences.filter (· != b) :=
      List.filter_congr fun x hx => by
        by_cases hxb : x = b
        · simp [hxb]
        · simp [bne, hxb, hb x hx hxb]
    rw [hkept]
    refine List.map_congr_left fun x hx => Function.update_of_ne ?_ _ _
    simpa using (List.mem_filter.1 hx).2
  | list t ih => rw [renameFree, freeOccurrences, freeOccurrences, ih h]

/-- What occurs after a renaming occurred before, or is a new name. -/
theorem mem_occurrences_renameFree {t : Ty} {y : String} (h : y ∈ (t.renameFree f).occurrences) :
    y ∈ t.occurrences ∨ ∃ x ∈ t.freeOccurrences, f x = y := by
  induction t generalizing f with
  | const | missing => cases h
  | var x => exact .inr ⟨x, List.mem_singleton_self x, (List.mem_singleton.1 h).symm⟩
  | arrow a r iha ihr | app a r iha ihr =>
    rcases List.mem_append.1 h with h | h
    · exact (iha h).imp (List.mem_append_left _) fun ⟨x, hx, hy⟩ =>
        ⟨x, List.mem_append_left _ hx, hy⟩
    · exact (ihr h).imp (List.mem_append_right _) fun ⟨x, hx, hy⟩ =>
        ⟨x, List.mem_append_right _ hx, hy⟩
  | poly b t ih =>
    rcases ih h with hy | ⟨x, hx, hy⟩
    · exact .inl hy
    · by_cases hxb : x = b
      · rw [hxb, Function.update_self] at hy
        rw [← hy, ← hxb]
        exact .inl (show x ∈ t.occurrences from mem_occurrences_of_free hx)
      · rw [Function.update_of_ne hxb] at hy
        exact .inr ⟨x, List.mem_filter.2 ⟨hx, by simpa using hxb⟩, hy⟩
  | list t ih => exact ih h

theorem permute_renameFree (π : Equiv.Perm String) (t : Ty) :
    (t.renameFree f).permute π = (t.permute π).renameFree (π ∘ f ∘ π.symm) := by
  induction t generalizing f with
  | const | missing => rfl
  | var x => simp [renameFree, permute]
  | arrow a r iha ihr | app a r iha ihr => simp only [renameFree, permute, iha, ihr]
  | poly b t ih =>
    have hupdate : π ∘ Function.update f b b ∘ π.symm =
        Function.update (π ∘ f ∘ π.symm) (π b) (π b) := by
      funext x
      by_cases hx : x = π b
      · simp [hx]
      · have hxb : π.symm x ≠ b := fun heq => hx (by rw [← heq, Equiv.apply_symm_apply])
        simp [Function.update_of_ne hx, Function.update_of_ne hxb]
    simp only [renameFree, permute, ih, hupdate]
  | list t ih => simp only [renameFree, permute, ih]

theorem lookup_filter_ne (σ : Subst) (b x : String) :
    List.lookup x (σ.filter (·.1 != b)) = if x = b then none else σ.lookup x := by
  induction σ with
  | nil => simp
  | cons p σ ih =>
    by_cases hp : p.1 = b
    · rw [List.filter_cons_of_neg (by simpa using hp), ih]
      by_cases hx : x = b
      · rw [if_pos hx, if_pos hx]
      · rw [if_neg hx, if_neg hx, List.lookup_cons, beq_false_of_ne fun heq => hx (heq.trans hp)]
    · rw [List.filter_cons_of_pos (by simpa using hp), List.lookup_cons, List.lookup_cons, ih]
      by_cases hx : x = p.1
      · simp [hx, hp]
      · rw [beq_false_of_ne hx]

/-- Putting variables in place of variables is renaming. -/
theorem subst_eq_renameFree {t : Ty} {σ : Subst}
    (h : ∀ x, (σ.lookup x).getD (.var x) = .var (f x)) : t.subst σ = t.renameFree f := by
  induction t generalizing σ f with
  | const | missing => rfl
  | var x => exact h x
  | arrow a r iha ihr | app a r iha ihr => rw [subst, renameFree, iha h, ihr h]
  | poly b t ih =>
    rw [subst, renameFree, ih fun x => ?_]
    rw [lookup_filter_ne]
    by_cases hxb : x = b
    · rw [if_pos hxb, hxb, Function.update_self, Option.getD_none]
    · rw [if_neg hxb, Function.update_of_ne hxb, h]
  | list t ih => rw [subst, renameFree, ih h]

theorem rename_eq_renameFree (t : Ty) (b x : String) :
    t.rename b x = t.renameFree (Function.update id b x) := by
  refine subst_eq_renameFree fun y => ?_
  by_cases hy : y = b
  · simp [hy]
  · rw [List.lookup_cons, beq_false_of_ne hy, Function.update_of_ne hy]
    rfl

/-! ## Putting names in for leading binders -/

theorem bindAll_unbind (t : Ty) : bindAll t.unbind.1 t.unbind.2 = t := by
  induction t with
  | poly b t ih => exact congrArg (poly b) ih
  | const | var | arrow | app | list | missing => rfl

theorem unbind_snd_ne_poly (t : Ty) (b : String) (u : Ty) : t.unbind.2 ≠ poly b u := by
  induction t with
  | poly c t ih => exact ih
  | const | var | arrow | app | list | missing => exact Ty.noConfusion

theorem binders_unbind (t : Ty) : t.unbind.1 ++ t.unbind.2.binders = t.binders := by
  induction t with
  | poly b t ih => exact congrArg (b :: ·) ih
  | const | var | arrow | app | list | missing => rfl

theorem occurrences_unbind (t : Ty) : t.unbind.2.occurrences = t.occurrences := by
  induction t with
  | poly b t ih => exact ih
  | const | var | arrow | app | list | missing => rfl

/-- **The name that stands for a variable** when leading binders have been given names: that
of its innermost binder, or its own name where it has none. -/
def innermost (bs names : List String) (x : String) : String :=
  ((bs.zip names).reverse.lookup x).getD x

variable {bs names : List String} {x : String}

theorem lookup_reverse_zip_eq_none (hx : x ∉ bs) : (bs.zip names).reverse.lookup x = none := by
  rw [List.lookup_eq_none_iff]
  intro p hp
  have hmem : p.1 ∈ bs := (List.of_mem_zip (List.mem_reverse.1 hp)).1
  simpa using fun heq : x = p.1 => hx (heq ▸ hmem)

theorem innermost_of_not_mem (hx : x ∉ bs) : innermost bs names x = x := by
  rw [innermost, lookup_reverse_zip_eq_none hx, Option.getD_none]

/-- A bound variable has a binder, and thus a name. -/
theorem exists_lookup_reverse_zip (hlen : bs.length = names.length) (hx : x ∈ bs) :
    ∃ y ∈ names, (bs.zip names).reverse.lookup x = some y := by
  cases h : (bs.zip names).reverse.lookup x with
  | some y =>
    obtain ⟨l, r, hl, -⟩ := List.lookup_eq_some_iff.1 h
    have hmem : (x, y) ∈ bs.zip names := List.mem_reverse.1 (hl ▸ by simp)
    exact ⟨y, (List.of_mem_zip hmem).2, rfl⟩
  | none =>
    rw [List.lookup_eq_none_iff] at h
    rw [← List.map_fst_zip hlen.le] at hx
    obtain ⟨p, hp, rfl⟩ := List.mem_map.1 hx
    have := h p (List.mem_reverse.2 hp)
    simp at this

theorem innermost_mem (hlen : bs.length = names.length) (hx : x ∈ bs) :
    innermost bs names x ∈ names := by
  obtain ⟨y, hy, hlookup⟩ := exists_lookup_reverse_zip hlen hx
  rwa [innermost, hlookup, Option.getD_some]

theorem innermost_eq_or_mem (hlen : bs.length = names.length) (x : String) :
    innermost bs names x = x ∨ innermost bs names x ∈ names := by
  by_cases hx : x ∈ bs
  · exact .inr (innermost_mem hlen hx)
  · exact .inl (innermost_of_not_mem hx)

/-- Names that the body does not bind are not captured in it. -/
theorem avoids_innermost {body : Ty} (hlen : bs.length = names.length)
    (hnew : ∀ y ∈ body.binders, y ∉ names) : body.Avoids (innermost bs names) :=
  fun x _ => (innermost_eq_or_mem hlen x).imp_right fun hmem hb => hnew _ hb hmem

/-- The variables in an instance are those of the body and the new ones. -/
theorem mem_occurrences_renameFree_innermost {body : Ty} (hlen : bs.length = names.length)
    (hx : x ∈ (body.renameFree (innermost bs names)).occurrences) :
    x ∈ body.occurrences ∨ x ∈ names := by
  rcases mem_occurrences_renameFree hx with hx | ⟨y, hy, rfl⟩
  · exact .inl hx
  · rcases innermost_eq_or_mem hlen y with heq | hmem
    · rw [heq]
      exact .inl (mem_occurrences_of_free hy)
    · exact .inr hmem

theorem innermost_cons (hlen : bs.length = names.length) (b y x : String) :
    innermost (b :: bs) (y :: names) x =
      if x ∈ bs then innermost bs names x else if x = b then y else x := by
  rw [innermost, List.zip_cons_cons, List.reverse_cons, List.lookup_append]
  by_cases hx : x ∈ bs
  · obtain ⟨z, -, hz⟩ := exists_lookup_reverse_zip hlen hx
    rw [if_pos hx, innermost, hz, Option.some_or]
  · rw [if_neg hx, lookup_reverse_zip_eq_none hx, Option.none_or]
    by_cases hxb : x = b
    · rw [if_pos hxb, hxb, List.lookup_cons_self, Option.getD_some]
    · rw [if_neg hxb, List.lookup_cons, beq_false_of_ne hxb, List.lookup_nil, Option.getD_none]

/-- A binder whose name is bound again inside binds nothing. -/
theorem innermost_cons_of_mem {b : String} (hlen : bs.length = names.length) (hb : b ∈ bs)
    (y : String) : innermost (b :: bs) (y :: names) = innermost bs names := by
  funext x
  rw [innermost_cons hlen]
  by_cases hx : x ∈ bs
  · rw [if_pos hx]
  · have hxb : x ≠ b := fun heq => hx (heq ▸ hb)
    rw [if_neg hx, if_neg hxb, innermost_of_not_mem hx]

/-- Giving the outermost binder a name that is not bound inside, and then the others theirs. -/
theorem innermost_cons_of_not_mem {b y : String} (hlen : bs.length = names.length) (hb : b ∉ bs)
    (hy : y ∉ bs) :
    innermost (b :: bs) (y :: names) = innermost bs names ∘ Function.update id b y := by
  funext x
  rw [innermost_cons hlen, Function.comp_apply]
  by_cases hxb : x = b
  · rw [hxb, if_neg hb, if_pos rfl, Function.update_self, innermost_of_not_mem hy]
  · rw [Function.update_of_ne hxb, id]
    by_cases hx : x ∈ bs
    · rw [if_pos hx]
    · rw [if_neg hx, if_neg hxb, innermost_of_not_mem hx]

theorem lookup_map_snd (f : String → String) (l : List (String × String)) :
    (l.map (Prod.map id f)).lookup x = (l.lookup x).map f := by
  induction l with
  | nil => rfl
  | cons p l ih =>
    rw [List.map_cons, Prod.map, id, List.lookup_cons, List.lookup_cons, ih]
    cases x == p.1 <;> rfl

theorem innermost_map {f : String → String} (hx : f x = x) :
    innermost bs (names.map f) x = f (innermost bs names x) := by
  rw [innermost, innermost, List.zip_map_right, ← List.map_reverse, lookup_map_snd]
  cases (bs.zip names).reverse.lookup x with
  | none => exact hx.symm
  | some y => rfl

/-- Different names for the binders make no difference to the canonical form. -/
theorem canonical_renameFree_innermost {names' : List String} {body : Ty}
    (hlen : names.length = names'.length) (hnodup : names.Nodup) (hnodup' : names'.Nodup)
    (hnew : ∀ y ∈ body.binders ++ body.occurrences, y ∉ names ∧ y ∉ names') :
    (body.renameFree (innermost bs names)).canonical =
      (body.renameFree (innermost bs names')).canonical := by
  obtain ⟨π, hfixes, hmap⟩ := exists_perm_extend (Equiv.refl String) hlen hnodup hnodup' hnew
  rw [← canonical_permute π, permute_renameFree, permute_eq_self hfixes, ← hmap]
  refine congrArg canonical (renameFree_congr fun x hx => ?_)
  have hπ : π x = x := hfixes x (List.mem_append_right _ (mem_occurrences_of_free hx))
  rw [Function.comp_apply, Function.comp_apply, π.symm_apply_eq.2 hπ.symm, innermost_map hπ]

end Ty

/-! ## Instantiation -/

namespace Infer

/-- **An instance puts in all names at once.** -/
theorem outcome_instantiate_bindAll (bs : List String) (body : Ty) (st : State)
    (hbody : ∀ b t, body ≠ .poly b t)
    (hnew : ∀ x ∈ (st.supply.freshList bs.length).1, x ∉ bs ∧ x ∉ body.binders) :
    outcome (instantiate (.bindAll bs body)) st =
      (some (body.renameFree (Ty.innermost bs (st.supply.freshList bs.length).1)),
        { st with supply := st.supply.advance bs.length }) := by
  induction bs generalizing body st with
  | nil =>
    have hid : Ty.innermost [] (st.supply.freshList 0).1 = id := rfl
    rw [List.length_nil, hid, Ty.renameFree_id, Supply.advance_zero]
    show outcome (instantiate body) st = _
    rw [instantiate.eq_2 body hbody, outcome_pure]
  | cons b bs ih =>
    let x := st.supply.fresh.1
    let names := (st.supply.fresh.2.freshList bs.length).1
    have hlen : bs.length = names.length := (Supply.length_freshList _ _).symm
    obtain ⟨⟨hxb, hxbody⟩, hnew⟩ := List.forall_mem_cons.1 (show ∀ y ∈ x :: names, _ from hnew)
    have hxbs : x ∉ bs := fun hmem => hxb (List.mem_cons_of_mem _ hmem)
    have hnew' (u : Ty) (hu : u.binders = body.binders) (y : String) (hy : y ∈ names) :
        y ∉ bs ∧ y ∉ u.binders :=
      ⟨fun hmem => (hnew y hy).1 (List.mem_cons_of_mem _ hmem), hu ▸ (hnew y hy).2⟩
    have hadvance : st.supply.fresh.2.advance bs.length = st.supply.advance (bs.length + 1) := by
      rw [Supply.fresh_snd, Supply.advance_advance, Nat.add_comm]
    show outcome (instantiate (.poly b (.bindAll bs body))) st =
      (some (body.renameFree (Ty.innermost (b :: bs) (x :: names))), _)
    rw [instantiate_poly, outcome_bind, outcome_freshName]
    show outcome (instantiate ((Ty.bindAll bs body).rename b x)) _ = _
    rw [Ty.rename_bindAll]
    by_cases hb : b ∈ bs
    · rw [if_pos hb, ih body _ hbody (hnew' body rfl), Ty.innermost_cons_of_mem hlen hb x]
      simp only [hadvance, List.length_cons]
      rfl
    · have hrename := body.rename_eq_renameFree b x
      have havoids : body.Avoids (Function.update id b x) := by
        intro y _
        by_cases hy : y = b
        · exact .inr (by rwa [hy, Function.update_self])
        · exact .inl (Function.update_of_ne hy _ _)
      have hne : ∀ c t, body.rename b x ≠ .poly c t := by
        intro c t heq
        rw [hrename] at heq
        cases body with
        | poly c t => exact hbody c t rfl
        | const | var | arrow | app | list | missing => cases heq
      have hbinders : (body.rename b x).binders = body.binders := by
        rw [hrename, Ty.binders_renameFree]
      rw [if_neg hb, ih _ _ hne (hnew' _ hbinders), hrename, Ty.renameFree_renameFree havoids,
        Ty.innermost_cons_of_not_mem hlen hb hxbs]
      simp only [hadvance, List.length_cons]
      rfl

end Infer

namespace Context

theorem runPlain_of_gives {α : Type} {ctx : Context} {x : Infer α} {a : α} {st : Infer.State}
    (h : Infer.Gives x ⟨ctx.supply, ctx.log⟩ a st) :
    ctx.runPlain x = (.ok a, { ctx with supply := st.supply, log := st.log }) := by
  rw [Infer.Gives, Infer.outcome] at h
  rw [runPlain, run]
  rcases hrun : x.run.run ⟨ctx.supply, ctx.log⟩ with ⟨result, st'⟩
  rw [hrun] at h
  cases result with
  | error c => cases h
  | ok b => cases h; rfl

/-- What an instance is, and the context after it. -/
theorem instantiate_eq {ctx : Context} {t : Ty} {bs names : List String} {body : Ty}
    (ht : t.unbind = (bs, body)) (hnames : (ctx.supply.freshList bs.length).1 = names)
    (hnew : ∀ x ∈ t.binders, x ∉ names) :
    ctx.instantiate t = (.ok (body.renameFree (Ty.innermost bs names)),
      { ctx with supply := ctx.supply.advance bs.length }) := by
  have hbinders := t.binders_unbind
  have hbind := t.bindAll_unbind
  have hbody := t.unbind_snd_ne_poly
  rw [ht] at hbinders hbind hbody
  subst hnames
  refine runPlain_of_gives (hbind ▸ Infer.outcome_instantiate_bindAll bs body _ hbody ?_)
  intro x hx
  rw [← not_or, ← List.mem_append, hbinders]
  exact fun hmem => hnew x hmem hx

/-- **Instances are fresh and nothing is captured in them.**  While the numbers last, the next
number moves on by one for each leading binder; every variable that a leading binder binds is
renamed to the one minted for its innermost binder, and all other variables stay.  A second
instance binds the same names as the first, shares no variables with it but those of the
scheme, and has the same canonical form. -/
theorem instantiate_fresh (ctx : Context) (t : Ty)
    (hpast : ∀ x ∈ t.binders ++ t.occurrences, ctx.supply.Past x)
    (hroom : ctx.supply.Room t.unbind.1.length) :
    let n := t.unbind.1.length
    let names := (ctx.supply.freshList n).1
    let f := Ty.innermost t.unbind.1 names
    names.Nodup ∧ (∀ x ∈ t.binders ++ t.occurrences, x ∉ names) ∧
      ∃ u ctx', ctx.instantiate t = (.ok u, ctx') ∧
        ctx'.supply.next.toInt = ctx.supply.next.toInt + n ∧
        u = t.unbind.2.renameFree f ∧
        u.freeOccurrences = t.unbind.2.freeOccurrences.map f ∧
        (ctx.supply.Room (n + n) →
          ∃ u' ctx'', ctx'.instantiate t = (.ok u', ctx'') ∧
            u.binders = t.unbind.2.binders ∧ u'.binders = t.unbind.2.binders ∧
            (∀ x ∈ u.occurrences, x ∈ u'.occurrences → x ∈ t.occurrences) ∧
            u.canonical = u'.canonical) := by
  intro n names f
  have hlen : t.unbind.1.length = names.length := (Supply.length_freshList n _).symm
  have hnew : ∀ x ∈ t.binders ++ t.occurrences, x ∉ names :=
    fun x hx => (hpast x hx).not_mem_freshList hroom
  have hbinders : ∀ x ∈ t.unbind.2.binders, x ∈ t.binders := fun x hx =>
    t.binders_unbind ▸ List.mem_append_right _ hx
  have hbody : ∀ x ∈ t.unbind.2.binders ++ t.unbind.2.occurrences,
      x ∈ t.binders ++ t.occurrences := fun x hx => by
    rw [t.occurrences_unbind] at hx
    exact (List.mem_append.1 hx).elim (fun h => List.mem_append_left _ (hbinders x h))
      (List.mem_append_right _)
  have havoids : t.unbind.2.Avoids f := Ty.avoids_innermost hlen fun x hx =>
    hnew x (List.mem_append_left _ (hbinders x hx))
  refine ⟨Supply.nodup_freshList hroom, hnew, _, _,
    instantiate_eq rfl rfl fun x hx => hnew x (List.mem_append_left _ hx), hroom.toInt_advance,
    rfl, Ty.freeOccurrences_renameFree havoids, fun htwice => ?_⟩
  -- the second instance takes its names after those of the first
  let names' := ((ctx.supply.advance n).freshList n).1
  have hlen' : t.unbind.1.length = names'.length := (Supply.length_freshList n _).symm
  have hnew' : ∀ x ∈ t.binders ++ t.occurrences, x ∉ names' :=
    fun x hx => ((hpast x hx).advance hroom).not_mem_freshList htwice.advance
  have hdisjoint : ∀ x ∈ names, x ∉ names' := fun x hx =>
    (Supply.past_of_mem_freshList hroom hx).not_mem_freshList htwice.advance
  refine ⟨_, _, instantiate_eq rfl rfl fun x hx => hnew' x (List.mem_append_left _ hx),
    Ty.binders_renameFree _, Ty.binders_renameFree _, fun x hx hx' => ?_,
    Ty.canonical_renameFree_innermost (hlen.symm.trans hlen') (Supply.nodup_freshList hroom)
      (Supply.nodup_freshList htwice.advance)
      fun x hx => ⟨hnew x (hbody x hx), hnew' x (hbody x hx)⟩⟩
  rw [← t.occurrences_unbind]
  rcases Ty.mem_occurrences_renameFree_innermost hlen hx with hx | hx
  · exact hx
  · rcases Ty.mem_occurrences_renameFree_innermost hlen' hx' with hx' | hx'
    · exact hx'
    · exact absurd hx' (hdisjoint x hx)

/-- A name that is bound twice in front and once more inside, beside a number that is bound in
front. -/
theorem instantiate_fresh_shadowed :
    let ctx : Context := { supply := { next := 7 } }
    let t : Ty := .poly "a" (.poly "3" (.poly "a"
      (.arrow (.var "a") (.arrow (.var "3") (.poly "a" (.arrow (.var "a") (.var "c")))))))
    let names := ["7", "8", "9"]
    (ctx.supply.freshList 3).1 = names ∧
      ∃ u ctx', ctx.instantiate t = (.ok u, ctx') ∧
        u = .arrow (.var "9") (.arrow (.var "8") (.poly "a" (.arrow (.var "a") (.var "c")))) ∧
        ∃ u' ctx'', ctx'.instantiate t = (.ok u', ctx'') ∧ u.canonical = u'.canonical := by
  intro ctx t names
  have hnames : (ctx.supply.freshList 3).1 = names := by cbv
  have hpast : ∀ x ∈ t.binders ++ t.occurrences, ctx.supply.Past x := by decide +kernel
  obtain ⟨-, -, u, ctx', hu, -, heq, -, htwice⟩ := instantiate_fresh ctx t hpast (by decide)
  obtain ⟨u', ctx'', hu', -, -, -, hcanonical⟩ := htwice (by decide)
  exact ⟨hnames, u, ctx', hu, heq.trans (by cbv), u', ctx'', hu', hcanonical⟩

/-- **After the largest number comes the smallest.**  It is the name of a variable that is
bound in front, so that the one minted second is taken for it and is renamed once more. -/
theorem instantiate_wraps :
    let ctx : Context := { supply := { next := Int64.maxValue } }
    let t : Ty := .bindAll ["a", "b", "-9223372036854775808"]
      (.arrow (.var "a") (.arrow (.var "b") (.var "-9223372036854775808")))
    (∀ x ∈ t.binders ++ t.occurrences, ctx.supply.Past x) ∧
      (ctx.instantiate t).1 = .ok (.arrow (.var "9223372036854775807")
        (.arrow (.var "-9223372036854775807") (.var "-9223372036854775807"))) ∧
      t.unbind.2.renameFree (Ty.innermost t.unbind.1 (ctx.supply.freshList 3).1) =
        .arrow (.var "9223372036854775807")
          (.arrow (.var "-9223372036854775808") (.var "-9223372036854775807")) := by
  refine ⟨by decide +kernel, ?_, by cbv⟩
  cbv
  simp only [Infer.instantiate]
  cbv

end Context

end LetPoly
