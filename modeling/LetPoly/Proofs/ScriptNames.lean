import LetPoly.Proofs.Lexing
import LetPoly.Proofs.Runs
import LetPoly.Script.Names

/-! # The names that a script binds

A script name holds its source name before the first dollar sign, if it has one
(`Script.source`), and source names have no dollar sign.  So the names of different source
names differ, and those of one source name differ by their numbers.  Temporaries start with
the dollar sign.

`Names.HandsOut` says of a list of names that they were handed out between two states of the
supply.  What is handed out later is numbered higher, so the lists of consecutive stages have
no name in common (`HandsOut.append`).
-/

namespace LetPoly.Script

/-- **The source name of a script name**: what stands before the dollar sign. -/
def source (x : String) : String := String.ofList (x.toList.takeWhile (· != '$'))

/-- A name without decoration, as all names of a source are: it is not empty and has no dollar
sign. -/
def Bare (x : String) : Prop := x ≠ "" ∧ '$' ∉ x.toList

theorem bare_of_named {x : String} (h : Token.Named x) : Bare x := by
  have hword := h.1
  cases hx : x.toList with
  | nil =>
    rw [hx] at hword
    cases hword
  | cons c cs =>
    rw [hx, Token.isWord, Bool.and_eq_true, List.all_eq_true] at hword
    obtain ⟨hc, hcs⟩ := hword
    refine ⟨by rintro rfl; simp at hx, fun hmem => ?_⟩
    rw [hx] at hmem
    rcases List.mem_cons.1 hmem with rfl | hmem
    · exact absurd hc (by decide)
    · exact absurd (hcs _ hmem) (by decide)

theorem source_append {x : String} (hx : Bare x) {y : String}
    (hy : y.toList = [] ∨ y.toList.head? = some '$') : source (x ++ y) = x := by
  have hall : ∀ c ∈ x.toList, (c != '$') = true := by
    intro c hc
    have : c ≠ '$' := by
      rintro rfl
      exact hx.2 hc
    simpa using this
  have hrest : y.toList.takeWhile (· != '$') = [] := by
    rcases hy with hy | hy
    · simp [hy]
    · obtain ⟨cs, hcs⟩ := List.head?_eq_some_iff.1 hy
      simp [hcs]
  rw [source, String.toList_append, List.takeWhile_append_of_pos hall, hrest, List.append_nil,
    String.ofList_toList]

/-- Every binding of a source name is known by it. -/
theorem source_numbered {x : String} (hx : Bare x) (n : Nat) : source (Names.numbered x n) = x := by
  rw [Names.numbered, mangle]
  split <;> split
  · exact source_append hx (.inr rfl)
  · simpa using source_append hx (y := "") (.inl rfl)
  · rw [String.append_assoc, String.append_assoc]
    exact source_append hx (.inr (by simp))
  · rw [String.append_assoc]
    exact source_append hx (.inr (by simp))

theorem source_temp (n : Nat) : source ("$" ++ Text.Decimal.natural n) = "" := by
  simp [source]

theorem numbered_injective {x : String} {m n : Nat}
    (h : Names.numbered x m = Names.numbered x n) : m = n := by
  rw [Names.numbered, Names.numbered] at h
  by_cases hm : m = 0 <;> by_cases hn : n = 0
  · rw [hm, hn]
  · rw [if_pos hm, if_neg hn] at h
    have := congrArg (·.toList.length) h
    simp at this
  · rw [if_neg hm, if_pos hn] at h
    have := congrArg (·.toList.length) h
    simp at this
  · rw [if_neg hm, if_neg hn] at h
    exact natural_injective (by simpa using h)

namespace Names

/-- A name that is given to a binding or to a temporary between two states. -/
inductive Given (ns ns' : Names) : String → Prop
  | binding {x : String} {n : Nat} (hx : Bare x) (hfrom : ns.count x ≤ n)
    (hto : n < ns'.count x) : Given ns ns' (numbered x n)
  | temp {n : Nat} (hfrom : ns.temps ≤ n) (hto : n < ns'.temps) :
    Given ns ns' ("$" ++ Text.Decimal.natural n)

/-- **The names handed out between two states**, each of them once. -/
structure HandsOut (ns ns' : Names) (xs : List String) : Prop where
  counts : ∀ x, ns.count x ≤ ns'.count x
  temps : ns.temps ≤ ns'.temps
  given : ∀ x ∈ xs, Given ns ns' x
  nodup : xs.Nodup

variable {ns ns₁ ns₂ : Names} {x : String} {xs ys : List String}

theorem Given.widen {ms ms' : Names} (h : Given ns ns₁ x) (hcounts : ∀ y, ms.count y ≤ ns.count y)
    (htemps : ms.temps ≤ ns.temps) (hcounts' : ∀ y, ns₁.count y ≤ ms'.count y)
    (htemps' : ns₁.temps ≤ ms'.temps) : Given ms ms' x := by
  cases h with
  | @binding y n hy hfrom hto =>
    exact .binding hy ((hcounts y).trans hfrom) (hto.trans_le (hcounts' y))
  | temp hfrom hto => exact .temp (htemps.trans hfrom) (hto.trans_le htemps')

/-- No name is given in two stages. -/
theorem Given.disjoint (h : Given ns ns₁ x) : ¬Given ns₁ ns₂ x := by
  intro h'
  cases h with
  | @binding y n hy hfrom hto =>
    generalize heq : numbered y n = x at h'
    cases h' with
    | @binding z m hz hfrom' hto' =>
      have hsource := congrArg source heq
      rw [source_numbered hy, source_numbered hz] at hsource
      subst hsource
      have := numbered_injective heq
      omega
    | temp =>
      have hsource := congrArg source heq
      rw [source_numbered hy, source_temp] at hsource
      exact hy.1 hsource
  | @temp n hfrom hto =>
    generalize heq : "$" ++ Text.Decimal.natural n = x at h'
    cases h' with
    | @binding z m hz hfrom' hto' =>
      have hsource := congrArg source heq
      rw [source_numbered hz, source_temp] at hsource
      exact hz.1 hsource.symm
    | @temp m hfrom' hto' =>
      have := natural_injective (by simpa using heq)
      omega

theorem Given.ne_show (h : Given ns ns₁ x) : x ≠ "$show" := by
  cases h with
  | @binding y n hy hfrom hto =>
    intro heq
    have hsource := congrArg source heq
    rw [source_numbered hy] at hsource
    exact hy.1 (hsource.trans (by decide))
  | @temp n hfrom hto =>
    intro heq
    have hchars := congrArg String.toList heq
    simp only [String.toList_append, Text.Decimal.natural, String.toList_ofList,
      String.reduceToList, List.singleton_append, List.cons.injEq, true_and] at hchars
    have hmem : 's' ∈ Nat.toDigits 10 n := by simp [hchars]
    exact absurd (Nat.isDigit_of_mem_toDigits (by decide) (by decide) hmem) (by decide)

theorem HandsOut.nil : HandsOut ns ns [] := ⟨fun _ => Nat.le_refl _, Nat.le_refl _, by simp, .nil⟩

/-- **What is handed out in two stages, one after the other, has no name twice.** -/
theorem HandsOut.append (h : HandsOut ns ns₁ xs) (h' : HandsOut ns₁ ns₂ ys) :
    HandsOut ns ns₂ (xs ++ ys) where
  counts x := (h.counts x).trans (h'.counts x)
  temps := h.temps.trans h'.temps
  given x hx := by
    rcases List.mem_append.1 hx with hx | hx
    · exact (h.given x hx).widen (fun _ => Nat.le_refl _) (Nat.le_refl _) h'.counts h'.temps
    · exact (h'.given x hx).widen h.counts h.temps (fun _ => Nat.le_refl _) (Nat.le_refl _)
  nodup := List.nodup_append.2 ⟨h.nodup, h'.nodup, fun x hx y hy hxy =>
    (h.given x hx).disjoint (hxy ▸ h'.given y hy)⟩

theorem HandsOut.perm (h : HandsOut ns ns₁ xs) (hxs : xs.Perm ys) : HandsOut ns ns₁ ys :=
  ⟨h.counts, h.temps, fun x hx => h.given x (hxs.mem_iff.2 hx), hxs.nodup_iff.1 h.nodup⟩

theorem count_fresh (ns : Names) (x y : String) :
    (ns.fresh x).2.count y = if y = x then ns.count x + 1 else ns.count y := by
  by_cases hy : y = x
  · simp [fresh, count, hy]
  · have hb : (y == x) = false := by simpa using hy
    simp [fresh, count, List.lookup_cons, hy, hb]

theorem handsOut_fresh (hx : Bare x) (ns : Names) :
    HandsOut ns (ns.fresh x).2 [(ns.fresh x).1] := by
  refine ⟨fun y => ?_, Nat.le_refl _, ?_, List.nodup_singleton _⟩
  · rw [count_fresh]
    split
    · next hy => rw [hy]; omega
    · exact Nat.le_refl _
  · rintro y hy
    rw [List.mem_singleton.1 hy]
    exact .binding hx (Nat.le_refl _) (by rw [count_fresh, if_pos rfl]; omega)

theorem handsOut_temp (ns : Names) : HandsOut ns ns.temp.2 [ns.temp.1] := by
  refine ⟨fun _ => Nat.le_refl _, Nat.le_succ _, ?_, List.nodup_singleton _⟩
  rintro y hy
  rw [List.mem_singleton.1 hy]
  exact .temp (Nat.le_refl _) (Nat.lt_succ_self _)

end Names

end LetPoly.Script
