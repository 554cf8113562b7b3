import LetPoly.Proofs.Unification
import LetPoly.Ty.Printer

/-! # Permuting the names of variables

A permutation of names renames every variable of a type, those that it binds
included.  All that is done with types commutes with it: free variables are found
in the same places (`Ty.freeVars_permute`), replacing and resolving go the same way
(`Ty.subst_permute`, `Solution.resolve_permute`), and unification takes the same
steps (`unify_renamed`).  The text in which a type is shown is the same for all
permutations (`Ty.display_permute`), since canonical names depend on the order in
which variables appear and on nothing else.
-/

namespace LetPoly

theorem eraseDups_map_perm (π : Equiv.Perm String) (xs : List String) :
    (xs.map π).eraseDups = xs.eraseDups.map π := by
  match xs with
  | [] => rfl
  | x :: xs =>
    have hfilter : (xs.map π).filter (fun y => !y == π x) =
        (xs.filter fun y => !y == x).map π := by
      rw [List.filter_map]
      congr 2
      funext y
      simp [Bool.beq_eq_decide_eq]
    rw [List.map_cons, List.eraseDups_cons, List.eraseDups_cons, hfilter,
      eraseDups_map_perm π (xs.filter fun y => !y == x), List.map_cons]
termination_by xs.length
decreasing_by
  have := List.length_filter_le (fun y => !y == x) xs
  simp only [List.length_cons]
  omega

namespace Ty

/-- **Renames every variable**, bound or not, where it is used and where it is bound. -/
def permute (π : Equiv.Perm String) : Ty → Ty
  | .const c => .const c
  | .missing => .missing
  | .var x => .var (π x)
  | .arrow a r => .arrow (a.permute π) (r.permute π)
  | .app f a => .app (f.permute π) (a.permute π)
  | .poly b t => .poly (π b) (t.permute π)
  | .list t => .list (t.permute π)

@[simp] theorem permute_const (π : Equiv.Perm String) (c : String) :
    (const c).permute π = const c := rfl

@[simp] theorem permute_var (π : Equiv.Perm String) (x : String) :
    (var x).permute π = var (π x) := rfl

@[simp] theorem permute_arrow (π : Equiv.Perm String) (a r : Ty) :
    (arrow a r).permute π = arrow (a.permute π) (r.permute π) := rfl

@[simp] theorem permute_list (π : Equiv.Perm String) (t : Ty) :
    (list t).permute π = list (t.permute π) := rfl

theorem permute_symm_permute (π : Equiv.Perm String) (t : Ty) :
    (t.permute π).permute π.symm = t := by
  induction t <;> simp_all [permute]

theorem permute_injective (π : Equiv.Perm String) : Function.Injective (permute π) :=
  Function.LeftInverse.injective (permute_symm_permute π)

theorem eq_permute_symm {π : Equiv.Perm String} {t u : Ty} (h : t.permute π = u) :
    t = u.permute π.symm := by
  rw [← h, permute_symm_permute]

/-- Only the names of a type count. -/
theorem permute_congr {π ρ : Equiv.Perm String} {t : Ty}
    (h : ∀ x ∈ t.binders ++ t.occurrences, π x = ρ x) : t.permute π = t.permute ρ := by
  induction t with
  | const | missing => rfl
  | var x => rw [permute, permute, h x (by simp [occurrences])]
  | arrow a r iha ihr =>
    simp only [binders, occurrences, List.mem_append] at h iha ihr
    rw [permute, permute, iha fun x hx => h x (hx.imp .inl .inl),
      ihr fun x hx => h x (hx.imp .inr .inr)]
  | app f a ihf iha =>
    simp only [binders, occurrences, List.mem_append] at h ihf iha
    rw [permute, permute, ihf fun x hx => h x (hx.imp .inl .inl),
      iha fun x hx => h x (hx.imp .inr .inr)]
  | poly b t ih =>
    rw [permute, permute, h b (by simp [binders]),
      ih fun x hx => h x (List.mem_cons_of_mem _ hx)]
  | list t ih => rw [permute, permute, ih h]

theorem permute_eq_self {π : Equiv.Perm String} {t : Ty}
    (h : ∀ x ∈ t.binders ++ t.occurrences, π x = x) : t.permute π = t := by
  have hrefl (t : Ty) : t.permute (Equiv.refl String) = t := by
    induction t <;> simp_all [permute]
  exact (permute_congr h).trans (hrefl t)

/-- Where nothing is bound, renaming is an assignment. -/
theorem permute_eq_apply {t : Ty} (ht : t.binders = []) (π : Equiv.Perm String) :
    t.permute π = t.apply fun x => .var (π x) := by
  induction t with
  | const | var | missing => rfl
  | arrow a r iha ihr =>
    obtain ⟨ha, hr⟩ := List.append_eq_nil_iff.1 ht
    rw [permute, Ty.apply, iha ha, ihr hr]
  | app f a ihf iha =>
    obtain ⟨hf, ha⟩ := List.append_eq_nil_iff.1 ht
    rw [permute, Ty.apply, ihf hf, iha ha]
  | list t ih => rw [permute, Ty.apply, ih ht]
  | poly => cases ht

theorem Mono.permute_eq_apply {t : Ty} (ht : t.Mono) (π : Equiv.Perm String) :
    t.permute π = t.apply fun x => .var (π x) :=
  Ty.permute_eq_apply ht.binders_eq_nil π

/-! ## Variables -/

theorem freeOccurrences_permute (π : Equiv.Perm String) (t : Ty) :
    (t.permute π).freeOccurrences = t.freeOccurrences.map π := by
  induction t with
  | const | missing | var => rfl
  | arrow a r iha ihr => simp only [permute, freeOccurrences, iha, ihr, List.map_append]
  | app f a ihf iha => simp only [permute, freeOccurrences, ihf, iha, List.map_append]
  | poly b t ih =>
    rw [permute, freeOccurrences, freeOccurrences, ih, List.filter_map]
    congr 2
    funext y
    simp [bne, Bool.beq_eq_decide_eq]
  | list t ih => exact ih

theorem freeVars_permute (π : Equiv.Perm String) (t : Ty) :
    (t.permute π).freeVars = t.freeVars.map π := by
  rw [freeVars, freeOccurrences_permute, eraseDups_map_perm, freeVars]

theorem occurs_permute (π : Equiv.Perm String) (x : String) (t : Ty) :
    (t.permute π).occurs (π x) = t.occurs x := by
  rw [Bool.eq_iff_iff, occurs_iff, occurs_iff, freeOccurrences_permute,
    List.mem_map_of_injective π.injective]

end Ty

/-! ## Substitution and resolution -/

/-- Renames the variables of pairs and of their types. -/
def Solution.permute (π : Equiv.Perm String) (s : Solution) : Solution :=
  s.map fun p => (π p.1, p.2.permute π)

theorem Solution.lookup_permute (π : Equiv.Perm String) (s : Solution) (x : String) :
    List.lookup (π x) (s.permute π) = (List.lookup x s).map (Ty.permute π) := by
  induction s with
  | nil => rfl
  | cons p s ih =>
    have hb : (π x == π p.1) = (x == p.1) := by simp [Bool.beq_eq_decide_eq]
    show List.lookup (π x) ((π p.1, p.2.permute π) :: Solution.permute π s) = _
    rw [List.lookup_cons, List.lookup_cons, hb, ih]
    cases x == p.1 <;> rfl

theorem Solution.filter_permute (π : Equiv.Perm String) (s : Solution) (x : String) :
    List.filter (·.1 != π x) (s.permute π) = Solution.permute π (s.filter (·.1 != x)) := by
  rw [permute, permute, List.filter_map]
  congr 2
  funext p
  simp [bne, Bool.beq_eq_decide_eq]

/-- Giving variables new names, renamed. -/
theorem Solution.permute_zip_var (π : Equiv.Perm String) (xs ys : List String) :
    Solution.permute π (xs.zip (ys.map .var)) = (xs.map π).zip ((ys.map π).map .var) := by
  have hvars : (ys.map π).map Ty.var = (ys.map Ty.var).map (Ty.permute π) := by simp
  rw [hvars, List.zip_map]
  rfl

theorem Ty.subst_permute (π : Equiv.Perm String) (s : Solution) (t : Ty) :
    (t.permute π).subst (s.permute π) = (t.subst s).permute π := by
  induction t generalizing s with
  | const | missing => rfl
  | var x =>
    simp only [permute, subst, Solution.lookup_permute]
    cases List.lookup x s <;> rfl
  | arrow a r iha ihr => simp only [permute, subst, iha, ihr]
  | app f a ihf iha => simp only [permute, subst, ihf, iha]
  | poly b t ih => simp only [permute, subst, Solution.filter_permute, ih]
  | list t ih => simp only [permute, subst, ih]

theorem Solution.resolve_permute (π : Equiv.Perm String) (s : Solution) (t : Ty) :
    (s.permute π).resolve (t.permute π) = (s.resolve t).permute π := by
  fun_induction resolve s t with
  | case1 | case2 => simp only [Ty.permute, resolve]
  | case3 s x h => exact resolve_var_of_none (by rw [lookup_permute, h, Option.map_none])
  | case4 s x t h ih =>
    rw [Ty.permute, resolve_var_of_some (by rw [lookup_permute, h, Option.map_some]), without,
      filter_permute]
    exact ih
  | case5 s a r iha ihr => rw [Ty.permute, resolve, iha, ihr, Ty.permute]
  | case6 s f a ihf iha => rw [Ty.permute, resolve, ihf, iha, Ty.permute]
  | case7 s b t ih => rw [Ty.permute, resolve, ih, Ty.permute]
  | case8 s t ih => rw [Ty.permute, resolve, ih, Ty.permute]

/-! ## Unification -/

namespace Equation

/-- Renames the variables of both sides. -/
def permute (π : Equiv.Perm String) (e : Equation) : Equation :=
  ⟨e.left.permute π, e.right.permute π⟩

theorem replaceAll_permute (π : Equiv.Perm String) (es : List Equation) (x : String) (u : Ty) :
    replaceAll (es.map (permute π)) (π x) (u.permute π) = (replaceAll es x u).map (permute π) := by
  have hreplace (t : Ty) : (t.permute π).replace (π x) (u.permute π) = (t.replace x u).permute π :=
    Ty.subst_permute π [(x, u)] t
  simp only [replaceAll, List.map_map]
  refine List.map_congr_left fun e _ => ?_
  simp only [Function.comp_apply, replace, permute, hreplace]

end Equation

theorem unify_same (t : Ty) (rest : List Equation) : unify (⟨t, t⟩ :: rest) = unify rest := by
  cases t <;> simp [unify]

/-- Renames the variables of the types that an error is about. -/
def TypeError.permute (π : Equiv.Perm String) : TypeError → TypeError
  | .unbound name => .unbound name
  | .mismatch l r => .mismatch (l.permute π) (r.permute π)
  | .infinite x t => .infinite (π x) (t.permute π)
  | .disallowed form => .disallowed form
  | .unknownOperator op => .unknownOperator op
  | .emptyExpression => .emptyExpression
  | .emptyPattern => .emptyPattern
  | .emptyDefinition => .emptyDefinition

theorem TypeError.permute_symm_permute (π : Equiv.Perm String) (err : TypeError) :
    (err.permute π).permute π.symm = err := by
  cases err <;> simp [permute, Ty.permute_symm_permute]

/-- **Renamed equations have the renamed solution**, or fail at the renamed types. -/
theorem unify_renamed (π : Equiv.Perm String) (es : List Equation) :
    unify (es.map (Equation.permute π)) =
      ((unify es).map (Solution.permute π)).mapError (TypeError.permute π) := by
  have hsame {l r : Ty} (h : ¬l = r) : ¬l.permute π = r.permute π :=
    fun heq => h (Ty.permute_injective π heq)
  have hrecord (x : String) (u : Ty) (rest : List Equation)
      (ih : unify ((Equation.replaceAll rest x u).map (Equation.permute π)) =
        ((unify (Equation.replaceAll rest x u)).map (Solution.permute π)).mapError
          (TypeError.permute π)) :
      (unify (Equation.replaceAll (rest.map (Equation.permute π)) (π x) (u.permute π))).map
          ((π x, u.permute π) :: ·) =
        (((unify (Equation.replaceAll rest x u)).map ((x, u) :: ·)).map
          (Solution.permute π)).mapError (TypeError.permute π) := by
    rw [Equation.replaceAll_permute, ih]
    cases unify (Equation.replaceAll rest x u) <;> rfl
  fun_induction unify es with
  | case1 => rw [List.map_nil, unify]; rfl
  | case2 t rest ih => rw [List.map_cons, Equation.permute, unify_same, ih]
  | case3 rest x u hx hne =>
    have hne : ¬Ty.var (π x) = u.permute π := hsame hne
    show unify (⟨.var (π x), u.permute π⟩ :: rest.map (Equation.permute π)) = _
    rw [unify, if_neg hne, dif_pos (by rwa [Ty.occurs_permute])]
    rfl
  | case4 rest x u hx hne ih =>
    have hne : ¬Ty.var (π x) = u.permute π := hsame hne
    show unify (⟨.var (π x), u.permute π⟩ :: rest.map (Equation.permute π)) = _
    rw [unify, if_neg hne, dif_neg (by rwa [Ty.occurs_permute])]
    exact hrecord x u rest ih
  | case5 rest u x hu hx hne =>
    have hne : ¬u.permute π = .var (π x) := hsame hne
    show unify (⟨u.permute π, .var (π x)⟩ :: rest.map (Equation.permute π)) = _
    rw [unify, if_neg hne, dif_pos (by rwa [Ty.occurs_permute])]
    · rfl
    · exact fun y hy => hu _ (Ty.eq_permute_symm hy)
  | case6 rest u x hu hx hne ih =>
    have hne : ¬u.permute π = .var (π x) := hsame hne
    show unify (⟨u.permute π, .var (π x)⟩ :: rest.map (Equation.permute π)) = _
    rw [unify, if_neg hne, dif_neg (by rwa [Ty.occurs_permute])]
    · exact hrecord x u rest ih
    · exact fun y hy => hu _ (Ty.eq_permute_symm hy)
  | case7 rest a b c d hne ih =>
    have hne : ¬Ty.arrow (a.permute π) (b.permute π) = .arrow (c.permute π) (d.permute π) :=
      hsame hne
    rw [List.map_cons, Equation.permute, Ty.permute, Ty.permute, unify, if_neg hne]
    exact ih
  | case8 rest f a g b hne ih =>
    have hne : ¬Ty.app (f.permute π) (a.permute π) = .app (g.permute π) (b.permute π) :=
      hsame hne
    rw [List.map_cons, Equation.permute, Ty.permute, Ty.permute, unify, if_neg hne]
    exact ih
  | case9 rest a b hne ih =>
    have hne : ¬Ty.list (a.permute π) = .list (b.permute π) := hsame hne
    rw [List.map_cons, Equation.permute, Ty.permute, Ty.permute, unify, if_neg hne]
    exact ih
  | case10 rest l r hl hr harrow happ hlist hne =>
    rw [List.map_cons, Equation.permute, unify, if_neg (hsame hne)]
    · rfl
    · exact fun x h => hl _ (Ty.eq_permute_symm h)
    · exact fun x h => hr _ (Ty.eq_permute_symm h)
    · exact fun a b c d h h' => harrow _ _ _ _ (Ty.eq_permute_symm h) (Ty.eq_permute_symm h')
    · exact fun f a g b h h' => happ _ _ _ _ (Ty.eq_permute_symm h) (Ty.eq_permute_symm h')
    · exact fun a b h h' => hlist _ _ (Ty.eq_permute_symm h) (Ty.eq_permute_symm h')

theorem unify_permute (π : Equiv.Perm String) (es : List Equation) :
    (unify (es.map (Equation.permute π))).toOption =
      (unify es).toOption.map (Solution.permute π) := by
  rw [unify_renamed]
  cases unify es <;> rfl

/-! ## Canonical names and texts -/

namespace Ty

theorem bindAll_permute (π : Equiv.Perm String) (names : List String) (t : Ty) :
    (bindAll names t).permute π = bindAll (names.map π) (t.permute π) := by
  induction names with
  | nil => rfl
  | cons x xs ih => exact congrArg (poly (π x)) ih

theorem quantify_permute (π : Equiv.Perm String) (t : Ty) :
    (t.permute π).quantify = t.quantify.permute π := by
  rw [quantify, freeVars_permute, ← bindAll_permute, quantify]

theorem unbind_of_ne {t : Ty} (h : ∀ b s, t ≠ .poly b s) : t.unbind = ([], t) := by
  cases t with
  | poly b t => exact absurd rfl (h b t)
  | const | var | arrow | app | list | missing => rfl

theorem unbind_bindAll (xs : List String) {t : Ty} (h : ∀ b s, t ≠ .poly b s) :
    (bindAll xs t).unbind = (xs, t) := by
  induction xs with
  | nil => exact unbind_of_ne h
  | cons x xs ih =>
    show (poly x (bindAll xs t)).unbind = _
    rw [unbind, ih]

theorem unbind_permute (π : Equiv.Perm String) (t : Ty) :
    (t.permute π).unbind = (t.unbind.1.map π, t.unbind.2.permute π) := by
  induction t with
  | poly b t ih => rw [permute, unbind, ih, unbind, List.map_cons]
  | _ => rfl

theorem Seen.meet_map (π : Equiv.Perm String) (seen : Seen) (x : String) :
    Seen.meet (seen.map π) (π x) = (seen.meet x).map π := by
  unfold Seen.meet
  by_cases hx : x ∈ seen
  · rw [if_pos (List.mem_map_of_mem hx), if_pos hx]
  · have hπx : π x ∉ seen.map π := by rwa [List.mem_map_of_injective π.injective]
    rw [if_neg hπx, if_neg hx, List.map_append, List.map_singleton]

theorem Seen.number_map (π : Equiv.Perm String) (seen : Seen) (x : String) :
    Seen.number (seen.map π) (π x) = seen.number x := by
  have hidx : (seen.map π).idxOf (π x) = seen.idxOf x := by
    induction seen with
    | nil => rfl
    | cons y ys ih =>
      rw [List.map_cons, List.idxOf_cons, List.idxOf_cons, ih]
      simp [Bool.beq_eq_decide_eq]
  rw [Seen.number, hidx, Seen.number]

/-- Numbers are given in the order in which names are met, whatever the names. -/
theorem relabel_permute (π : Equiv.Perm String) (t : Ty) (seen : Seen) :
    (t.permute π).relabel (seen.map π) = ((t.relabel seen).1, (t.relabel seen).2.map π) := by
  induction t generalizing seen with
  | const | missing => rfl
  | var x => simp only [permute, relabel, Seen.meet_map, Seen.number_map]
  | arrow a r iha ihr => simp only [permute, relabel, iha, ihr]
  | app f a ihf iha => simp only [permute, relabel, ihf, iha]
  | poly b t ih => simp only [permute, relabel, Seen.meet_map, Seen.number_map, ih]
  | list t ih => simp only [permute, relabel, ih]

theorem canonical_permute (π : Equiv.Perm String) (t : Ty) :
    (t.permute π).canonical = t.canonical := by
  have hbound (bound : List String) (seen : Seen) :
      (bound.map π).foldl Seen.meet (seen.map π) = (bound.foldl Seen.meet seen).map π := by
    induction bound generalizing seen with
    | nil => rfl
    | cons x xs ih => rw [List.map_cons, List.foldl_cons, List.foldl_cons, Seen.meet_map, ih]
  have hrelabel := relabel_permute π t.unbind.2 []
  rw [List.map_nil] at hrelabel
  simp only [canonical, unbind_permute, hrelabel, hbound]
  congr 1
  generalize t.unbind.1.foldl Seen.meet (t.unbind.2.relabel []).2 = seen
  rw [List.filter_map, List.map_map]
  simp only [Function.comp_def, List.mem_map_of_injective π.injective, Seen.number_map]

/-- **A type is shown in the same way whatever its variables are called.** -/
theorem display_permute (π : Equiv.Perm String) (t : Ty) :
    (t.permute π).display = t.display := by
  rw [display, quantify_permute, canonical_permute, display]

end Ty

end LetPoly
