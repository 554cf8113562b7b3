import LetPoly.Ty.Solution
import LetPoly.TypeError

/-! # Unification

Equations are taken in order.  Equal sides are dropped; a variable is solved by
the other side, and the solution replaces it in all equations that are left;
functions, applications and lists are taken apart.  Everything else has no
solution: two different forms, or a variable that occurs in what it has to equal.

Solving a variable removes it from the equations that are left, and every other
step makes them smaller without adding a variable.  So the number of distinct
free variables, and then the size, bound the process.
-/

namespace LetPoly

namespace Ty

/-- The number of nodes of a type. -/
def size : Ty → Nat
  | .const _ | .missing | .var _ => 1
  | .arrow a r => a.size + r.size + 1
  | .app f a => f.size + a.size + 1
  | .poly _ t => t.size + 1
  | .list t => t.size + 1

theorem size_pos (t : Ty) : 0 < t.size := by cases t <;> simp [size]

theorem occurs_iff {x : String} {t : Ty} : t.occurs x = true ↔ x ∈ t.freeOccurrences := by
  induction t with
  | const | missing => simp [occurs, freeOccurrences]
  | var y => simp [occurs, freeOccurrences]
  | arrow a r iha ihr => simp [occurs, freeOccurrences, iha, ihr]
  | app f a ihf iha => simp [occurs, freeOccurrences, ihf, iha]
  | poly b t ih =>
    simp only [occurs, freeOccurrences, Bool.and_eq_true, bne_iff_ne, List.mem_filter, ih]
    constructor
    · exact fun h => ⟨h.2, fun hx => h.1 hx.symm⟩
    · exact fun h => ⟨fun hx => h.2 hx.symm, h.1⟩
  | list t ih => simp [occurs, freeOccurrences, ih]

@[simp] theorem subst_nil (t : Ty) : t.subst [] = t := by
  induction t <;> simp_all [subst]

/-- What is free after a replacement was free before and is another variable, or
is free in what was put in. -/
theorem mem_freeOccurrences_replace {t u : Ty} {x y : String}
    (h : y ∈ (t.replace x u).freeOccurrences) :
    y ∈ t.freeOccurrences ∧ y ≠ x ∨ y ∈ u.freeOccurrences := by
  induction t with
  | const | missing => simp [replace, subst, freeOccurrences] at h
  | var z =>
    simp only [replace, subst, List.lookup_cons, List.lookup_nil] at h
    by_cases hz : z = x
    · subst hz
      simp only [beq_self_eq_true, Option.getD_some] at h
      exact .inr h
    · have hb : (z == x) = false := by simpa using hz
      simp only [hb, Option.getD_none, freeOccurrences, List.mem_singleton] at h
      subst h
      exact .inl ⟨by simp [freeOccurrences], hz⟩
  | arrow a r iha ihr =>
    simp only [replace, subst, freeOccurrences, List.mem_append] at h ⊢
    rcases h with h | h
    · rcases iha h with h | h <;> simp_all
    · rcases ihr h with h | h <;> simp_all
  | app f a ihf iha =>
    simp only [replace, subst, freeOccurrences, List.mem_append] at h ⊢
    rcases h with h | h
    · rcases ihf h with h | h <;> simp_all
    · rcases iha h with h | h <;> simp_all
  | poly b t ih =>
    simp only [replace, subst, freeOccurrences, List.mem_filter, bne_iff_ne] at h ⊢
    by_cases hb : x = b
    · subst hb
      simp at h
      simp_all
    · have hf : [(x, u)].filter (·.1 != b) = [(x, u)] := by simp [hb]
      rw [hf] at h
      rcases ih h.1 with h' | h'
      · exact .inl ⟨⟨h'.1, h.2⟩, h'.2⟩
      · exact .inr h'
  | list t ih => exact ih (by simpa [replace, subst, freeOccurrences] using h)

end Ty

namespace Equation

/-- The free variables of both sides, with repetitions. -/
def vars (e : Equation) : List String := e.left.freeOccurrences ++ e.right.freeOccurrences

/-- The number of nodes of both sides. -/
def size (e : Equation) : Nat := e.left.size + e.right.size

/-- Replaces a free variable on both sides. -/
def replace (e : Equation) (x : String) (u : Ty) : Equation :=
  ⟨e.left.replace x u, e.right.replace x u⟩

/-- Replaces a free variable in some equations. -/
def replaceAll (es : List Equation) (x : String) (u : Ty) : List Equation :=
  es.map (·.replace x u)

/-- The number of distinct free variables of some equations. -/
def distinctVars (es : List Equation) : Nat := (es.flatMap vars).eraseDups.length

/-- The number of nodes of some equations. -/
def totalSize : List Equation → Nat
  | [] => 0
  | e :: es => e.size + totalSize es

end Equation

theorem nodup_eraseDups (xs : List String) : xs.eraseDups.Nodup := by
  match xs with
  | [] => simp
  | x :: xs =>
    rw [List.eraseDups_cons, List.nodup_cons]
    refine ⟨by simp, nodup_eraseDups _⟩
termination_by xs.length
decreasing_by
  have := List.length_filter_le (fun b => !b == x) xs
  simp only [List.length_cons]
  omega

theorem length_eraseDups_le {xs ys : List String} (h : xs ⊆ ys) :
    xs.eraseDups.length ≤ ys.eraseDups.length :=
  (nodup_eraseDups xs).length_le_of_subset fun _ hx =>
    List.mem_eraseDups.2 (h (List.mem_eraseDups.1 hx))

theorem length_eraseDups_lt {xs ys : List String} {y : String} (h : xs ⊆ ys) (hy : y ∈ ys)
    (hx : y ∉ xs) : xs.eraseDups.length < ys.eraseDups.length := by
  have hn : (y :: xs.eraseDups).Nodup := by
    rw [List.nodup_cons]
    exact ⟨fun hm => hx (List.mem_eraseDups.1 hm), nodup_eraseDups xs⟩
  have hs : y :: xs.eraseDups ⊆ ys.eraseDups := by
    intro z hz
    rcases List.mem_cons.1 hz with rfl | hz
    · exact List.mem_eraseDups.2 hy
    · exact List.mem_eraseDups.2 (h (List.mem_eraseDups.1 hz))
  exact hn.length_le_of_subset hs

namespace Equation

/-- What is free after a variable was solved is another variable, and was free in the
equations or is free in what was put in. -/
theorem mem_vars_replaceAll {es : List Equation} {x y : String} {u : Ty}
    (hu : x ∉ u.freeOccurrences) (hy : y ∈ (replaceAll es x u).flatMap vars) :
    y ≠ x ∧ (y ∈ es.flatMap vars ∨ y ∈ u.freeOccurrences) := by
  simp only [replaceAll, List.mem_flatMap, List.mem_map] at hy
  obtain ⟨_, ⟨e, he, rfl⟩, hy⟩ := hy
  simp only [vars, replace, List.mem_append] at hy
  have split : y ∈ vars e ∧ y ≠ x ∨ y ∈ u.freeOccurrences := by
    rcases hy with hy | hy <;> rcases Ty.mem_freeOccurrences_replace hy with h | h
    · exact .inl ⟨List.mem_append_left _ h.1, h.2⟩
    · exact .inr h
    · exact .inl ⟨List.mem_append_right _ h.1, h.2⟩
    · exact .inr h
  rcases split with h | h
  · exact ⟨h.2, .inl (List.mem_flatMap.2 ⟨e, he, h.1⟩)⟩
  · exact ⟨fun hyx => hu (hyx ▸ h), .inr h⟩

/-- Solving a variable leaves fewer variables. -/
theorem distinctVars_replace_lt {x : String} {u l r : Ty} (es : List Equation)
    (hx : x ∈ vars ⟨l, r⟩) (hu : u.freeOccurrences ⊆ vars ⟨l, r⟩) (hn : u.occurs x = false) :
    distinctVars (replaceAll es x u) < distinctVars (⟨l, r⟩ :: es) := by
  have hxu : x ∉ u.freeOccurrences := fun h => by simp [Ty.occurs_iff.2 h] at hn
  refine length_eraseDups_lt (fun y hy => ?_) (List.mem_flatMap.2 ⟨_, List.mem_cons_self, hx⟩)
    fun hm => (mem_vars_replaceAll hxu hm).1 rfl
  rw [List.flatMap_cons, List.mem_append]
  exact (mem_vars_replaceAll hxu hy).2.symm.imp_left fun h => hu h

theorem distinctVars_le {es fs : List Equation} (h : es.flatMap vars ⊆ fs.flatMap vars) :
    distinctVars es ≤ distinctVars fs := length_eraseDups_le h

end Equation

/-- The order in which unification descends: fewer variables, or no more of them
and a smaller size. -/
theorem lex_of_le_of_lt {a b c d : Nat} (h : a ≤ b) (h' : c < d) :
    Prod.Lex (· < ·) (· < ·) (a, c) (b, d) := by
  rcases Nat.lt_or_eq_of_le h with h | rfl
  · exact .left _ _ h
  · exact .right _ h'

/-- **Solves equations.** -/
def unify : List Equation → Except TypeError Solution
  | [] => .ok []
  | ⟨l, r⟩ :: rest =>
    if l = r then
      unify rest
    else
      match l, r with
      | .var x, r =>
        if _h : r.occurs x then
          .error (.infinite x r)
        else
          (unify (Equation.replaceAll rest x r)).map ((x, r) :: ·)
      | l, .var x =>
        if _h : l.occurs x then
          .error (.infinite x l)
        else
          (unify (Equation.replaceAll rest x l)).map ((x, l) :: ·)
      | .arrow a b, .arrow c d => unify (⟨a, c⟩ :: ⟨b, d⟩ :: rest)
      | .app f a, .app g b => unify (⟨f, g⟩ :: ⟨a, b⟩ :: rest)
      | .list a, .list b => unify (⟨a, b⟩ :: rest)
      | l, r => .error (.mismatch l r)
termination_by es => (Equation.distinctVars es, Equation.totalSize es)
decreasing_by
  · refine lex_of_le_of_lt (Equation.distinctVars_le fun y hy => ?_) ?_
    · simp only [List.flatMap_cons, List.mem_append]
      exact .inr hy
    · have := l.size_pos
      simp only [Equation.totalSize, Equation.size]
      omega
  · exact .left _ _ (Equation.distinctVars_replace_lt rest
      (by simp [Equation.vars, Ty.freeOccurrences]) (by simp [Equation.vars])
      (by simpa using _h))
  · exact .left _ _ (Equation.distinctVars_replace_lt rest
      (by simp [Equation.vars, Ty.freeOccurrences]) (by simp [Equation.vars])
      (by simpa using _h))
  · refine lex_of_le_of_lt (Equation.distinctVars_le fun y hy => ?_) ?_
    · simp only [List.flatMap_cons, Equation.vars, Ty.freeOccurrences, List.mem_append] at hy ⊢
      grind
    · simp only [Equation.totalSize, Equation.size, Ty.size]
      omega
  · refine lex_of_le_of_lt (Equation.distinctVars_le fun y hy => ?_) ?_
    · simp only [List.flatMap_cons, Equation.vars, Ty.freeOccurrences, List.mem_append] at hy ⊢
      grind
    · simp only [Equation.totalSize, Equation.size, Ty.size]
      omega
  · refine lex_of_le_of_lt (Equation.distinctVars_le fun y hy => ?_) ?_
    · simp only [List.flatMap_cons, Equation.vars, Ty.freeOccurrences, List.mem_append] at hy ⊢
      grind
    · simp only [Equation.totalSize, Equation.size, Ty.size]
      omega

end LetPoly
