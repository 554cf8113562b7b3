import Mathlib
import LetPoly.Proofs.Assignment

/-! # Unification

A run of `unify` is a sequence of reductions of the equations that are left
(`Equation.Reduces`), each recording at most one solved variable, and ends when no
equation is left or the first one cannot hold (`Equation.Stuck`).  All that is
known of whole runs is proved by one induction over this view, `unify_induction`.

The pairs that a run records are **triangular**: the variable of a pair occurs
neither in its own type nor in any later pair.  Resolving a type by a triangular
solution is the same as carrying out its replacements one after the other
(`Solution.resolve_cons`), although `resolve` follows each variable on its own.
From this follow the two directions:

* `unify_solves`: the two sides of every equation resolve to the same type, and
  resolving twice is resolving once;
* `unify_complete_of_binderFree`: if some assignment solves equations without
  binders, `unify` finds a solution and every solving assignment factors through it.
-/

namespace LetPoly

namespace Equation

/-- The names that binders on either side bind. -/
def binders (e : Equation) : List String := e.left.binders ++ e.right.binders

/-- The variables of both sides, bound or not. -/
def occurrences (e : Equation) : List String := e.left.occurrences ++ e.right.occurrences

/-- No name that is bound somewhere in the equations is free somewhere in them. -/
def Apart (es : List Equation) : Prop := ∀ x ∈ es.flatMap binders, x ∉ es.flatMap vars

/-- Both sides of every equation are monotypes. -/
def AllMono (es : List Equation) : Prop := ∀ e ∈ es, e.left.Mono ∧ e.right.Mono

/-- No side of an equation binds a name. -/
def BinderFree (es : List Equation) : Prop := ∀ e ∈ es, e.left.binders = [] ∧ e.right.binders = []

theorem BinderFree.not_mem_binders {es : List Equation} (h : BinderFree es) (x : String) :
    x ∉ es.flatMap binders := by
  intro hx
  obtain ⟨e, he, hx⟩ := List.mem_flatMap.1 hx
  simp [binders, (h e he).1, (h e he).2] at hx

theorem BinderFree.tail {e : Equation} {es : List Equation} (h : BinderFree (e :: es)) :
    BinderFree es :=
  fun d hd => h d (List.mem_cons_of_mem _ hd)

theorem AllMono.binderFree {es : List Equation} (h : AllMono es) : BinderFree es :=
  fun e he => ⟨(h e he).1.binders_eq_nil, (h e he).2.binders_eq_nil⟩

theorem AllMono.not_mem_binders {es : List Equation} (h : AllMono es) (x : String) :
    x ∉ es.flatMap binders :=
  h.binderFree.not_mem_binders x

theorem AllMono.apart {es : List Equation} (h : AllMono es) : Apart es :=
  fun x hx => absurd hx (h.not_mem_binders x)

theorem AllMono.tail {e : Equation} {es : List Equation} (h : AllMono (e :: es)) : AllMono es :=
  fun d hd => h d (List.mem_cons_of_mem _ hd)

end Equation

/-- Both sides of every equation become the same. -/
def Assignment.Solves (θ : Assignment) (es : List Equation) : Prop :=
  ∀ e ∈ es, e.left.apply θ = e.right.apply θ

@[simp] theorem Assignment.solves_nil (θ : Assignment) : θ.Solves [] := by simp [Solves]

@[simp] theorem Assignment.solves_cons {θ : Assignment} {e : Equation} {es : List Equation} :
    θ.Solves (e :: es) ↔ e.left.apply θ = e.right.apply θ ∧ θ.Solves es := by
  simp [Solves]

@[simp] theorem Assignment.solves_append {θ : Assignment} {es es' : List Equation} :
    θ.Solves (es ++ es') ↔ θ.Solves es ∧ θ.Solves es' := by
  simp only [Solves, List.mem_append, or_imp, forall_and]

theorem Assignment.Solves.congr {θ θ' : Assignment} {es : List Equation} (h : θ.Solves es)
    (heq : ∀ e ∈ es, ∀ x ∈ e.occurrences, θ x = θ' x) : θ'.Solves es := by
  intro e he
  rw [← Ty.apply_congr fun x hx => heq e he x (List.mem_append_left _ hx),
    ← Ty.apply_congr fun x hx => heq e he x (List.mem_append_right _ hx)]
  exact h e he

/-! ## Resolving a type -/

namespace Solution

theorem resolve_var_of_none {s : Solution} {x : String} (h : s.lookup x = none) :
    s.resolve (.var x) = .var x := by
  rw [resolve]
  split
  · rfl
  · rename_i h'
    simp [h] at h'

theorem resolve_var_of_some {s : Solution} {x : String} {t : Ty} (h : s.lookup x = some t) :
    s.resolve (.var x) = (s.without x).resolve t := by
  rw [resolve]
  split
  · rename_i h'
    simp [h] at h'
  · rename_i h'
    rw [h] at h'
    cases h'
    rfl

/-- Resolving a type is an assignment. -/
theorem resolve_eq_apply (s : Solution) (t : Ty) :
    s.resolve t = t.apply fun x => s.resolve (.var x) := by
  induction t <;> simp_all [Ty.apply, resolve]

/-- The variable of every pair occurs neither in the pair's own type nor in any
later pair. -/
def Triangular : Solution → Prop
  | [] => True
  | (x, u) :: s => x ∉ u.occurrences ∧ (∀ p ∈ s, p.1 ≠ x ∧ x ∉ p.2.occurrences) ∧ Triangular s

theorem without_eq_self {s : Solution} {x : String} (h : ∀ p ∈ s, p.1 ≠ x) : s.without x = s :=
  List.filter_eq_self.2 fun p hp => by simpa using h p hp

/-- A pair whose variable is never met does not count. -/
theorem resolve_cons_of_not_mem {s : Solution} {x : String} (u : Ty) {t : Ty}
    (ht : x ∉ t.occurrences) (hs : ∀ p ∈ s, x ∉ p.2.occurrences) :
    resolve ((x, u) :: s) t = resolve s t := by
  fun_induction resolve s t with
  | case1 | case2 => simp [resolve]
  | case3 s y h =>
    have hy : (y == x) = false := by
      simp only [Ty.occurrences, List.mem_singleton] at ht
      simpa using Ne.symm ht
    exact resolve_var_of_none (by simp [List.lookup_cons, hy, h])
  | case4 s y t h ih =>
    simp only [Ty.occurrences, List.mem_singleton] at ht
    have hy : (y == x) = false := by simpa using Ne.symm ht
    have hmem : (y, t) ∈ s := by
      obtain ⟨l, r, rfl, -⟩ := List.lookup_eq_some_iff.1 h
      simp
    have hw : without ((x, u) :: s) y = (x, u) :: without s y := by
      rw [without, without, List.filter_cons_of_pos (by simpa using ht)]
    rw [resolve_var_of_some (t := t) (by simp [List.lookup_cons, hy, h]), hw]
    exact ih (hs _ hmem) fun p hp => hs p (List.mem_filter.1 hp).1
  | case5 s a r iha ihr =>
    simp only [Ty.occurrences, List.mem_append, not_or] at ht
    rw [resolve, iha ht.1 hs, ihr ht.2 hs]
  | case6 s f a ihf iha =>
    simp only [Ty.occurrences, List.mem_append, not_or] at ht
    rw [resolve, ihf ht.1 hs, iha ht.2 hs]
  | case7 s b t ih => rw [resolve, ih ht hs]
  | case8 s t ih => rw [resolve, ih ht hs]

/-- **The first pair is a replacement that is carried out first.** -/
theorem resolve_cons {s : Solution} {x : String} {u : Ty} (h : Triangular ((x, u) :: s)) (t : Ty) :
    resolve ((x, u) :: s) t = resolve s (t.apply (.single x u)) := by
  obtain ⟨-, hs, -⟩ := h
  rw [resolve_eq_apply, resolve_eq_apply s, Ty.apply_apply]
  congr 1
  funext y
  rw [← resolve_eq_apply]
  by_cases hy : y = x
  · subst hy
    have hw : without ((y, u) :: s) y = s := by
      rw [without, List.filter_cons_of_neg (by simp)]
      exact without_eq_self fun p hp => (hs p hp).1
    rw [resolve_var_of_some (t := u) (by simp), hw, Assignment.single, Assignment.set_self]
  · rw [Assignment.single, Assignment.set_of_ne _ _ hy]
    refine resolve_cons_of_not_mem u ?_ fun p hp => (hs p hp).2
    simpa [Ty.occurrences] using Ne.symm hy

/-- A resolved type mentions only variables of the type and of the pairs. -/
theorem mem_occurrences_resolve {s : Solution} {t : Ty} {y : String}
    (h : y ∈ (s.resolve t).occurrences) :
    y ∈ t.occurrences ∨ ∃ p ∈ s, y ∈ p.2.occurrences := by
  fun_induction resolve s t with
  | case1 | case2 => simp [Ty.occurrences] at h
  | case3 s x _ => exact .inl h
  | case4 s x t hx ih =>
    obtain ⟨l, r, rfl, -⟩ := List.lookup_eq_some_iff.1 hx
    rcases ih h with h | ⟨p, hp, h⟩
    · exact .inr ⟨(x, t), by simp, h⟩
    · exact .inr ⟨p, (List.mem_filter.1 hp).1, h⟩
  | case5 s a r iha ihr =>
    simp only [Ty.occurrences, List.mem_append] at h ⊢
    rcases h with h | h
    · exact (iha h).imp_left .inl
    · exact (ihr h).imp_left .inr
  | case6 s f a ihf iha =>
    simp only [Ty.occurrences, List.mem_append] at h ⊢
    rcases h with h | h
    · exact (ihf h).imp_left .inl
    · exact (iha h).imp_left .inr
  | case7 s b t ih => exact ih h
  | case8 s t ih => exact ih h

/-- No solved variable is left in a resolved type. -/
theorem Triangular.lookup_eq_none {s : Solution} (hs : s.Triangular) {t : Ty} {y : String}
    (h : y ∈ (s.resolve t).occurrences) : s.lookup y = none := by
  induction s generalizing t with
  | nil => rfl
  | cons p s ih =>
    obtain ⟨x, u⟩ := p
    rw [resolve_cons hs] at h
    obtain ⟨hu, hlater, hs⟩ := hs
    have hne : y ≠ x := by
      rintro rfl
      rcases mem_occurrences_resolve h with h | ⟨p, hp, h⟩
      · exact Ty.not_mem_occurrences_apply_single hu h
      · exact (hlater p hp).2 h
    have hb : (y == x) = false := by simpa using hne
    rw [List.lookup_cons, hb]
    exact ih hs h

theorem resolve_eq_self {s : Solution} {t : Ty} (h : ∀ y ∈ t.occurrences, s.lookup y = none) :
    s.resolve t = t := by
  rw [resolve_eq_apply]
  exact Ty.apply_eq_self fun y hy => resolve_var_of_none (h y hy)

theorem Triangular.resolve_resolve {s : Solution} (hs : s.Triangular) (t : Ty) :
    s.resolve (s.resolve t) = s.resolve t :=
  resolve_eq_self fun _ hy => hs.lookup_eq_none hy

end Solution

/-! ## Runs of unification -/

namespace Equation

/-- **One step of unification**: equations, what is recorded, and the equations that
are left. -/
inductive Reduces : List Equation → Solution → List Equation → Prop
  | drop (t : Ty) (rest : List Equation) : Reduces (⟨t, t⟩ :: rest) [] rest
  | solveLeft (x : String) (u : Ty) (rest : List Equation) (h : x ∉ u.freeOccurrences) :
      Reduces (⟨.var x, u⟩ :: rest) [(x, u)] (replaceAll rest x u)
  | solveRight (x : String) (u : Ty) (rest : List Equation) (h : x ∉ u.freeOccurrences) :
      Reduces (⟨u, .var x⟩ :: rest) [(x, u)] (replaceAll rest x u)
  | arrow (a b c d : Ty) (rest : List Equation) :
      Reduces (⟨.arrow a b, .arrow c d⟩ :: rest) [] (⟨a, c⟩ :: ⟨b, d⟩ :: rest)
  | app (f a g b : Ty) (rest : List Equation) :
      Reduces (⟨.app f a, .app g b⟩ :: rest) [] (⟨f, g⟩ :: ⟨a, b⟩ :: rest)
  | list (a b : Ty) (rest : List Equation) :
      Reduces (⟨.list a, .list b⟩ :: rest) [] (⟨a, b⟩ :: rest)

/-- The first equation cannot hold: a variable stands against a larger type in
which it is free, or two types of different form stand against each other. -/
inductive Stuck : List Equation → Prop
  | occursRight (x : String) (u : Ty) (rest : List Equation) (hx : x ∈ u.freeOccurrences)
      (hu : u ≠ .var x) : Stuck (⟨.var x, u⟩ :: rest)
  | occursLeft (x : String) (u : Ty) (rest : List Equation) (hx : x ∈ u.freeOccurrences)
      (hu : u ≠ .var x) : Stuck (⟨u, .var x⟩ :: rest)
  | clash (l r : Ty) (rest : List Equation) (hl : ∀ x, l ≠ .var x) (hr : ∀ x, r ≠ .var x)
      (harrow : ∀ a b c d, l = .arrow a b → r ≠ .arrow c d)
      (happ : ∀ f a g b, l = .app f a → r ≠ .app g b)
      (hlist : ∀ a b, l = .list a → r ≠ .list b) (hne : l ≠ r) : Stuck (⟨l, r⟩ :: rest)

end Equation

/-- **Induction over the steps of unification.** -/
theorem unify_induction {motive : List Equation → Except TypeError Solution → Prop}
    (nil : motive [] (.ok []))
    (step : ∀ {es ps es'}, Equation.Reduces es ps es' → motive es' (unify es') →
      motive es ((unify es').map (ps ++ ·)))
    (stuck : ∀ {es} (err : TypeError), Equation.Stuck es → motive es (.error err))
    (es : List Equation) : motive es (unify es) := by
  have same : ∀ r : Except TypeError Solution, r.map ([] ++ ·) = r := by
    intro r
    cases r <;> rfl
  have free : ∀ {x : String} {u : Ty}, ¬u.occurs x = true → x ∉ u.freeOccurrences :=
    fun h hx => h (Ty.occurs_iff.2 hx)
  fun_induction unify es with
  | case1 => exact nil
  | case2 t rest ih => exact same (unify rest) ▸ step (.drop t rest) ih
  | case3 rest x u hx hne =>
    exact stuck _ (.occursRight x u rest (Ty.occurs_iff.1 hx) (Ne.symm hne))
  | case4 rest x u hx _ ih => exact step (.solveLeft x u rest (free hx)) ih
  | case5 rest u x _ hx hne => exact stuck _ (.occursLeft x u rest (Ty.occurs_iff.1 hx) hne)
  | case6 rest u x _ hx _ ih => exact step (.solveRight x u rest (free hx)) ih
  | case7 rest a b c d _ ih => exact same (unify _) ▸ step (.arrow a b c d rest) ih
  | case8 rest f a g b _ ih => exact same (unify _) ▸ step (.app f a g b rest) ih
  | case9 rest a b _ ih => exact same (unify _) ▸ step (.list a b rest) ih
  | case10 rest l r hl hr harrow happ hlist hne =>
    exact stuck _ (.clash l r rest hl hr harrow happ hlist hne)

/-- The same for runs that succeed. -/
theorem unify_ok_induction {motive : List Equation → Solution → Prop}
    (nil : motive [] [])
    (step : ∀ {es ps es' s}, Equation.Reduces es ps es' → motive es' s → motive es (ps ++ s))
    {es : List Equation} {s : Solution} (h : unify es = .ok s) : motive es s := by
  have key : ∀ es, ∀ s, unify es = .ok s → motive es s := by
    intro es
    refine unify_induction (motive := fun es r => ∀ s, r = .ok s → motive es s) ?_ ?_ ?_ es
    · rintro _ ⟨⟩
      exact nil
    · intro es ps es' hr ih s hs
      cases hu : unify es' with
      | error e =>
        rw [hu] at hs
        cases hs
      | ok s' =>
        rw [hu] at hs
        cases hs
        exact step hr (ih s' hu)
    · rintro _ _ _ _ ⟨⟩
  exact key es s h

/-! ## Soundness -/

namespace Ty

theorem mem_occurrences_of_free {t : Ty} {x : String} (h : x ∈ t.freeOccurrences) :
    x ∈ t.occurrences := by
  induction t with
  | const | missing => simp [freeOccurrences] at h
  | var y => exact h
  | arrow a r iha ihr =>
    simp only [freeOccurrences, occurrences, List.mem_append] at h ⊢
    exact h.imp iha ihr
  | app f a ihf iha =>
    simp only [freeOccurrences, occurrences, List.mem_append] at h ⊢
    exact h.imp ihf iha
  | poly b t ih => exact ih (List.mem_filter.1 h).1
  | list t ih => exact ih h

end Ty

namespace Equation

theorem Apart.of_subset {es es' : List Equation} (h : Apart es)
    (hb : es'.flatMap binders ⊆ es.flatMap binders) (hv : es'.flatMap vars ⊆ es.flatMap vars) :
    Apart es' :=
  fun x hx hf => h x (hb hx) (hv hf)

/-- Replacing a variable that no binder binds is an assignment, equation by
equation. -/
theorem mem_replaceAll {rest : List Equation} {x : String} {u : Ty} {e' : Equation}
    (hx : x ∉ rest.flatMap binders) (he' : e' ∈ replaceAll rest x u) :
    ∃ e ∈ rest, e' = ⟨e.left.apply (.single x u), e.right.apply (.single x u)⟩ := by
  obtain ⟨e, he, rfl⟩ := List.mem_map.1 he'
  have hb : x ∉ e.left.binders ++ e.right.binders :=
    fun h => hx (List.mem_flatMap.2 ⟨e, he, h⟩)
  rw [List.mem_append, not_or] at hb
  exact ⟨e, he, by rw [replace, Ty.replace_eq_apply u hb.1, Ty.replace_eq_apply u hb.2]⟩

theorem apply_mem_replaceAll {rest : List Equation} {x : String} (u : Ty) {e : Equation}
    (hx : x ∉ rest.flatMap binders) (he : e ∈ rest) :
    ⟨e.left.apply (.single x u), e.right.apply (.single x u)⟩ ∈ replaceAll rest x u := by
  have hb : x ∉ e.left.binders ++ e.right.binders :=
    fun h => hx (List.mem_flatMap.2 ⟨e, he, h⟩)
  rw [List.mem_append, not_or] at hb
  rw [← Ty.replace_eq_apply u hb.1, ← Ty.replace_eq_apply u hb.2]
  exact List.mem_map.2 ⟨e, he, rfl⟩

/-- What occurs after a replacement occurred before or occurs in what was put in,
and is another variable. -/
theorem mem_occurrences_replaceAll {rest : List Equation} {x y : String} {u : Ty}
    (hx : x ∉ rest.flatMap binders) (hu : x ∉ u.occurrences)
    (hy : y ∈ (replaceAll rest x u).flatMap occurrences) :
    y ≠ x ∧ (y ∈ rest.flatMap occurrences ∨ y ∈ u.occurrences) := by
  obtain ⟨e', he', hy⟩ := List.mem_flatMap.1 hy
  obtain ⟨e, he, rfl⟩ := mem_replaceAll hx he'
  have side : ∀ t : Ty, y ∈ (t.apply (.single x u)).occurrences →
      y ≠ x ∧ (y ∈ t.occurrences ∨ y ∈ u.occurrences) := by
    intro t ht
    refine ⟨fun h => Ty.not_mem_occurrences_apply_single hu (h ▸ ht), ?_⟩
    obtain ⟨z, hz, ht⟩ := Ty.mem_occurrences_apply.1 ht
    by_cases hzx : z = x
    · subst hzx
      exact .inr (by simpa [Assignment.single] using ht)
    · rw [Assignment.single, Assignment.set_of_ne _ _ hzx] at ht
      rw [List.mem_singleton.1 ht]
      exact .inl hz
  rcases List.mem_append.1 hy with hy | hy
  · obtain ⟨hne, h⟩ := side _ hy
    exact ⟨hne, h.imp_left fun h => List.mem_flatMap.2 ⟨e, he, List.mem_append_left _ h⟩⟩
  · obtain ⟨hne, h⟩ := side _ hy
    exact ⟨hne, h.imp_left fun h => List.mem_flatMap.2 ⟨e, he, List.mem_append_right _ h⟩⟩

/-- Solving a variable keeps bound names apart from free ones. -/
theorem Apart.replaceAll {es rest : List Equation} {x : String} {u : Ty} (h : Apart es)
    (hrest : rest ⊆ es) (hx : x ∈ es.flatMap vars)
    (hub : u.binders ⊆ es.flatMap binders) (huv : u.freeOccurrences ⊆ es.flatMap vars) :
    Apart (replaceAll rest x u) := by
  have hxb : x ∉ rest.flatMap binders := fun hb => by
    obtain ⟨e, he, hb⟩ := List.mem_flatMap.1 hb
    exact h x (List.mem_flatMap.2 ⟨e, hrest he, hb⟩) hx
  refine h.of_subset ?_ ?_
  · intro y hy
    obtain ⟨e', he', hy⟩ := List.mem_flatMap.1 hy
    obtain ⟨e, he, rfl⟩ := mem_replaceAll hxb he'
    have side : ∀ t : Ty, y ∈ (t.apply (.single x u)).binders → y ∈ t.binders ∨ y ∈ u.binders := by
      intro t ht
      refine (Ty.mem_binders_apply ht).imp_right ?_
      rintro ⟨z, -, hz⟩
      by_cases hzx : z = x
      · subst hzx
        simpa [Assignment.single] using hz
      · rw [Assignment.single, Assignment.set_of_ne _ _ hzx] at hz
        simp [Ty.binders] at hz
    rcases List.mem_append.1 hy with hy | hy
    · rcases side _ hy with hy | hy
      · exact List.mem_flatMap.2 ⟨e, hrest he, List.mem_append_left _ hy⟩
      · exact hub hy
    · rcases side _ hy with hy | hy
      · exact List.mem_flatMap.2 ⟨e, hrest he, List.mem_append_right _ hy⟩
      · exact hub hy
  · intro y hy
    obtain ⟨e', he', hy⟩ := List.mem_flatMap.1 hy
    obtain ⟨e, he, rfl⟩ := List.mem_map.1 he'
    rcases List.mem_append.1 hy with hy | hy
    · rcases Ty.mem_freeOccurrences_replace hy with hy | hy
      · exact List.mem_flatMap.2 ⟨e, hrest he, List.mem_append_left _ hy.1⟩
      · exact huv hy
    · rcases Ty.mem_freeOccurrences_replace hy with hy | hy
      · exact List.mem_flatMap.2 ⟨e, hrest he, List.mem_append_right _ hy.1⟩
      · exact huv hy

theorem Reduces.apart {es es' : List Equation} {ps : Solution} (h : Reduces es ps es')
    (ha : Apart es) : Apart es' := by
  cases h with
  | drop t _ => exact ha.of_subset (List.subset_append_right _ _) (List.subset_append_right _ _)
  | solveLeft x u rest _ =>
    refine ha.replaceAll (List.subset_cons_self _ _) ?_ ?_ ?_
    · simp [vars, Ty.freeOccurrences]
    · simp [binders, Ty.binders]
    · simp [vars, Ty.freeOccurrences]
  | solveRight x u rest _ =>
    refine ha.replaceAll (List.subset_cons_self _ _) ?_ ?_ ?_
    · simp [vars, Ty.freeOccurrences]
    · simp [binders, Ty.binders]
    · simp [vars, Ty.freeOccurrences]
  | arrow | app | list =>
    refine ha.of_subset ?_ ?_ <;> intro y hy <;>
      simp only [List.flatMap_cons, binders, vars, Ty.binders, Ty.freeOccurrences,
        List.mem_append] at hy ⊢ <;> grind

end Equation

namespace Solution

open Equation

/-- What a run of unification guarantees of the pairs it records. -/
structure Answers (s : Solution) (es : List Equation) : Prop where
  triangular : s.Triangular
  /-- Only variables of the equations are solved, by types over such variables. -/
  within : ∀ p ∈ s, p.1 ∈ es.flatMap occurrences ∧ ∀ y ∈ p.2.occurrences, y ∈ es.flatMap occurrences
  solves : ∀ e ∈ es, s.resolve e.left = s.resolve e.right

/-- A solution of the equations that are left, extended by the pair that was recorded. -/
theorem Answers.cons {s : Solution} {rest : List Equation} {x : String} {u : Ty}
    (h : s.Answers (replaceAll rest x u)) (hx : x ∉ rest.flatMap binders)
    (hu : x ∉ u.occurrences) : Answers ((x, u) :: s) (⟨.var x, u⟩ :: rest) := by
  have hnames : ∀ p ∈ s, p.1 ≠ x ∧ x ∉ p.2.occurrences := by
    intro p hp
    obtain ⟨h1, h2⟩ := h.within p hp
    exact ⟨(mem_occurrences_replaceAll hx hu h1).1,
      fun hm => (mem_occurrences_replaceAll hx hu (h2 x hm)).1 rfl⟩
  have htri : Triangular ((x, u) :: s) := ⟨hu, hnames, h.triangular⟩
  have hold : ∀ y ∈ (replaceAll rest x u).flatMap occurrences,
      y ∈ (⟨.var x, u⟩ :: rest : List Equation).flatMap occurrences := by
    intro y hy
    simp only [List.flatMap_cons, occurrences, List.mem_append]
    rcases (mem_occurrences_replaceAll hx hu hy).2 with hy | hy
    · exact .inr hy
    · exact .inl (.inr hy)
  refine ⟨htri, ?_, ?_⟩
  · intro p hp
    rcases List.mem_cons.1 hp with rfl | hp
    · refine ⟨by simp [occurrences, Ty.occurrences], fun y hy => ?_⟩
      simp [occurrences, hy]
    · obtain ⟨h1, h2⟩ := h.within p hp
      exact ⟨hold _ h1, fun y hy => hold y (h2 y hy)⟩
  · intro e he
    rw [resolve_cons htri, resolve_cons htri]
    rcases List.mem_cons.1 he with rfl | he
    · rw [Ty.apply_var, Assignment.single, Assignment.set_self, Ty.apply_eq_self]
      intro y hy
      exact Assignment.set_of_ne _ _ fun hyx => hu (hyx ▸ hy)
    · exact h.solves _ (apply_mem_replaceAll u hx he)

/-- The order of the sides, equations that hold anyway, and equations that say the
same play no part. -/
theorem Answers.of_equations {s : Solution} {es es' : List Equation} (h : s.Answers es')
    (hv : es'.flatMap occurrences ⊆ es.flatMap occurrences)
    (hs : ∀ e ∈ es, s.resolve e.left = s.resolve e.right) : s.Answers es where
  triangular := h.triangular
  within p hp := ⟨hv (h.within p hp).1, fun y hy => hv ((h.within p hp).2 y hy)⟩
  solves := hs

end Solution

/-- **Step lemma.**  A solution of what is left, with what was recorded in front,
is a solution of the equations before the step. -/
theorem Equation.Reduces.answers {es es' : List Equation} {ps s : Solution}
    (h : Reduces es ps es') (ha : Apart es) (hs : s.Answers es') : (ps ++ s).Answers es := by
  -- a variable that is solved is free in the equations, so no binder has its name
  have unbound : ∀ {e : Equation} {rest : List Equation} {x : String}, Apart (e :: rest) →
      x ∈ e.vars → x ∉ (e :: rest).flatMap binders := fun ha hx hb =>
    ha _ hb (List.mem_flatMap.2 ⟨_, List.mem_cons_self, hx⟩)
  have absent : ∀ {x : String} {u : Ty}, x ∉ u.freeOccurrences → x ∉ u.binders →
      x ∉ u.occurrences := fun hf hb hx => (Ty.mem_freeOccurrences_or_binders hx).elim hf hb
  cases h with
  | drop t rest =>
    refine hs.of_equations (List.subset_append_right _ _) ?_
    intro e he
    rcases List.mem_cons.1 he with rfl | he
    · rfl
    · exact hs.solves e he
  | solveLeft x u rest hx =>
    have hb := unbound (x := x) ha (by simp [vars, Ty.freeOccurrences])
    simp only [List.flatMap_cons, binders, Ty.binders, List.mem_append, not_or] at hb
    exact hs.cons hb.2 (absent hx hb.1.2)
  | solveRight x u rest hx =>
    have hb := unbound (x := x) ha (by simp [vars, Ty.freeOccurrences])
    simp only [List.flatMap_cons, binders, Ty.binders, List.mem_append, not_or] at hb
    have hc := hs.cons hb.2 (absent hx hb.1.1)
    refine hc.of_equations ?_ ?_
    · intro y hy
      simp only [List.flatMap_cons, occurrences, List.mem_append] at hy ⊢
      exact hy.imp_left Or.symm
    · intro e he
      rcases List.mem_cons.1 he with rfl | he
      · exact (hc.solves _ List.mem_cons_self).symm
      · exact hc.solves e (List.mem_cons_of_mem _ he)
  | arrow a b c d rest =>
    refine hs.of_equations ?_ ?_
    · intro y hy
      simp only [List.flatMap_cons, occurrences, Ty.occurrences, List.mem_append] at hy ⊢
      grind
    · intro e he
      rcases List.mem_cons.1 he with rfl | he
      · show Solution.resolve s (.arrow a b) = Solution.resolve s (.arrow c d)
        rw [Solution.resolve, Solution.resolve, hs.solves ⟨a, c⟩ (by simp),
          hs.solves ⟨b, d⟩ (by simp)]
      · exact hs.solves e (by simp [he])
  | app f a g b rest =>
    refine hs.of_equations ?_ ?_
    · intro y hy
      simp only [List.flatMap_cons, occurrences, Ty.occurrences, List.mem_append] at hy ⊢
      grind
    · intro e he
      rcases List.mem_cons.1 he with rfl | he
      · show Solution.resolve s (.app f a) = Solution.resolve s (.app g b)
        rw [Solution.resolve, Solution.resolve, hs.solves ⟨f, g⟩ (by simp),
          hs.solves ⟨a, b⟩ (by simp)]
      · exact hs.solves e (by simp [he])
  | list a b rest =>
    refine hs.of_equations ?_ ?_
    · intro y hy
      simp only [List.flatMap_cons, occurrences, Ty.occurrences, List.mem_append] at hy ⊢
      exact hy
    · intro e he
      rcases List.mem_cons.1 he with rfl | he
      · show Solution.resolve s (.list a) = Solution.resolve s (.list b)
        rw [Solution.resolve, Solution.resolve, hs.solves ⟨a, b⟩ (by simp)]
      · exact hs.solves e (by simp [he])

/-- **Run lemma.** -/
theorem unify_answers {es : List Equation} {s : Solution} (ha : Equation.Apart es)
    (h : unify es = .ok s) : s.Answers es := by
  have run := unify_ok_induction (motive := fun es s => Equation.Apart es → s.Answers es)
    (fun _ => ⟨trivial, by simp, by simp⟩)
    (fun hr ih ha => hr.answers ha (ih (hr.apart ha))) h
  exact run ha

/-- **Unification is sound.**  Where no bound name is also free, the solution that is
found makes the two sides of every equation the same, and resolves every type
completely. -/
theorem unify_solves (es : List Equation) (s : Solution)
    (hapart : ∀ x ∈ es.flatMap Equation.binders, x ∉ es.flatMap Equation.vars)
    (h : unify es = .ok s) :
    (∀ e ∈ es, s.resolve e.left = s.resolve e.right) ∧
      ∀ t, s.resolve (s.resolve t) = s.resolve t :=
  have ha := unify_answers hapart h
  ⟨ha.solves, ha.triangular.resolve_resolve⟩

/-- A solved variable stands in the type of an earlier pair, and under a binder. -/
theorem unify_solves_chain :
    let es : List Equation := [⟨.var "1", .arrow (.var "2") (.var "3")⟩, ⟨.var "2", .var "4"⟩,
      ⟨.var "4", .int⟩,
      ⟨.poly "a" (.arrow (.var "a") (.var "2")), .poly "a" (.arrow (.var "a") .int)⟩]
    let s : Solution := [("1", .arrow (.var "2") (.var "3")), ("2", .var "4"), ("4", .int)]
    unify es = .ok s ∧ (∀ e ∈ es, s.resolve e.left = s.resolve e.right) ∧
      ∀ t, s.resolve (s.resolve t) = s.resolve t := by
  intro es s
  have h : unify es = .ok s := by cbv
  exact ⟨h, unify_solves es s (by decide) h⟩

/-! ## Completeness -/

/-- An assignment that agrees with every pair does not see whether a type has been
resolved. -/
theorem Solution.apply_resolve {s : Solution} {θ : Assignment}
    (h : ∀ p ∈ s, θ p.1 = p.2.apply θ) (t : Ty) : (s.resolve t).apply θ = t.apply θ := by
  fun_induction resolve s t with
  | case1 | case2 | case3 => rfl
  | case4 s x t hx ih =>
    obtain ⟨l, r, rfl, -⟩ := List.lookup_eq_some_iff.1 hx
    rw [ih fun p hp => h p (List.mem_filter.1 hp).1, Ty.apply_var]
    exact (h (x, t) (by simp)).symm
  | case5 s a r iha ihr => rw [Ty.apply, Ty.apply, iha h, ihr h]
  | case6 s f a ihf iha => rw [Ty.apply, Ty.apply, ihf h, iha h]
  | case7 s b t ih => rw [Ty.apply, Ty.apply, ih h]
  | case8 s t ih => rw [Ty.apply, Ty.apply, ih h]

namespace Equation

theorem Reduces.allMono {es es' : List Equation} {ps : Solution} (h : Reduces es ps es')
    (hm : AllMono es) : AllMono es' := by
  have solved : ∀ {rest : List Equation} {x : String} {u : Ty},
      AllMono rest → u.Mono → AllMono (replaceAll rest x u) := by
    intro rest x u hm hu e' he'
    obtain ⟨d, hd, rfl⟩ := mem_replaceAll (hm.not_mem_binders x) he'
    have hsingle : ∀ y, (Assignment.single x u y).Mono := by
      intro y
      by_cases hy : y = x
      · subst hy
        simpa [Assignment.single] using hu
      · rw [Assignment.single, Assignment.set_of_ne _ _ hy]
        trivial
    exact ⟨(hm d hd).1.apply hsingle, (hm d hd).2.apply hsingle⟩
  cases h with
  | drop t rest => exact hm.tail
  | solveLeft x u rest _ => exact solved hm.tail (hm _ List.mem_cons_self).2
  | solveRight x u rest _ => exact solved hm.tail (hm _ List.mem_cons_self).1
  | arrow a b c d rest | app a b c d rest =>
    obtain ⟨⟨ha, hb⟩, hc, hd⟩ := hm _ List.mem_cons_self
    intro e he
    simp only [List.mem_cons] at he
    rcases he with rfl | rfl | he
    · exact ⟨ha, hc⟩
    · exact ⟨hb, hd⟩
    · exact hm.tail e he
  | list a b rest =>
    intro e he
    rcases List.mem_cons.1 he with rfl | he
    · exact hm ⟨.list a, .list b⟩ List.mem_cons_self
    · exact hm.tail e he

/-- An assignment that gives a variable the type it is replaced by solves the same
equations before and after the replacement. -/
theorem solves_replaceAll {θ : Assignment} {rest : List Equation} {x : String} {u : Ty}
    (hx : x ∉ rest.flatMap binders) (hθ : θ x = u.apply θ) (h : θ.Solves rest) :
    θ.Solves (replaceAll rest x u) := by
  have absorb : ∀ t : Ty, (t.apply (.single x u)).apply θ = t.apply θ := by
    intro t
    rw [Ty.apply_apply]
    refine Ty.apply_congr fun y _ => ?_
    by_cases hy : y = x
    · subst hy
      rw [Assignment.single, Assignment.set_self, hθ]
    · rw [Assignment.single, Assignment.set_of_ne _ _ hy, Ty.apply_var]
  intro e' he'
  obtain ⟨e, he, rfl⟩ := mem_replaceAll hx he'
  rw [absorb, absorb]
  exact h e he

/-- **Step lemma.**  A step loses no solving assignment, and each of them agrees with
what the step records. -/
theorem Reduces.complete {es es' : List Equation} {ps : Solution} {θ : Assignment}
    (h : Reduces es ps es') (hm : BinderFree es) (hθ : θ.Solves es) :
    θ.Solves es' ∧ ∀ p ∈ ps, θ p.1 = p.2.apply θ := by
  cases h with
  | drop t rest =>
    rw [Assignment.solves_cons] at hθ
    exact ⟨hθ.2, by simp⟩
  | solveLeft x u rest _ =>
    rw [Assignment.solves_cons] at hθ
    exact ⟨solves_replaceAll (hm.tail.not_mem_binders x) hθ.1 hθ.2, by simpa using hθ.1⟩
  | solveRight x u rest _ =>
    rw [Assignment.solves_cons] at hθ
    exact ⟨solves_replaceAll (hm.tail.not_mem_binders x) hθ.1.symm hθ.2, by simpa using hθ.1.symm⟩
  | arrow a b c d rest =>
    rw [Assignment.solves_cons] at hθ
    obtain ⟨hac, hbd⟩ := Ty.arrow.inj hθ.1
    exact ⟨by simp [hac, hbd, hθ.2], by simp⟩
  | app f a g b rest =>
    rw [Assignment.solves_cons] at hθ
    obtain ⟨hfg, hab⟩ := Ty.app.inj hθ.1
    exact ⟨by simp [hfg, hab, hθ.2], by simp⟩
  | list a b rest =>
    rw [Assignment.solves_cons] at hθ
    exact ⟨by simp [Ty.list.inj hθ.1, hθ.2], by simp⟩

/-- A step binds no name where none was bound. -/
theorem Reduces.binderFree {es es' : List Equation} {ps : Solution} (h : Reduces es ps es')
    (hb : BinderFree es) : BinderFree es' := by
  have solved : ∀ {rest : List Equation} {x : String} {u : Ty},
      BinderFree rest → u.binders = [] → BinderFree (replaceAll rest x u) := by
    intro rest x u hrest hu e' he'
    obtain ⟨d, hd, rfl⟩ := mem_replaceAll (hrest.not_mem_binders x) he'
    have side : ∀ t : Ty, t.binders = [] → (t.apply (.single x u)).binders = [] := by
      intro t ht
      refine List.eq_nil_iff_forall_not_mem.2 fun y hy => ?_
      rcases Ty.mem_binders_apply hy with hy | ⟨z, -, hy⟩
      · simp [ht] at hy
      · by_cases hz : z = x
        · simp [hz, Assignment.single, hu] at hy
        · rw [Assignment.single, Assignment.set_of_ne _ _ hz] at hy
          simp [Ty.binders] at hy
    exact ⟨side _ (hrest d hd).1, side _ (hrest d hd).2⟩
  cases h with
  | drop t rest => exact hb.tail
  | solveLeft x u rest _ => exact solved hb.tail (hb _ List.mem_cons_self).2
  | solveRight x u rest _ => exact solved hb.tail (hb _ List.mem_cons_self).1
  | arrow a b c d rest | app a b c d rest =>
    obtain ⟨hl, hr⟩ := hb _ List.mem_cons_self
    simp only [Ty.binders, List.append_eq_nil_iff] at hl hr
    intro e he
    simp only [List.mem_cons] at he
    rcases he with rfl | rfl | he
    · exact ⟨hl.1, hr.1⟩
    · exact ⟨hl.2, hr.2⟩
    · exact hb.tail e he
  | list a b rest =>
    intro e he
    rcases List.mem_cons.1 he with rfl | he
    · exact hb ⟨.list a, .list b⟩ List.mem_cons_self
    · exact hb.tail e he

/-- Where unification is stuck, no assignment solves the equations. -/
theorem Stuck.not_solves {es : List Equation} {θ : Assignment} (h : Stuck es)
    (hb : BinderFree es) : ¬θ.Solves es := by
  intro hθ
  cases h with
  | occursRight x u rest hx hu =>
    have hlt := Ty.size_apply_lt (θ := θ) (Ty.mem_occurrences_of_free hx) hu
    have heq := (Assignment.solves_cons.1 hθ).1
    rw [Ty.apply_var] at heq
    rw [heq] at hlt
    exact Nat.lt_irrefl _ hlt
  | occursLeft x u rest hx hu =>
    have hlt := Ty.size_apply_lt (θ := θ) (Ty.mem_occurrences_of_free hx) hu
    have heq := (Assignment.solves_cons.1 hθ).1
    rw [Ty.apply_var] at heq
    rw [heq] at hlt
    exact Nat.lt_irrefl _ hlt
  | clash l r rest hl hr harrow happ hlist hne =>
    have heq := (Assignment.solves_cons.1 hθ).1
    obtain ⟨hbl, hbr⟩ := hb _ List.mem_cons_self
    -- an assignment keeps the outermost form of whatever is not a variable
    cases l with
    | var x => exact hl x rfl
    | poly => cases hbl
    | const c | missing =>
      cases r with
      | var y => exact hr y rfl
      | poly => cases hbr
      | const | missing => exact hne heq
      | arrow | app | list => cases heq
    | arrow a b =>
      cases r with
      | var y => exact hr y rfl
      | arrow c d => exact harrow a b c d rfl rfl
      | const | app | list | poly | missing => cases heq
    | app f a =>
      cases r with
      | var y => exact hr y rfl
      | app g b => exact happ f a g b rfl rfl
      | const | arrow | list | poly | missing => cases heq
    | list a =>
      cases r with
      | var y => exact hr y rfl
      | list b => exact hlist a b rfl rfl
      | const | arrow | app | poly | missing => cases heq

end Equation

/-- **Run lemma.**  If an assignment solves equations without binders then unification
succeeds, and the assignment agrees with every pair of the solution that is found. -/
theorem unify_complete_of_binderFree {es : List Equation} {θ : Assignment}
    (hb : Equation.BinderFree es) (hθ : θ.Solves es) :
    ∃ s, unify es = .ok s ∧ ∀ p ∈ s, θ p.1 = p.2.apply θ := by
  have run := unify_induction (motive := fun es r => Equation.BinderFree es → θ.Solves es →
      ∃ s, r = .ok s ∧ ∀ p ∈ s, θ p.1 = p.2.apply θ)
    (fun _ _ => ⟨[], rfl, by simp⟩) ?_ ?_ es
  · exact run hb hθ
  · intro es ps es' hr ih hb hθ
    obtain ⟨hθ', hps⟩ := hr.complete hb hθ
    obtain ⟨s, hs, hagree⟩ := ih (hr.binderFree hb) hθ'
    refine ⟨ps ++ s, by rw [hs]; rfl, fun p hp => ?_⟩
    rcases List.mem_append.1 hp with hp | hp
    · exact hps p hp
    · exact hagree p hp
  · intro es err hstuck hb hθ
    exact absurd hθ (hstuck.not_solves hb)

/-- The same between monotypes. -/
theorem unify_complete {es : List Equation} {θ : Assignment} (hm : Equation.AllMono es)
    (hθ : θ.Solves es) :
    ∃ s, unify es = .ok s ∧ ∀ p ∈ s, θ p.1 = p.2.apply θ :=
  unify_complete_of_binderFree hm.binderFree hθ

/-- **Unification is complete and most general.**  Where no equation holds a binder, a
failure means that no assignment makes the two sides of every equation the same, and
every assignment that does so factors through the solution that is found. -/
theorem unify_most_general (es : List Equation)
    (hes : ∀ e ∈ es, e.left.binders = [] ∧ e.right.binders = []) :
    (∀ err, unify es = .error err → ∀ θ : Assignment, ¬θ.Solves es) ∧
      ∀ s, unify es = .ok s → ∀ θ : Assignment, θ.Solves es →
        ∀ t : Ty, t.apply θ = (s.resolve t).apply θ := by
  refine ⟨fun err herr θ hθ => ?_, fun s hs θ hθ t => ?_⟩
  · obtain ⟨s, hs, -⟩ := unify_complete_of_binderFree hes hθ
    cases herr.symm.trans hs
  · obtain ⟨s', hs', hagree⟩ := unify_complete_of_binderFree hes hθ
    cases hs.symm.trans hs'
    exact (Solution.apply_resolve hagree t).symm

/-- A function that is applied to itself, whose variable has to contain itself, and one
that is applied to a list. -/
theorem unify_most_general_application :
    let self : List Equation := [⟨.var "2", .var "1"⟩, ⟨.var "2", .arrow (.var "1") (.var "3")⟩]
    let list : List Equation := [⟨.var "2", .var "1"⟩,
      ⟨.var "2", .arrow (.list (.var "4")) (.var "3")⟩]
    let s : Solution := [("2", .var "1"), ("1", .arrow (.list (.var "4")) (.var "3"))]
    unify self = .error (.infinite "1" (.arrow (.var "1") (.var "3"))) ∧
      (∀ θ : Assignment, ¬θ.Solves self) ∧ unify list = .ok s ∧
      ∀ θ : Assignment, θ.Solves list →
        θ "2" = .arrow (.list (θ "4")) (θ "3") := by
  intro self list s
  have hself : unify self = .error (.infinite "1" (.arrow (.var "1") (.var "3"))) := by cbv
  have hlist : unify list = .ok s := by cbv
  have hresolve : s.resolve (.var "2") = .arrow (.list (.var "4")) (.var "3") := by cbv
  refine ⟨hself, (unify_most_general self (by decide)).1 _ hself, hlist, fun θ hθ => ?_⟩
  have h := (unify_most_general list (by decide)).2 s hlist θ hθ (.var "2")
  rwa [hresolve] at h

/-! ## The variables and types of a solution -/

namespace Equation

theorem Reduces.solved_mono {es es' : List Equation} {ps : Solution} (h : Reduces es ps es')
    (hm : AllMono es) : ∀ p ∈ ps, p.2.Mono := by
  cases h with
  | solveLeft x u rest _ => simpa using (hm ⟨.var x, u⟩ (by simp)).2
  | solveRight x u rest _ => simpa using (hm ⟨u, .var x⟩ (by simp)).1
  | _ => simp

/-- Both sides of every equation are monotypes over variables as `P` says. -/
def AllOver (P : String → Prop) (es : List Equation) : Prop :=
  ∀ e ∈ es, e.left.Over P ∧ e.right.Over P

@[simp] theorem allOver_nil (P : String → Prop) : AllOver P [] := by simp [AllOver]

@[simp] theorem allOver_cons {P : String → Prop} {e : Equation} {es : List Equation} :
    AllOver P (e :: es) ↔ (e.left.Over P ∧ e.right.Over P) ∧ AllOver P es := by
  simp [AllOver]

@[simp] theorem allOver_append {P : String → Prop} {es es' : List Equation} :
    AllOver P (es ++ es') ↔ AllOver P es ∧ AllOver P es' := by
  simp only [AllOver, List.mem_append, or_imp, forall_and]
  exact and_and_and_comm

theorem AllOver.imp {P Q : String → Prop} {es : List Equation} (h : AllOver P es)
    (hPQ : ∀ x, P x → Q x) : AllOver Q es :=
  fun e he => ⟨(h e he).1.imp hPQ, (h e he).2.imp hPQ⟩

theorem AllOver.allMono {P : String → Prop} {es : List Equation} (h : AllOver P es) : AllMono es :=
  fun e he => ⟨(h e he).1.mono, (h e he).2.mono⟩

theorem AllOver.mem {P : String → Prop} {es : List Equation} (h : AllOver P es) {e : Equation}
    (he : e ∈ es) {x : String} (hx : x ∈ e.occurrences) : P x := by
  rcases List.mem_append.1 hx with hx | hx
  · exact (h e he).1.2 x hx
  · exact (h e he).2.2 x hx

end Equation

theorem unify_mono {es : List Equation} {s : Solution} (hm : Equation.AllMono es)
    (h : unify es = .ok s) : ∀ p ∈ s, p.2.Mono := by
  have run := unify_ok_induction (motive := fun es s => Equation.AllMono es → ∀ p ∈ s, p.2.Mono)
    (fun _ => by simp) (fun hr ih hm p hp => ?_) h
  · exact run hm
  · rcases List.mem_append.1 hp with hp | hp
    · exact hr.solved_mono hm p hp
    · exact ih (hr.allMono hm) p hp

theorem Solution.resolve_mono {s : Solution} (hs : ∀ p ∈ s, p.2.Mono) {t : Ty} (ht : t.Mono) :
    (s.resolve t).Mono := by
  fun_induction resolve s t with
  | case1 | case3 => trivial
  | case2 => exact ht
  | case4 s x t hx ih =>
    obtain ⟨l, r, rfl, -⟩ := List.lookup_eq_some_iff.1 hx
    exact ih (fun p hp => hs p (List.mem_filter.1 hp).1) (hs (x, t) (by simp))
  | case5 s a r iha ihr => exact ⟨iha hs ht.1, ihr hs ht.2⟩
  | case6 s f a ihf iha => exact ⟨ihf hs ht.1, iha hs ht.2⟩
  | case7 => exact ht.elim
  | case8 s t ih => exact ih hs ht

/-- Resolving leads to no variables but those of the equations and the type. -/
theorem unify_resolve_over {P : String → Prop} {es : List Equation} {s : Solution}
    (hes : Equation.AllOver P es) (h : unify es = .ok s) {t : Ty} (ht : t.Over P) :
    (s.resolve t).Over P := by
  refine ⟨Solution.resolve_mono (unify_mono hes.allMono h) ht.mono, fun y hy => ?_⟩
  rcases Solution.mem_occurrences_resolve hy with hy | ⟨p, hp, hy⟩
  · exact ht.2 y hy
  · obtain ⟨e, he, hy⟩ :=
      List.mem_flatMap.1 (((unify_answers hes.allMono.apart h).within p hp).2 y hy)
    exact hes.mem he hy

/-- A variable that is in none of the equations is not solved. -/
theorem unify_resolve_var {P : String → Prop} {es : List Equation} {s : Solution}
    (hes : Equation.AllOver P es) (h : unify es = .ok s) {x : String} (hx : ¬P x) :
    s.resolve (.var x) = .var x := by
  refine Solution.resolve_var_of_none (List.lookup_eq_none_iff.2 fun p hp => ?_)
  obtain ⟨e, he, hpe⟩ :=
    List.mem_flatMap.1 ((unify_answers hes.allMono.apart h).within p hp).1
  simpa using fun heq : x = p.1 => hx (heq ▸ hes.mem he hpe)

/-- The solution that is found is itself a solving assignment. -/
theorem unify_resolve_solves {es : List Equation} {s : Solution} (hes : Equation.Apart es)
    (h : unify es = .ok s) : Assignment.Solves (fun x => s.resolve (.var x)) es := by
  intro e he
  rw [← Solution.resolve_eq_apply, ← Solution.resolve_eq_apply]
  exact (unify_answers hes h).solves e he

end LetPoly
