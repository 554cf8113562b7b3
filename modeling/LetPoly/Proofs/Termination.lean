import LetPoly.Proofs.Unification

/-! # Unification comes to an end

Equations are solved by a loop: while an equation is left, the next one is dropped,
solved for a variable, taken apart or refused (`Unifying.turn`).  The loop ends for all
equations, with the answer that `unify` gives (`Unifying.ends_unify`).

A variable that has been solved is no longer free in the equations that are left, so
the pairs that the loop records are **triangular**: no two of them solve the same
variable, and the variable of a pair is free neither in the pair's own type nor in that
of a later pair.  This holds of all types, those that bind names included.

To resolve a type is to follow its variables through the pairs (`Solution.Chases`,
`Solution.Reaches`).  Nothing in the way this is done sees to it that it ends: a looked-up
type is no part of the type at hand, and where a name is both bound and free in the
equations, a type may lead back to the variable that it solves (`Solution.not_reaches`).
Where no name is, every pair leads to later pairs only, and following ends with the resolved
type (`Solution.Triangular.reaches_resolve`).
-/

namespace LetPoly

/-! ## The loop over the equations -/

/-- Where the loop stands: the equations that are left and the pairs recorded so far, or
the answer. -/
inductive Unifying where
  | working (pending : List Equation) (solved : Solution)
  | done (answer : Except TypeError Solution)

namespace Unifying

/-- **One turn of the loop.** -/
def turn : Unifying → Unifying
  | .done answer => .done answer
  | .working [] solved => .done (.ok solved)
  | .working (⟨l, r⟩ :: rest) solved =>
    if l = r then
      .working rest solved
    else
      match l, r with
      | .var x, r =>
        if r.occurs x then
          .done (.error (.infinite x r))
        else
          .working (Equation.replaceAll rest x r) (solved ++ [(x, r)])
      | l, .var x =>
        if l.occurs x then
          .done (.error (.infinite x l))
        else
          .working (Equation.replaceAll rest x l) (solved ++ [(x, l)])
      | .arrow a b, .arrow c d => .working (⟨a, c⟩ :: ⟨b, d⟩ :: rest) solved
      | .app f a, .app g b => .working (⟨f, g⟩ :: ⟨a, b⟩ :: rest) solved
      | .list a, .list b => .working (⟨a, b⟩ :: rest) solved
      | l, r => .done (.error (.mismatch l r))

/-- Some number of turns leads to the answer. -/
def Ends (u : Unifying) (answer : Except TypeError Solution) : Prop :=
  ∃ n, turn^[n] u = .done answer

theorem ends_done (answer : Except TypeError Solution) : (done answer).Ends answer := ⟨0, rfl⟩

theorem ends_of_turn {u v : Unifying} {answer : Except TypeError Solution} (h : u.turn = v)
    (hv : v.Ends answer) : u.Ends answer := by
  obtain ⟨n, hn⟩ := hv
  exact ⟨n + 1, by rw [Function.iterate_succ_apply, h, hn]⟩

theorem map_record (solved : Solution) (p : String × Ty) (r : Except TypeError Solution) :
    (r.map (p :: ·)).map (solved ++ ·) = r.map (solved ++ [p] ++ ·) := by
  cases r with
  | error => rfl
  | ok s => simp [Except.map]

/-- **The loop ends**, whatever the equations, and its answer is that of `unify`. -/
theorem ends_unify (es : List Equation) (solved : Solution) :
    (working es solved).Ends ((unify es).map (solved ++ ·)) := by
  -- `unify` is called again for the equations that a turn leaves, with fewer variables or a
  -- smaller size, so its own induction is the one to use
  have refused {u : Unifying} {err : TypeError} (h : u.turn = done (.error err)) :
      u.Ends (.error err) := ends_of_turn h (ends_done _)
  fun_induction unify es generalizing solved with
  | case1 => exact ends_of_turn (by rw [turn]) (by simpa [Except.map] using ends_done _)
  | case2 t rest ih => exact ends_of_turn (by cases t <;> simp only [turn, if_true]) (ih solved)
  | case3 rest x u hx hne => exact refused (by rw [turn, if_neg hne, if_pos hx])
  | case4 rest x u hx hne ih =>
    rw [map_record]
    exact ends_of_turn (by rw [turn, if_neg hne, if_neg hx]) (ih _)
  | case5 rest u x hu hx hne => exact refused (by rw [turn, if_neg hne, if_pos hx]; exact hu)
  | case6 rest u x hu hx hne ih =>
    rw [map_record]
    exact ends_of_turn (by rw [turn, if_neg hne, if_neg hx]; exact hu) (ih _)
  | case7 rest a b c d hne ih => exact ends_of_turn (by rw [turn, if_neg hne]) (ih solved)
  | case8 rest f a g b hne ih => exact ends_of_turn (by rw [turn, if_neg hne]) (ih solved)
  | case9 rest a b hne ih => exact ends_of_turn (by rw [turn, if_neg hne]) (ih solved)
  | case10 rest l r hl hr harrow happ hlist hne =>
    exact refused (by rw [turn, if_neg hne] <;> assumption)

end Unifying

/-! ## The recorded pairs -/

namespace Solution

/-- The variable of a pair is not that of a later one, and is free neither in the type of
the pair nor in that of a later one. -/
structure FreelyTriangular (s : Solution) : Prop where
  distinct : (s.map Prod.fst).Nodup
  own : ∀ p ∈ s, p.1 ∉ p.2.freeOccurrences
  later : s.Pairwise fun p q => p.1 ∉ q.2.freeOccurrences

/-- The pairs hold no other free variables than the equations do. -/
def DrawnFrom (s : Solution) (es : List Equation) : Prop :=
  ∀ p ∈ s, p.1 ∈ es.flatMap Equation.vars ∧ p.2.freeOccurrences ⊆ es.flatMap Equation.vars

end Solution

namespace Equation

/-- No step makes a variable free in the equations. -/
theorem Reduces.vars_subset {es es' : List Equation} {ps : Solution} (h : Reduces es ps es') :
    es'.flatMap vars ⊆ es.flatMap vars := by
  intro y hy
  cases h with
  | drop t rest => exact List.mem_append_right _ hy
  | solveLeft x u rest hx =>
    simp only [List.flatMap_cons, vars, List.mem_append]
    exact (mem_vars_replaceAll hx hy).2.symm.imp_left .inr
  | solveRight x u rest hx =>
    simp only [List.flatMap_cons, vars, List.mem_append]
    exact (mem_vars_replaceAll hx hy).2.symm.imp_left .inl
  | arrow a b c d rest | app a b c d rest =>
    simp only [List.flatMap_cons, vars, Ty.freeOccurrences, List.mem_append] at hy ⊢
    grind
  | list a b rest => exact hy

/-- What a step records is drawn from the equations, and the variable that it solves is no
longer free in those that are left. -/
theorem Reduces.solved_free {es es' : List Equation} {ps : Solution} (h : Reduces es ps es') :
    ps = [] ∨ ∃ x u, ps = [(x, u)] ∧ x ∉ u.freeOccurrences ∧ x ∉ es'.flatMap vars ∧
      x ∈ es.flatMap vars ∧ u.freeOccurrences ⊆ es.flatMap vars := by
  cases h with
  | drop | arrow | app | list => exact .inl rfl
  | solveLeft x u rest hx =>
    refine .inr ⟨x, u, rfl, hx, fun hmem => (mem_vars_replaceAll hx hmem).1 rfl, ?_, ?_⟩
    · simp [vars, Ty.freeOccurrences]
    · simp [vars]
  | solveRight x u rest hx =>
    refine .inr ⟨x, u, rfl, hx, fun hmem => (mem_vars_replaceAll hx hmem).1 rfl, ?_, ?_⟩
    · simp [vars, Ty.freeOccurrences]
    · simp [vars]

/-- **Step lemma.**  Pairs drawn from what a step leaves stay triangular with what it records
in front of them. -/
theorem Reduces.triangular {es es' : List Equation} {ps s : Solution} (h : Reduces es ps es')
    (hs : s.FreelyTriangular) (hdrawn : s.DrawnFrom es') :
    (ps ++ s).FreelyTriangular ∧ (ps ++ s).DrawnFrom es := by
  have hwider : s.DrawnFrom es := fun p hp =>
    ⟨h.vars_subset (hdrawn p hp).1, fun y hy => h.vars_subset ((hdrawn p hp).2 hy)⟩
  rcases h.solved_free with rfl | ⟨x, u, rfl, hxu, hgone, hx, hu⟩
  · exact ⟨hs, hwider⟩
  · refine ⟨⟨?_, ?_, ?_⟩, List.forall_mem_cons.2 ⟨⟨hx, hu⟩, hwider⟩⟩
    · refine List.nodup_cons.2 ⟨fun hmem => ?_, hs.distinct⟩
      obtain ⟨p, hp, rfl⟩ := List.mem_map.1 hmem
      exact hgone (hdrawn p hp).1
    · exact List.forall_mem_cons.2 ⟨hxu, hs.own⟩
    · exact List.pairwise_cons.2 ⟨fun p hp hmem => hgone ((hdrawn p hp).2 hmem), hs.later⟩

end Equation

/-- **Run lemma.** -/
theorem unify_drawn {es : List Equation} {s : Solution} (h : unify es = .ok s) :
    s.FreelyTriangular ∧ s.DrawnFrom es :=
  unify_ok_induction (motive := fun es s => s.FreelyTriangular ∧ s.DrawnFrom es)
    ⟨⟨by simp, by simp, by simp⟩, by simp [Solution.DrawnFrom]⟩
    (fun hr ih => hr.triangular ih.1 ih.2) h

theorem unify_triangular {es : List Equation} {s : Solution} (h : unify es = .ok s) :
    s.FreelyTriangular :=
  (unify_drawn h).1

/-! ## Following solved variables -/

namespace Solution

/-- **Following a variable** from pair to pair ends at the first type that is not a variable,
or at a variable that is not solved. -/
inductive Chases (s : Solution) : Ty → Ty → Prop
  | other {t : Ty} (ht : ∀ x, t ≠ .var x) : Chases s t t
  | last {x : String} (hx : s.lookup x = none) : Chases s (.var x) (.var x)
  | next {x : String} {t u : Ty} (hx : s.lookup x = some t) (rest : Chases s t u) :
      Chases s (.var x) u

/-- **Following all variables of a type**, those of the types that they lead to included, ends
with a second type.  There is none if one of the variables is followed without end. -/
inductive Reaches (s : Solution) : Ty → Ty → Prop
  | const (c : String) : Reaches s (.const c) (.const c)
  | missing : Reaches s .missing .missing
  | unsolved {x y : String} (chased : s.Chases (.var x) (.var y)) : Reaches s (.var x) (.var y)
  | solved {x : String} {t u : Ty} (chased : s.Chases (.var x) t) (ht : ∀ y, t ≠ .var y)
      (rest : Reaches s t u) : Reaches s (.var x) u
  | arrow {a r a' r' : Ty} (argument : Reaches s a a') (result : Reaches s r r') :
      Reaches s (.arrow a r) (.arrow a' r')
  | app {f a f' a' : Ty} (constructor : Reaches s f f') (argument : Reaches s a a') :
      Reaches s (.app f a) (.app f' a')
  | poly {b : String} {t t' : Ty} (body : Reaches s t t') : Reaches s (.poly b t) (.poly b t')
  | list {t t' : Ty} (element : Reaches s t t') : Reaches s (.list t) (.list t')

/-- The place of the pair that solves a variable; the number of pairs, if there is none. -/
def place (s : Solution) (x : String) : Nat := (s.map Prod.fst).idxOf x

theorem place_cons_self (x : String) (u : Ty) (s : Solution) : place ((x, u) :: s) x = 0 := by
  simp [place]

theorem place_cons_of_ne {x y : String} (h : y ≠ x) (u : Ty) (s : Solution) :
    place ((x, u) :: s) y = s.place y + 1 := by
  simp [place, Ne.symm h]

variable {s : Solution}

theorem mem_of_lookup {x : String} {u : Ty} (h : s.lookup x = some u) : (x, u) ∈ s := by
  obtain ⟨l, r, rfl, -⟩ := List.lookup_eq_some_iff.1 h
  simp

theorem place_lt_length {x : String} {u : Ty} (h : s.lookup x = some u) :
    s.place x < s.length := by
  rw [place, ← List.length_map (f := Prod.fst), List.idxOf_lt_length_iff]
  exact List.mem_map.2 ⟨_, mem_of_lookup h, rfl⟩

/-- A variable is solved by the first pair, or by one of the others. -/
theorem lookup_cons_cases {x z : String} {u v : Ty} (h : List.lookup x ((z, v) :: s) = some u) :
    x = z ∧ u = v ∨ x ≠ z ∧ s.lookup x = some u := by
  by_cases hxz : x = z
  · subst hxz
    rw [List.lookup_cons_self, Option.some.injEq] at h
    exact .inl ⟨rfl, h.symm⟩
  · rw [List.lookup_cons, beq_false_of_ne hxz] at h
    exact .inr ⟨hxz, h⟩

/-- **A pair leads to later pairs only.** -/
theorem Triangular.place_lt (hs : s.Triangular) {x y : String} {u : Ty}
    (hx : s.lookup x = some u) (hy : y ∈ u.occurrences) : s.place x < s.place y := by
  induction s with
  | nil => cases hx
  | cons p s ih =>
    obtain ⟨z, v⟩ := p
    obtain ⟨hv, hlater, hs⟩ := hs
    rcases lookup_cons_cases hx with ⟨rfl, rfl⟩ | ⟨hxz, hx⟩
    · have hyx : y ≠ x := fun heq => hv (heq ▸ hy)
      rw [place_cons_self, place_cons_of_ne hyx]
      exact Nat.succ_pos _
    · have hyz : y ≠ z := fun heq => (hlater _ (mem_of_lookup hx)).2 (heq ▸ hy)
      rw [place_cons_of_ne hxz, place_cons_of_ne hyz]
      exact Nat.succ_lt_succ (ih hs hx)

/-- A variable and the type that solves it resolve to the same type. -/
theorem Triangular.resolve_lookup (hs : s.Triangular) {x : String} {u : Ty}
    (hx : s.lookup x = some u) : s.resolve u = s.resolve (.var x) := by
  induction s with
  | nil => cases hx
  | cons p s ih =>
    obtain ⟨z, v⟩ := p
    have hkept {t : Ty} (ht : z ∉ t.occurrences) : t.apply (.single z v) = t :=
      Ty.apply_eq_self fun y hy => Assignment.set_of_ne _ _ fun heq => ht (heq ▸ hy)
    rw [resolve_cons hs, resolve_cons hs]
    obtain ⟨hv, hlater, hs⟩ := hs
    rcases lookup_cons_cases hx with ⟨rfl, rfl⟩ | ⟨hxz, hx⟩
    · rw [hkept hv, Ty.apply_var, Assignment.single, Assignment.set_self]
    · rw [hkept (hlater _ (mem_of_lookup hx)).2,
        hkept (by simpa [Ty.occurrences] using Ne.symm hxz), ih hs hx]

/-- There is one end to a chase. -/
theorem Chases.unique {t u v : Ty} (hu : s.Chases t u) (hv : s.Chases t v) : u = v := by
  induction hu with
  | other ht =>
    cases hv with
    | other => rfl
    | last | next => exact absurd rfl (ht _)
  | last hx =>
    cases hv with
    | other ht => exact absurd rfl (ht _)
    | last => rfl
    | next hx' => rw [hx] at hx'; cases hx'
  | next hx _ ih =>
    cases hv with
    | other ht => exact absurd rfl (ht _)
    | last hx' => rw [hx] at hx'; cases hx'
    | next hx' rest =>
      rw [hx, Option.some.injEq] at hx'
      exact ih (hx' ▸ rest)

/-- There is one type that a type reaches. -/
theorem Reaches.unique {t u v : Ty} (hu : s.Reaches t u) (hv : s.Reaches t v) : u = v := by
  induction hu generalizing v with
  | const | missing => cases hv; rfl
  | unsolved chased =>
    cases hv with
    | unsolved chased' => exact chased.unique chased'
    | solved chased' ht => exact absurd (chased'.unique chased) (ht _)
  | solved chased ht _ ih =>
    cases hv with
    | unsolved chased' => exact absurd (chased.unique chased') (ht _)
    | solved chased' _ rest => exact ih (chased'.unique chased ▸ rest)
  | arrow _ _ iha ihr =>
    cases hv with
    | arrow ha hr => rw [iha ha, ihr hr]
  | app _ _ ihf iha =>
    cases hv with
    | app hf ha => rw [ihf hf, iha ha]
  | poly _ ih =>
    cases hv with
    | poly ht => rw [ih ht]
  | list _ ih =>
    cases hv with
    | list ht => rw [ih ht]

/-- A variable is followed to one that is not solved, or to a type that leads to later pairs
only. -/
theorem Triangular.chases_var (hs : s.Triangular) (x : String) :
    ∃ t, s.Chases (.var x) t ∧ s.resolve t = s.resolve (.var x) ∧
      ((∃ y, t = .var y ∧ s.lookup y = none) ∨
        (∀ y, t ≠ .var y) ∧ s.place x < s.length ∧ ∀ y ∈ t.occurrences, s.place x < s.place y) := by
  induction hn : s.length - s.place x using Nat.strong_induction_on generalizing x with
  | _ n ih =>
    cases hx : s.lookup x with
    | none => exact ⟨.var x, .last hx, rfl, .inl ⟨x, rfl, hx⟩⟩
    | some t =>
      have hlt := place_lt_length hx
      rw [← hs.resolve_lookup hx]
      by_cases ht : ∃ y, t = .var y
      · obtain ⟨y, rfl⟩ := ht
        have hxy := hs.place_lt hx (List.mem_singleton_self y)
        obtain ⟨u, hu, hresolve, hend⟩ := ih _ (by omega) y rfl
        refine ⟨u, .next hx hu, hresolve, hend.imp_right fun ⟨hvar, _, hlater⟩ => ⟨hvar, hlt, ?_⟩⟩
        exact fun z hz => Nat.lt_trans hxy (hlater z hz)
      · have ht : ∀ y, t ≠ .var y := not_exists.1 ht
        exact ⟨t, .next hx (.other ht), rfl, .inr ⟨ht, hlt, fun y hy => hs.place_lt hx hy⟩⟩

/-- **Every chase ends.** -/
theorem Triangular.existsUnique_chases (hs : s.Triangular) (t : Ty) : ∃! u, s.Chases t u := by
  have hends : ∃ u, s.Chases t u := by
    by_cases ht : ∃ x, t = .var x
    · obtain ⟨x, rfl⟩ := ht
      obtain ⟨u, hu, -⟩ := hs.chases_var x
      exact ⟨u, hu⟩
    · exact ⟨t, .other (not_exists.1 ht)⟩
  obtain ⟨u, hu⟩ := hends
  exact ⟨u, hu, fun v hv => hv.unique hu⟩

/-- **Following ends with the resolved type.** -/
theorem Triangular.reaches_resolve (hs : s.Triangular) (t : Ty) : s.Reaches t (s.resolve t) := by
  -- the outer induction is on the pairs that the variables of the type can still lead to
  have within (n : Nat) : ∀ t : Ty, (∀ y ∈ t.occurrences, s.length - s.place y ≤ n) →
      s.Reaches t (s.resolve t) := by
    induction n using Nat.strong_induction_on with
    | _ n ihn =>
      intro t ht
      induction t with
      | const c =>
        rw [resolve]
        exact .const c
      | missing =>
        rw [resolve]
        exact .missing
      | var x =>
        obtain ⟨u, hchase, hresolve, ⟨y, rfl, hy⟩ | ⟨hu, hlt, hlater⟩⟩ := hs.chases_var x
        · rw [← hresolve, resolve_var_of_none hy]
          exact .unsolved hchase
        · have hn := ht x (List.mem_singleton_self x)
          rw [← hresolve]
          refine .solved hchase hu (ihn (s.length - s.place x - 1) (by omega) u fun y hy => ?_)
          have := hlater y hy
          omega
      | arrow a r iha ihr =>
        obtain ⟨ha, hr⟩ := List.forall_mem_append.1 ht
        rw [resolve]
        exact .arrow (iha ha) (ihr hr)
      | app f a ihf iha =>
        obtain ⟨hf, ha⟩ := List.forall_mem_append.1 ht
        rw [resolve]
        exact .app (ihf hf) (iha ha)
      | poly b t ih =>
        rw [resolve]
        exact .poly (ih ht)
      | list t ih =>
        rw [resolve]
        exact .list (ih ht)
  exact within s.length t fun y _ => Nat.sub_le _ _

/-- Following has no end at a variable that stands in the type that it leads to, be it as a
bound one. -/
theorem not_reaches {x : String} {u : Ty} (hx : s.lookup x = some u) (hu : ∀ y, u ≠ .var y)
    (hmem : x ∈ u.occurrences) (r : Ty) : ¬ s.Reaches (.var x) r := by
  have hchase : s.Chases (.var x) u := .next hx (.other hu)
  -- whatever has an end does not mention the variable
  have avoids {t r : Ty} (h : s.Reaches t r) : x ∉ t.occurrences := by
    induction h with
    | const | missing => simp [Ty.occurrences]
    | unsolved chased =>
      intro hy
      obtain rfl := List.mem_singleton.1 hy
      exact hu _ (hchase.unique chased)
    | solved chased _ _ ih =>
      intro hy
      obtain rfl := List.mem_singleton.1 hy
      exact ih (chased.unique hchase ▸ hmem)
    | arrow _ _ iha ihb | app _ _ iha ihb =>
      exact fun hx => (List.mem_append.1 hx).elim iha ihb
    | poly _ ih | list _ ih => exact ih
  exact fun h => avoids h (List.mem_singleton_self x)

end Solution

/-- **Unification terminates, and its answer is triangular.**  The loop over the equations
ends, whatever they are.  If it finds a solution then the solved variables are distinct, and
none of them is free in the type of its own pair or of a later one.  If moreover no name that
is bound in the equations is free in them, then following ends for every type: that of one
variable, and that of all variables, which ends with the resolved type and no other. -/
theorem unify_terminates (es : List Equation) :
    (∃ n, Unifying.turn^[n] (.working es []) = .done (unify es)) ∧
      ∀ s, unify es = .ok s →
        ((s.map Prod.fst).Nodup ∧ (∀ p ∈ s, p.1 ∉ p.2.freeOccurrences) ∧
          s.Pairwise fun p q => p.1 ∉ q.2.freeOccurrences) ∧
        ((∀ x ∈ es.flatMap Equation.binders, x ∉ es.flatMap Equation.vars) →
          (∀ t, ∃! u, s.Chases t u) ∧ ∀ t u, s.Reaches t u ↔ u = s.resolve t) := by
  have hmap : (unify es).map (([] : Solution) ++ ·) = unify es := by cases unify es <;> rfl
  refine ⟨hmap ▸ Unifying.ends_unify es [], fun s hs => ?_⟩
  have htri := unify_triangular hs
  refine ⟨⟨htri.distinct, htri.own, htri.later⟩, fun hapart => ?_⟩
  have hs := (unify_answers hapart hs).triangular
  refine ⟨hs.existsUnique_chases, fun t u => ⟨fun hu => hu.unique (hs.reaches_resolve t), ?_⟩⟩
  rintro rfl
  exact hs.reaches_resolve t

/-- Equations with a missing type and a scheme; the type of the first pair leads to the
second one, and that to a variable under the binder of the third. -/
theorem unify_terminates_chain :
    let es : List Equation := [⟨.var "1", .list (.var "2")⟩, ⟨.missing, .missing⟩,
      ⟨.arrow (.var "2") .int, .arrow (.var "3") .int⟩,
      ⟨.poly "a" (.arrow (.var "a") (.var "2")), .var "4"⟩]
    let scheme : Ty := .poly "a" (.arrow (.var "a") (.var "3"))
    let s : Solution := [("1", .list (.var "2")), ("2", .var "3"), ("4", scheme)]
    unify es = .ok s ∧ (∀ x ∈ es.flatMap Equation.binders, x ∉ es.flatMap Equation.vars) ∧
      (∃ n, Unifying.turn^[n] (.working es []) = .done (.ok s)) ∧
      s.Reaches (.arrow (.var "1") (.var "4")) (.arrow (.list (.var "3")) scheme) := by
  intro es scheme s
  have hs : unify es = .ok s := by cbv
  have hapart : ∀ x ∈ es.flatMap Equation.binders, x ∉ es.flatMap Equation.vars := by decide
  have hresolve : s.resolve (.arrow (.var "1") (.var "4")) =
      .arrow (.list (.var "3")) scheme := by cbv
  obtain ⟨hends, hall⟩ := unify_terminates es
  exact ⟨hs, hapart, hs ▸ hends, (((hall s hs).2 hapart).2 _ _).2 hresolve.symm⟩

end LetPoly
