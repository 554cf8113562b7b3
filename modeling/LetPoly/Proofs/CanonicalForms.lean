import LetPoly.Proofs.Permutation
import LetPoly.Proofs.Runs

/-! # Canonical forms

The canonical form of a type is made in two steps that do not depend on each other.
The leading binders are put in the order in which names are met, each once
(`Ty.arranged`), and then all names are replaced by their numbers in that order
(`Ty.canonical_eq`).  No two names get the same number, so the second step is an
injective renaming, and renaming does not change a canonical form
(`Ty.canonical_mapNames`).  The first step has nothing more to do on what it has made.

So a canonical form is its own, and where there are no leading binders to be arranged,
two types have the same canonical form if and only if they differ by an injective
renaming (`Ty.canonical_classifies`).
-/

namespace LetPoly

/-! ## Names in the order in which they are met -/

namespace Ty.Seen

/-- Several names are met, one after the other. -/
def meetAll (seen : Seen) (xs : List String) : Seen := xs.foldl meet seen

theorem meetAll_append (seen : Seen) (xs ys : List String) :
    seen.meetAll (xs ++ ys) = (seen.meetAll xs).meetAll ys := List.foldl_append

theorem meet_of_mem {seen : Seen} {x : String} (h : x ∈ seen) : seen.meet x = seen := if_pos h

theorem meet_of_not_mem {seen : Seen} {x : String} (h : x ∉ seen) :
    seen.meet x = seen ++ [x] := if_neg h

/-- **What is met joins the names that have been met**, each new name once. -/
theorem exists_meetAll (seen : Seen) (xs : List String) :
    ∃ new, seen.meetAll xs = seen ++ new ∧ new.Nodup ∧ ∀ x, x ∈ new ↔ x ∈ xs ∧ x ∉ seen := by
  induction xs generalizing seen with
  | nil => exact ⟨[], (List.append_nil seen).symm, List.nodup_nil, by simp⟩
  | cons y ys ih =>
    by_cases hy : y ∈ seen
    · obtain ⟨new, heq, hnodup, hmem⟩ := ih seen
      refine ⟨new, ?_, hnodup, fun x => ?_⟩
      · show (seen.meet y).meetAll ys = _
        rw [meet_of_mem hy, heq]
      · rw [hmem, List.mem_cons]
        exact ⟨fun h => ⟨.inr h.1, h.2⟩,
          fun h => ⟨h.1.resolve_left fun hxy => h.2 (hxy ▸ hy), h.2⟩⟩
    · obtain ⟨new, heq, hnodup, hmem⟩ := ih (seen ++ [y])
      refine ⟨y :: new, ?_, List.nodup_cons.2 ⟨?_, hnodup⟩, fun x => ?_⟩
      · show (seen.meet y).meetAll ys = _
        rw [meet_of_not_mem hy, heq, List.append_assoc, List.singleton_append]
      · rw [hmem]
        exact fun h => h.2 (by simp)
      · by_cases hxy : x = y
        · subst hxy
          simp [hy]
        · simp [hmem, hxy]

theorem mem_meetAll {seen : Seen} {xs : List String} {x : String} :
    x ∈ seen.meetAll xs ↔ x ∈ seen ∨ x ∈ xs := by
  obtain ⟨new, heq, -, hmem⟩ := exists_meetAll seen xs
  rw [heq, List.mem_append, hmem]
  by_cases hx : x ∈ seen <;> simp [hx]

/-- A name that has been met keeps its number. -/
theorem number_meetAll {seen : Seen} {x : String} (hx : x ∈ seen) (xs : List String) :
    (seen.meetAll xs).number x = seen.number x := by
  obtain ⟨new, heq, -, -⟩ := exists_meetAll seen xs
  rw [number, number, heq, List.idxOf_append_of_mem hx]

/-- No two names that have been met have the same number. -/
theorem number_injOn (seen : Seen) : Set.InjOn seen.number {x | x ∈ seen} := by
  intro x hx y _ hxy
  have hidx : seen.idxOf x = seen.idxOf y := Nat.succ.inj (natural_injective hxy)
  exact List.idxOf_inj hx |>.1 hidx

theorem meetAll_of_subset {seen : Seen} {xs : List String} (h : xs ⊆ seen) :
    seen.meetAll xs = seen := by
  obtain ⟨new, heq, -, hmem⟩ := exists_meetAll seen xs
  have hnil : new = [] := List.eq_nil_iff_forall_not_mem.2 fun x hx =>
    ((hmem x).1 hx).2 (h ((hmem x).1 hx).1)
  rw [heq, hnil, List.append_nil]

theorem meetAll_of_disjoint {seen : Seen} {xs : List String} (hnodup : xs.Nodup)
    (h : ∀ x ∈ xs, x ∉ seen) : seen.meetAll xs = seen ++ xs := by
  induction xs using List.reverseRecOn with
  | nil => exact (List.append_nil seen).symm
  | append_singleton xs x ih =>
    obtain ⟨hrest, -, hdisjoint⟩ := List.nodup_append.1 hnodup
    have hx : x ∉ seen ++ xs := by
      rw [List.mem_append]
      rintro (hmem | hmem)
      · exact h x (by simp) hmem
      · exact hdisjoint x hmem x (by simp) rfl
    rw [meetAll_append, ih hrest fun y hy => h y (by simp [hy])]
    exact (meet_of_not_mem hx).trans (List.append_assoc _ _ _)

/-- **Names that are met again in the order of the first time change nothing**: those that
had been met before stay where they are, and the new ones join in the same order. -/
theorem meetAll_filter (seen : Seen) (xs : List String) :
    seen.meetAll ((seen.meetAll xs).filter (· ∈ xs)) = seen.meetAll xs := by
  obtain ⟨new, heq, hnodup, hmem⟩ := exists_meetAll seen xs
  have hnew : new.filter (· ∈ xs) = new :=
    List.filter_eq_self.2 fun x hx => by simpa using ((hmem x).1 hx).1
  rw [heq, List.filter_append, hnew, meetAll_append,
    meetAll_of_subset (List.filter_subset_self seen),
    meetAll_of_disjoint hnodup fun x hx => ((hmem x).1 hx).2]

end Ty.Seen

namespace Ty

/-! ## Renaming -/

/-- **Gives every variable another name**, bound or not, where it is used and where it is
bound. -/
def mapNames (f : String → String) : Ty → Ty
  | .const c => .const c
  | .missing => .missing
  | .var x => .var (f x)
  | .arrow a r => .arrow (a.mapNames f) (r.mapNames f)
  | .app g a => .app (g.mapNames f) (a.mapNames f)
  | .poly b t => .poly (f b) (t.mapNames f)
  | .list t => .list (t.mapNames f)

/-- The names of a type from left to right, where they are used and where they are bound. -/
def names : Ty → List String
  | .const _ | .missing => []
  | .var x => [x]
  | .arrow a r => a.names ++ r.names
  | .app f a => f.names ++ a.names
  | .poly b t => b :: t.names
  | .list t => t.names

theorem mapNames_congr {f g : String → String} {t : Ty} (h : ∀ x ∈ t.names, f x = g x) :
    t.mapNames f = t.mapNames g := by
  induction t with
  | const | missing => rfl
  | var x => rw [mapNames, mapNames, h x (by simp [names])]
  | arrow a r iha ihr =>
    rw [mapNames, mapNames, iha fun x hx => h x (List.mem_append_left _ hx),
      ihr fun x hx => h x (List.mem_append_right _ hx)]
  | app p a ihp iha =>
    rw [mapNames, mapNames, ihp fun x hx => h x (List.mem_append_left _ hx),
      iha fun x hx => h x (List.mem_append_right _ hx)]
  | poly b t ih =>
    rw [mapNames, mapNames, h b List.mem_cons_self, ih fun x hx => h x (List.mem_cons_of_mem _ hx)]
  | list t ih => rw [mapNames, mapNames, ih h]

theorem names_mapNames (f : String → String) (t : Ty) : (t.mapNames f).names = t.names.map f := by
  induction t <;> simp_all [mapNames, names]

theorem mapNames_mapNames (f g : String → String) (t : Ty) :
    (t.mapNames f).mapNames g = t.mapNames (g ∘ f) := by
  induction t <;> simp_all [mapNames]

theorem permute_eq_mapNames (π : Equiv.Perm String) (t : Ty) : t.permute π = t.mapNames π := by
  induction t <;> simp_all [permute, mapNames]

theorem mapNames_bindAll (f : String → String) (xs : List String) (t : Ty) :
    (bindAll xs t).mapNames f = bindAll (xs.map f) (t.mapNames f) := by
  induction xs with
  | nil => rfl
  | cons x xs ih => exact congrArg (poly (f x)) ih

theorem names_bindAll (xs : List String) (t : Ty) : (bindAll xs t).names = xs ++ t.names := by
  induction xs with
  | nil => rfl
  | cons x xs ih => exact congrArg (x :: ·) ih

/-- A renaming that keeps the names of a type apart is one by a permutation. -/
theorem exists_permute_of_injOn {f : String → String} {t : Ty}
    (hf : Set.InjOn f {x | x ∈ t.names}) : ∃ π : Equiv.Perm String, t.mapNames f = t.permute π := by
  obtain ⟨π, hπ⟩ := Equiv.Perm.exists_extending_pair (fun x : {x // x ∈ t.names} => x.1)
    (fun x => f x.1) Subtype.val_injective fun x y hxy => Subtype.ext (hf x.2 y.2 hxy)
  refine ⟨π, ?_⟩
  rw [permute_eq_mapNames]
  exact mapNames_congr fun x hx => (hπ ⟨x, hx⟩).symm

/-- **Renaming does not change the canonical form.** -/
theorem canonical_mapNames {f : String → String} {t : Ty} (hf : Set.InjOn f {x | x ∈ t.names}) :
    (t.mapNames f).canonical = t.canonical := by
  obtain ⟨π, hπ⟩ := exists_permute_of_injOn hf
  rw [hπ, canonical_permute]

/-! ## The two steps -/

/-- Relabelling gives every name the number that it has in the end. -/
theorem relabel_eq (t : Ty) (seen : Seen) :
    t.relabel seen = (t.mapNames (seen.meetAll t.names).number, seen.meetAll t.names) := by
  -- what has been numbered in a part keeps its number in the rest
  have hkeeps (u : Ty) (seen : Seen) (xs : List String) :
      u.mapNames (seen.meetAll u.names).number =
        u.mapNames ((seen.meetAll u.names).meetAll xs).number :=
    mapNames_congr fun x hx => (Seen.number_meetAll (Seen.mem_meetAll.2 (.inr hx)) xs).symm
  induction t generalizing seen with
  | const | missing | var => rfl
  | arrow a r iha ihr =>
    simp only [relabel, iha, ihr, names, Seen.meetAll_append, mapNames]
    rw [hkeeps a seen r.names]
  | app f a ihf iha =>
    simp only [relabel, ihf, iha, names, Seen.meetAll_append, mapNames]
    rw [hkeeps f seen a.names]
  | poly b t ih =>
    have hb : b ∈ seen.meet b :=
      (Seen.mem_meetAll.2 (.inr List.mem_cons_self) : b ∈ seen.meetAll [b])
    rw [relabel, ih, mapNames, ← Seen.number_meetAll hb t.names]
    rfl
  | list t ih => rw [relabel, ih]; rfl

/-- The names of a type in the order in which they are numbered: those of its body, and
then the leading binders that do not appear there. -/
def order (t : Ty) : Seen := Seen.meetAll [] (t.unbind.2.names ++ t.unbind.1)

/-- **The type with its leading binders in order**, each once. -/
def arranged (t : Ty) : Ty := bindAll (t.order.filter (· ∈ t.unbind.1)) t.unbind.2

/-- **The canonical form is the arranged type with numbers for names.** -/
theorem canonical_eq (t : Ty) : t.canonical = t.arranged.mapNames t.order.number := by
  have horder : t.unbind.1.foldl Seen.meet (Seen.meetAll [] t.unbind.2.names) = t.order :=
    (Seen.meetAll_append _ _ _).symm
  simp only [canonical, relabel_eq, horder]
  rw [arranged, mapNames_bindAll]
  refine congrArg (bindAll _) (mapNames_congr fun x hx => ?_)
  rw [order, Seen.meetAll_append, Seen.number_meetAll (Seen.mem_meetAll.2 (.inr hx))]

theorem mem_order_of_arranged {t : Ty} {x : String} (h : x ∈ t.arranged.names) : x ∈ t.order := by
  rw [arranged, names_bindAll, List.mem_append] at h
  rcases h with h | h
  · exact (List.mem_filter.1 h).1
  · exact Seen.mem_meetAll.2 (.inr (List.mem_append_left _ h))

/-- Numbers keep the names of a type apart. -/
theorem number_injOn_arranged (t : Ty) :
    Set.InjOn t.order.number {x | x ∈ t.arranged.names} :=
  t.order.number_injOn.mono fun _ hx => mem_order_of_arranged hx

/-! ## Arranged types -/

theorem unbind_snd_ne (t : Ty) (b : String) (s : Ty) : t.unbind.2 ≠ .poly b s := by
  induction t with
  | poly c t ih => exact ih
  | const | var | arrow | app | list | missing => exact nofun

theorem unbind_arranged (t : Ty) :
    t.arranged.unbind = (t.order.filter (· ∈ t.unbind.1), t.unbind.2) :=
  unbind_bindAll _ t.unbind_snd_ne

theorem order_arranged (t : Ty) : t.arranged.order = t.order := by
  rw [order, unbind_arranged, order, Seen.meetAll_append, Seen.meetAll_append,
    Seen.meetAll_filter]

theorem arranged_arranged (t : Ty) : t.arranged.arranged = t.arranged := by
  rw [arranged, order_arranged, unbind_arranged]
  refine congrArg (bindAll · _) (List.filter_congr fun x hx => ?_)
  simp [hx]

theorem canonical_arranged (t : Ty) : t.arranged.canonical = t.canonical := by
  rw [canonical_eq, arranged_arranged, order_arranged, ← canonical_eq]

theorem arranged_of_ne {t : Ty} (h : ∀ b s, t ≠ .poly b s) : t.arranged = t := by
  rw [arranged, unbind_of_ne h]
  simp [bindAll]

/-! ## The canonical form classifies types -/

theorem canonical_canonical (t : Ty) : t.canonical.canonical = t.canonical := by
  rw [canonical_eq t, canonical_mapNames t.number_injOn_arranged, canonical_arranged,
    canonical_eq t]

/-- Where nothing has to be arranged, the canonical form is the type under other names. -/
theorem exists_permute_canonical {t : Ty} (h : ∀ b s, t ≠ .poly b s) :
    ∃ π : Equiv.Perm String, t.canonical = t.permute π := by
  obtain ⟨π, hπ⟩ := exists_permute_of_injOn t.number_injOn_arranged
  rw [← canonical_eq, arranged_of_ne h] at hπ
  exact ⟨π, hπ⟩

/-- **The canonical form is one**: a canonical form is its own canonical form, and two types
without leading binders have the same one if and only if they differ by an injective
renaming of all their names. -/
theorem canonical_classifies :
    (∀ t : Ty, t.canonical.canonical = t.canonical) ∧
      ∀ t u : Ty, (∀ b s, t ≠ .poly b s) → (∀ b s, u ≠ .poly b s) →
        (t.canonical = u.canonical ↔
          ∃ f : String → String, Function.Injective f ∧ u = t.mapNames f) := by
  refine ⟨canonical_canonical, fun t u ht hu => ⟨fun h => ?_, ?_⟩⟩
  · obtain ⟨π, hπ⟩ := exists_permute_canonical ht
    obtain ⟨ρ, hρ⟩ := exists_permute_canonical hu
    have hsame : u.permute ρ = t.permute π := by rw [← hρ, ← h, hπ]
    refine ⟨ρ.symm ∘ π, ρ.symm.injective.comp π.injective, ?_⟩
    rw [eq_permute_symm hsame, permute_eq_mapNames, permute_eq_mapNames, mapNames_mapNames]
  · rintro ⟨f, hf, rfl⟩
    exact (canonical_mapNames hf.injOn).symm

/-- A name that is bound in one type and free in the other, and a prefix that binds a name
twice and another one for nothing. -/
theorem canonical_classifies_exchanged :
    let t : Ty := .arrow (.var "x") (.poly "y" (.app (.var "y") (.var "x")))
    let u : Ty := .arrow (.var "y") (.poly "7" (.app (.var "7") (.var "y")))
    let σ : Ty := .poly "z" (.poly "x" (.poly "z" (.poly "w" t)))
    t.canonical = u.canonical ∧
      (∃ f : String → String, Function.Injective f ∧ u = t.mapNames f) ∧
      σ.canonical = .poly "1" (.poly "3" (.poly "4" t.canonical)) ∧
      σ.canonical.canonical = σ.canonical := by
  intro t u σ
  have h : t.canonical = u.canonical := by decide
  have ht : ∀ b s, t ≠ .poly b s := by simp [t]
  have hu : ∀ b s, u ≠ .poly b s := by simp [u]
  exact ⟨h, (canonical_classifies.2 t u ht hu).1 h, by decide, canonical_classifies.1 σ⟩

end Ty

end LetPoly
