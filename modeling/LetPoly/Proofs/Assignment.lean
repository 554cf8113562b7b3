import LetPoly.Ty.Unify

/-! # Assignments of types to variables

An assignment gives every variable a type, and is carried over to types node by
node.  Binders do not stop it, as they do not stop the resolution of a type by a
solution; on monotypes, the types without binders, there is nothing to stop.

A single replacement and a simultaneous substitution are assignments where no
binder is in their way (`Ty.replace_eq_apply`, `Ty.Mono.subst_eq_apply`), so what
is known of assignments is known of both.
-/

namespace LetPoly

/-- A type for every variable. -/
abbrev Assignment := String → Ty

namespace Assignment

/-- The assignment that gives one variable another type. -/
def set (θ : Assignment) (x : String) (u : Ty) : Assignment := fun y => if y = x then u else θ y

@[simp] theorem set_self (θ : Assignment) (x : String) (u : Ty) : θ.set x u x = u := by
  simp [set]

theorem set_of_ne (θ : Assignment) {x y : String} (u : Ty) (h : y ≠ x) : θ.set x u y = θ y := by
  simp [set, h]

theorem set_set (θ : Assignment) (x : String) (u v : Ty) : (θ.set x u).set x v = θ.set x v := by
  funext y
  by_cases h : y = x <;> simp [set, h]

theorem set_comm (θ : Assignment) {x y : String} (u v : Ty) (h : x ≠ y) :
    (θ.set x u).set y v = (θ.set y v).set x u := by
  funext z
  by_cases hx : z = x
  · subst hx
    simp [set, h]
  · simp [set, hx]

/-- The assignment that replaces one variable and leaves the others. -/
def single (x : String) (u : Ty) : Assignment := set .var x u

/-- The assignment that follows another one on some variables. -/
def override (θ : Assignment) (xs : List String) (δ : Assignment) : Assignment :=
  fun y => if y ∈ xs then δ y else θ y

theorem override_of_mem {θ δ : Assignment} {xs : List String} {y : String} (h : y ∈ xs) :
    θ.override xs δ y = δ y := by
  simp [override, h]

theorem override_of_not_mem {θ δ : Assignment} {xs : List String} {y : String} (h : y ∉ xs) :
    θ.override xs δ y = θ y := by
  simp [override, h]

end Assignment

namespace Ty

/-! ## Carrying an assignment over to types -/

/-- Replaces every variable by the type it is given, bound or not. -/
def apply (θ : Assignment) : Ty → Ty
  | .const c => .const c
  | .missing => .missing
  | .var x => θ x
  | .arrow a r => .arrow (a.apply θ) (r.apply θ)
  | .app f a => .app (f.apply θ) (a.apply θ)
  | .poly b t => .poly b (t.apply θ)
  | .list t => .list (t.apply θ)

@[simp] theorem apply_const (θ : Assignment) (c : String) : (const c).apply θ = const c := rfl

@[simp] theorem apply_var (θ : Assignment) (x : String) : (var x).apply θ = θ x := rfl

@[simp] theorem apply_arrow (θ : Assignment) (a r : Ty) :
    (arrow a r).apply θ = arrow (a.apply θ) (r.apply θ) := rfl

@[simp] theorem apply_app (θ : Assignment) (f a : Ty) :
    (app f a).apply θ = app (f.apply θ) (a.apply θ) := rfl

@[simp] theorem apply_poly (θ : Assignment) (b : String) (t : Ty) :
    (poly b t).apply θ = poly b (t.apply θ) := rfl

@[simp] theorem apply_list (θ : Assignment) (t : Ty) : (list t).apply θ = list (t.apply θ) := rfl

@[simp] theorem apply_int (θ : Assignment) : int.apply θ = int := rfl

@[simp] theorem apply_bool (θ : Assignment) : bool.apply θ = bool := rfl

@[simp] theorem apply_string (θ : Assignment) : string.apply θ = string := rfl

@[simp] theorem apply_unit (θ : Assignment) : unit.apply θ = unit := rfl

/-- Only the variables that occur count. -/
theorem apply_congr {θ θ' : Assignment} {t : Ty} (h : ∀ x ∈ t.occurrences, θ x = θ' x) :
    t.apply θ = t.apply θ' := by
  induction t with
  | const | missing => rfl
  | var x => exact h x (List.mem_singleton_self x)
  | arrow a r iha ihr =>
    obtain ⟨ha, hr⟩ := List.forall_mem_append.1 h
    rw [apply_arrow, apply_arrow, iha ha, ihr hr]
  | app f a ihf iha =>
    obtain ⟨hf, ha⟩ := List.forall_mem_append.1 h
    rw [apply_app, apply_app, ihf hf, iha ha]
  | poly b t ih => rw [apply_poly, apply_poly, ih h]
  | list t ih => rw [apply_list, apply_list, ih h]

@[simp] theorem apply_id (t : Ty) : t.apply .var = t := by
  induction t with
  | const | missing | var => rfl
  | arrow a r iha ihr => simp [iha, ihr]
  | app f a ihf iha => simp [ihf, iha]
  | poly b t ih => simp [ih]
  | list t ih => simp [ih]

theorem apply_eq_self {θ : Assignment} {t : Ty} (h : ∀ x ∈ t.occurrences, θ x = .var x) :
    t.apply θ = t := by
  rw [apply_congr h, apply_id]

/-- One assignment after another. -/
theorem apply_apply (θ θ' : Assignment) (t : Ty) :
    (t.apply θ).apply θ' = t.apply fun x => (θ x).apply θ' := by
  induction t with
  | const | missing | var => rfl
  | arrow a r iha ihr => simp [iha, ihr]
  | app f a ihf iha => simp [ihf, iha]
  | poly b t ih => simp [ih]
  | list t ih => simp [ih]

theorem mem_occurrences_apply {θ : Assignment} {t : Ty} {y : String} :
    y ∈ (t.apply θ).occurrences ↔ ∃ x ∈ t.occurrences, y ∈ (θ x).occurrences := by
  induction t with
  | const | missing => simp [apply, occurrences]
  | var x => simp [apply, occurrences]
  | arrow a r iha ihr =>
    simp only [apply_arrow, occurrences, List.mem_append, iha, ihr, or_and_right, exists_or]
  | app f a ihf iha =>
    simp only [apply_app, occurrences, List.mem_append, ihf, iha, or_and_right, exists_or]
  | poly b t ih => exact ih
  | list t ih => exact ih

theorem not_mem_occurrences_apply_single {t u : Ty} {x : String} (hu : x ∉ u.occurrences) :
    x ∉ (t.apply (.single x u)).occurrences := by
  intro h
  obtain ⟨y, _, hy⟩ := mem_occurrences_apply.1 h
  by_cases hyx : y = x
  · subst hyx
    exact hu (by simpa [Assignment.single] using hy)
  · rw [Assignment.single, Assignment.set_of_ne _ _ hyx] at hy
    simp only [occurrences, List.mem_singleton] at hy
    exact hyx hy.symm

/-- A type is as large as what is put in for one of its variables, and larger
unless it is that variable. -/
theorem size_apply_lt {θ : Assignment} {t : Ty} {x : String} (h : x ∈ t.occurrences)
    (hn : t ≠ .var x) : (θ x).size < (t.apply θ).size := by
  have le : ∀ u : Ty, x ∈ u.occurrences → (θ x).size ≤ (u.apply θ).size := by
    intro u hu
    induction u with
    | const | missing => simp [occurrences] at hu
    | var y =>
      simp only [occurrences, List.mem_singleton] at hu
      subst hu
      exact Nat.le_refl _
    | arrow a r iha ihr =>
      rcases List.mem_append.1 hu with hu | hu
      · have := iha hu; simp only [apply, size]; omega
      · have := ihr hu; simp only [apply, size]; omega
    | app f a ihf iha =>
      rcases List.mem_append.1 hu with hu | hu
      · have := ihf hu; simp only [apply, size]; omega
      · have := iha hu; simp only [apply, size]; omega
    | poly b t ih => have := ih hu; simp only [apply, size]; omega
    | list t ih => have := ih hu; simp only [apply, size]; omega
  cases t with
  | const | missing => simp [occurrences] at h
  | var y =>
    simp only [occurrences, List.mem_singleton] at h
    exact absurd (h ▸ rfl) hn
  | arrow a r =>
    rcases List.mem_append.1 h with h | h
    · have := le a h; simp only [apply, size]; omega
    · have := le r h; simp only [apply, size]; omega
  | app f a =>
    rcases List.mem_append.1 h with h | h
    · have := le f h; simp only [apply, size]; omega
    · have := le a h; simp only [apply, size]; omega
  | poly b t => have := le t h; simp only [apply, size]; omega
  | list t => have := le t h; simp only [apply, size]; omega

/-! ## Bound names -/

/-- The names that binders of a type bind. -/
def binders : Ty → List String
  | .const _ | .missing | .var _ => []
  | .arrow a r => a.binders ++ r.binders
  | .app f a => f.binders ++ a.binders
  | .poly b t => b :: t.binders
  | .list t => t.binders

/-- Whatever occurs is free or bound somewhere. -/
theorem mem_freeOccurrences_or_binders {t : Ty} {x : String} (h : x ∈ t.occurrences) :
    x ∈ t.freeOccurrences ∨ x ∈ t.binders := by
  induction t with
  | const | missing => simp [occurrences] at h
  | var y => exact .inl h
  | arrow a r iha ihr =>
    simp only [freeOccurrences, binders, List.mem_append]
    rcases List.mem_append.1 h with h | h
    · rcases iha h with h | h <;> simp [h]
    · rcases ihr h with h | h <;> simp [h]
  | app f a ihf iha =>
    simp only [freeOccurrences, binders, List.mem_append]
    rcases List.mem_append.1 h with h | h
    · rcases ihf h with h | h <;> simp [h]
    · rcases iha h with h | h <;> simp [h]
  | poly b t ih =>
    by_cases hx : x = b
    · exact .inr (by simp [binders, hx])
    · rcases ih h with h | h
      · exact .inl (by simp [freeOccurrences, h, hx])
      · exact .inr (List.mem_cons_of_mem _ h)
  | list t ih => exact ih h

theorem mem_binders_apply {θ : Assignment} {t : Ty} {y : String} (h : y ∈ (t.apply θ).binders) :
    y ∈ t.binders ∨ ∃ x ∈ t.occurrences, y ∈ (θ x).binders := by
  induction t with
  | const | missing => simp [apply, binders] at h
  | var x => exact .inr ⟨x, by simp [occurrences], h⟩
  | arrow a r iha ihr =>
    simp only [binders, occurrences, List.mem_append]
    rcases List.mem_append.1 h with h | h
    · rcases iha h with h | ⟨x, hx, h⟩
      · exact .inl (.inl h)
      · exact .inr ⟨x, .inl hx, h⟩
    · rcases ihr h with h | ⟨x, hx, h⟩
      · exact .inl (.inr h)
      · exact .inr ⟨x, .inr hx, h⟩
  | app f a ihf iha =>
    simp only [binders, occurrences, List.mem_append]
    rcases List.mem_append.1 h with h | h
    · rcases ihf h with h | ⟨x, hx, h⟩
      · exact .inl (.inl h)
      · exact .inr ⟨x, .inl hx, h⟩
    · rcases iha h with h | ⟨x, hx, h⟩
      · exact .inl (.inr h)
      · exact .inr ⟨x, .inr hx, h⟩
  | poly b t ih =>
    rcases List.mem_cons.1 h with h | h
    · exact .inl (by simp [binders, h])
    · exact (ih h).imp_left (List.mem_cons_of_mem _)
  | list t ih => exact ih h

/-- Replacing a variable that no binder binds is an assignment. -/
theorem replace_eq_apply {t : Ty} {x : String} (u : Ty) (h : x ∉ t.binders) :
    t.replace x u = t.apply (.single x u) := by
  induction t with
  | const | missing => rfl
  | var y =>
    by_cases hy : y = x
    · subst hy
      simp [replace, subst, Assignment.single]
    · have hb : (y == x) = false := by simpa using hy
      rw [apply, Assignment.single, Assignment.set_of_ne _ _ hy]
      simp [replace, subst, List.lookup_cons, hb]
  | arrow a r iha ihr =>
    simp only [binders, List.mem_append, not_or] at h
    simp only [replace, subst, apply] at iha ihr ⊢
    rw [iha h.1, ihr h.2]
  | app f a ihf iha =>
    simp only [binders, List.mem_append, not_or] at h
    simp only [replace, subst, apply] at ihf iha ⊢
    rw [ihf h.1, iha h.2]
  | poly b t ih =>
    simp only [binders, List.mem_cons, not_or] at h
    have hf : [(x, u)].filter (·.1 != b) = [(x, u)] := by simp [h.1]
    simp only [replace, subst, apply, hf] at ih ⊢
    rw [ih h.2]
  | list t ih =>
    simp only [replace, subst, apply] at ih ⊢
    rw [ih h]

/-! ## Monotypes -/

/-- A type without binders, and with no node missing. -/
def Mono : Ty → Prop
  | .const _ | .var _ => True
  | .arrow a r => a.Mono ∧ r.Mono
  | .app f a => f.Mono ∧ a.Mono
  | .list t => t.Mono
  | .poly .. | .missing => False

instance decidableMono : (t : Ty) → Decidable t.Mono
  | .const _ | .var _ => isTrue trivial
  | .arrow a r => @instDecidableAnd _ _ (decidableMono a) (decidableMono r)
  | .app f a => @instDecidableAnd _ _ (decidableMono f) (decidableMono a)
  | .list t => decidableMono t
  | .poly .. | .missing => isFalse id

end Ty

namespace Assignment

/-- An assignment of monotypes. -/
def IsMono (θ : Assignment) : Prop := ∀ x, (θ x).Mono

theorem isMono_var : IsMono .var := fun _ => trivial

theorem IsMono.set {θ : Assignment} (hθ : θ.IsMono) (x : String) {u : Ty} (hu : u.Mono) :
    (θ.set x u).IsMono := by
  intro y
  by_cases hy : y = x
  · simpa [hy] using hu
  · simpa [set_of_ne _ _ hy] using hθ y

theorem IsMono.override {θ δ : Assignment} (hθ : θ.IsMono) (xs : List String) (hδ : δ.IsMono) :
    (θ.override xs δ).IsMono := by
  intro y
  by_cases hy : y ∈ xs
  · simpa [override_of_mem hy] using hδ y
  · simpa [override_of_not_mem hy] using hθ y

end Assignment

namespace Ty

theorem Mono.apply {θ : Assignment} {t : Ty} (ht : t.Mono) (hθ : θ.IsMono) :
    (t.apply θ).Mono := by
  induction t with
  | const | missing | poly => exact ht
  | var x => exact hθ x
  | arrow a r iha ihr => exact ⟨iha ht.1, ihr ht.2⟩
  | app f a ihf iha => exact ⟨ihf ht.1, iha ht.2⟩
  | list t ih => exact ih ht

theorem Mono.binders_eq_nil {t : Ty} (ht : t.Mono) : t.binders = [] := by
  induction t with
  | const | var => rfl
  | arrow a r iha ihr => simp [binders, iha ht.1, ihr ht.2]
  | app f a ihf iha => simp [binders, ihf ht.1, iha ht.2]
  | list t ih => exact ih ht
  | poly | missing => exact ht.elim

theorem Mono.freeOccurrences_eq {t : Ty} (ht : t.Mono) : t.freeOccurrences = t.occurrences := by
  induction t with
  | const | var => rfl
  | arrow a r iha ihr => simp [freeOccurrences, occurrences, iha ht.1, ihr ht.2]
  | app f a ihf iha => simp [freeOccurrences, occurrences, ihf ht.1, iha ht.2]
  | list t ih => exact ih ht
  | poly | missing => exact ht.elim

/-- On a monotype, replacing several variables at once is an assignment. -/
theorem Mono.subst_eq_apply {t : Ty} (σ : Subst) (ht : t.Mono) :
    t.subst σ = t.apply fun x => (σ.lookup x).getD (.var x) := by
  induction t with
  | const | var => rfl
  | arrow a r iha ihr => rw [apply_arrow, ← iha ht.1, ← ihr ht.2]; rfl
  | app f a ihf iha => rw [apply_app, ← ihf ht.1, ← iha ht.2]; rfl
  | list t ih => rw [apply_list, ← ih ht]; rfl
  | poly | missing => exact ht.elim

/-- A monotype all of whose variables are as `P` says. -/
def Over (P : String → Prop) (t : Ty) : Prop := t.Mono ∧ ∀ x ∈ t.occurrences, P x

theorem Over.mono {P : String → Prop} {t : Ty} (h : t.Over P) : t.Mono := h.1

theorem Over.imp {P Q : String → Prop} {t : Ty} (h : t.Over P) (hPQ : ∀ x, P x → Q x) : t.Over Q :=
  ⟨h.1, fun x hx => hPQ x (h.2 x hx)⟩

@[simp] theorem over_const (P : String → Prop) (c : String) : (const c).Over P :=
  ⟨trivial, by simp [occurrences]⟩

@[simp] theorem over_int (P : String → Prop) : int.Over P := over_const P _

@[simp] theorem over_bool (P : String → Prop) : bool.Over P := over_const P _

@[simp] theorem over_string (P : String → Prop) : string.Over P := over_const P _

@[simp] theorem over_unit (P : String → Prop) : unit.Over P := over_const P _

@[simp] theorem over_var {P : String → Prop} {x : String} : (var x).Over P ↔ P x := by
  simp [Over, Mono, occurrences]

@[simp] theorem over_arrow {P : String → Prop} {a r : Ty} :
    (arrow a r).Over P ↔ a.Over P ∧ r.Over P := by
  simp only [Over, Mono, occurrences, List.mem_append, or_imp, forall_and]
  exact and_and_and_comm

@[simp] theorem over_list {P : String → Prop} {t : Ty} : (list t).Over P ↔ t.Over P := Iff.rfl

/-! ## Schemes -/

/-- **A scheme**: a monotype, or a scheme under one more binder. -/
inductive Prenex : Ty → Prop
  | mono {t : Ty} (h : t.Mono) : Prenex t
  | poly (b : String) {t : Ty} (h : Prenex t) : Prenex (.poly b t)

theorem prenex_iff {t : Ty} : t.Prenex ↔ t.unbind.2.Mono := by
  constructor
  · intro h
    induction h with
    | @mono t h =>
      cases t with
      | poly => exact h.elim
      | _ => exact h
    | poly b _ ih => exact ih
  · intro h
    induction t with
    | poly b t ih => exact .poly b (ih h)
    | _ => exact .mono h

instance (t : Ty) : Decidable t.Prenex := decidable_of_iff _ prenex_iff.symm

/-- What is free in a scheme is what occurs and is not bound. -/
theorem Prenex.mem_freeOccurrences {t : Ty} (h : t.Prenex) {x : String} :
    x ∈ t.freeOccurrences ↔ x ∈ t.occurrences ∧ x ∉ t.binders := by
  induction h with
  | mono h => simp [h.freeOccurrences_eq, h.binders_eq_nil]
  | poly b _ ih =>
    simp only [freeOccurrences, List.mem_filter, bne_iff_ne, ih, occurrences, binders,
      List.mem_cons, not_or]
    exact ⟨fun h => ⟨h.1.1, h.2, h.1.2⟩, fun h => ⟨⟨h.1, h.2.2⟩, h.2.1⟩⟩

theorem Prenex.apply {θ : Assignment} {t : Ty} (h : t.Prenex) (hθ : θ.IsMono) :
    (t.apply θ).Prenex ∧ (t.apply θ).binders = t.binders := by
  induction h with
  | mono h =>
    have ha := h.apply hθ
    exact ⟨.mono ha, by rw [ha.binders_eq_nil, h.binders_eq_nil]⟩
  | poly b _ ih => exact ⟨.poly b ih.1, congrArg (b :: ·) ih.2⟩

end Ty

end LetPoly
