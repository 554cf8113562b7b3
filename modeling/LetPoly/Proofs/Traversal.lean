import LetPoly.Graph
import Mathlib.Data.List.Basic

/-! # Traversals of a graph

A traversal enters a vertex and then goes on to the vertices behind it, down to a bound on
the depth.  Every vertex that it enters is one less that it could enter below, so a bound
of as many vertices as have not been entered is never reached.  With such a bound a
traversal leaves no loose end: of each vertex that it enters, it enters all successors too
(`visit_explores`).

The vertices that are entered from some roots therefore contain these and are closed under
edges (`traverse_closed`).
-/

namespace LetPoly.Graph

/-! ## Edges -/

@[simp] theorem successors_empty (n v : Nat) : (empty n).successors v = [] := by
  rw [empty, successors, List.getElem?_replicate]
  split <;> rfl

@[simp] theorem length_empty (n : Nat) : (empty n).length = n := List.length_replicate

@[simp] theorem length_addEdge (g : Graph) (source target : Nat) :
    (g.addEdge source target).length = g.length := by
  rw [addEdge]
  split
  · rfl
  · rw [List.length_modify]

/-- The edges after one is added. -/
theorem mem_successors_addEdge {g : Graph} {source target u w : Nat} (hs : source < g.length) :
    w ∈ (g.addEdge source target).successors u ↔
      w ∈ g.successors u ∨ u = source ∧ w = target := by
  rw [addEdge]
  split
  · rename_i hedge
    refine ⟨.inl, fun h => h.elim id ?_⟩
    rintro ⟨rfl, rfl⟩
    exact of_decide_eq_true hedge
  · rw [successors, successors, List.getElem?_modify]
    by_cases hu : u = source
    · subst hu
      simp [List.getElem?_eq_getElem hs]
    · simp [hu, Ne.symm hu]

/-- Every edge leads to a vertex of the graph. -/
def Within (g : Graph) : Prop := ∀ u, ∀ w ∈ g.successors u, w < g.length

/-! ## Traversals -/

/-- How many vertices have not been entered. -/
def unentered (g : Graph) (st : Visit) : Nat :=
  (List.range g.length).countP (· ∉ st.entered)

/-- **A traversal without loose ends**: it forgets no vertex, and the successors of those
that it has entered are entered too. -/
structure Explores (g : Graph) (st st' : Visit) : Prop where
  grows : ∀ u ∈ st.entered, u ∈ st'.entered
  closes : ∀ u ∈ st'.entered, u ∉ st.entered → ∀ w ∈ g.successors u, w ∈ st'.entered

section
variable {g : Graph} {st st₁ st₂ : Visit}

theorem Explores.refl (g : Graph) (st : Visit) : g.Explores st st :=
  ⟨fun _ h => h, fun _ h hnot => absurd h hnot⟩

theorem Explores.trans (h₁ : g.Explores st st₁) (h₂ : g.Explores st₁ st₂) :
    g.Explores st st₂ where
  grows u hu := h₂.grows u (h₁.grows u hu)
  closes u hu hnot w hw := by
    by_cases hmid : u ∈ st₁.entered
    · exact h₂.grows w (h₁.closes u hmid hnot w hw)
    · exact h₂.closes u hu hmid w hw

theorem Explores.unentered_le (h : g.Explores st st₁) : g.unentered st₁ ≤ g.unentered st :=
  List.countP_mono_left fun u _ hu =>
    decide_eq_true fun hst => of_decide_eq_true hu (h.grows u hst)

/-- Entering a vertex leaves one less. -/
theorem unentered_enter {v : Nat} (hv : v < g.length) (hnot : v ∉ st.entered) :
    g.unentered { st with entered := v :: st.entered } < g.unentered st := by
  obtain ⟨before, after, hrange⟩ := List.append_of_mem (List.mem_range.2 hv)
  have hle (l : List Nat) : l.countP (· ∉ v :: st.entered) ≤ l.countP (· ∉ st.entered) :=
    List.countP_mono_left fun u _ hu => by simp_all
  have hbefore := hle before
  have hafter := hle after
  have hcount (entered : List Nat) : g.unentered { st with entered } =
      before.countP (· ∉ entered) + (after.countP (· ∉ entered) + if v ∉ entered then 1 else 0) := by
    simp only [unentered, hrange, List.countP_append, List.countP_cons, decide_eq_true_eq]
  rw [hcount, hcount st.entered, if_neg (by simp), if_pos hnot]
  omega

end

/-- Visiting several vertices, where visiting one explores. -/
theorem foldl_explores {g : Graph} {bound : Nat} {step : Visit → Nat → Visit}
    (hstep : ∀ st v, v < g.length → g.unentered st ≤ bound →
      g.Explores st (step st v) ∧ v ∈ (step st v).entered) :
    ∀ {vs : List Nat} {st : Visit}, (∀ v ∈ vs, v < g.length) → g.unentered st ≤ bound →
      g.Explores st (vs.foldl step st) ∧ ∀ v ∈ vs, v ∈ (vs.foldl step st).entered := by
  intro vs
  induction vs with
  | nil => exact fun {st} _ _ => ⟨.refl g st, nofun⟩
  | cons v vs ih =>
    intro st hvs hbound
    obtain ⟨hv, hvs⟩ := List.forall_mem_cons.1 hvs
    obtain ⟨hfirst, hin⟩ := hstep st v hv hbound
    obtain ⟨hrest, hall⟩ := ih hvs (Nat.le_trans hfirst.unentered_le hbound)
    rw [List.foldl_cons]
    exact ⟨hfirst.trans hrest, List.forall_mem_cons.2 ⟨hrest.grows v hin, hall⟩⟩

/-- **A visit leaves no loose end** if its bound is the number of vertices to enter. -/
theorem visit_explores {g : Graph} (hg : g.Within) {bound : Nat} : ∀ {st : Visit} {v : Nat},
    v < g.length → g.unentered st ≤ bound →
      g.Explores st (visit g bound st v) ∧ v ∈ (visit g bound st v).entered := by
  induction bound with
  | zero =>
    intro st v hv hbound
    have hin : v ∈ st.entered := by
      by_contra hnot
      exact absurd (unentered_enter hv hnot) (by omega)
    exact ⟨.refl g st, hin⟩
  | succ n ih =>
    intro st v hv hbound
    rw [visit]
    split
    · rename_i hin
      exact ⟨.refl g st, hin⟩
    · rename_i hnot
      have hless := unentered_enter hv hnot
      obtain ⟨⟨hgrows, hcloses⟩, hall⟩ := foldl_explores (fun _ _ => ih) (hg v)
        (Nat.le_of_lt_succ (Nat.lt_of_lt_of_le hless hbound))
      refine ⟨⟨fun u hu => hgrows u (List.mem_cons_of_mem v hu), fun u hu hun w hw => ?_⟩,
        hgrows v List.mem_cons_self⟩
      -- the vertex itself is closed by the visits of its successors, the others inside these
      by_cases huv : u = v
      · exact hall w (huv ▸ hw)
      · exact hcloses u hu (by simp [huv, hun]) w hw

theorem traverse_explores {g : Graph} (hg : g.Within) {roots : List Nat}
    (hroots : ∀ v ∈ roots, v < g.length) :
    g.Explores {} (g.traverse roots) ∧ ∀ v ∈ roots, v ∈ (g.traverse roots).entered := by
  refine foldl_explores (fun _ _ => visit_explores hg) hroots ?_
  exact Nat.le_trans List.countP_le_length (Nat.le_of_eq List.length_range)

/-- **What is entered from the roots contains them and the successors of what it
contains.** -/
theorem traverse_closed {g : Graph} (hg : g.Within) {roots : List Nat}
    (hroots : ∀ v ∈ roots, v < g.length) :
    (∀ v ∈ roots, v ∈ (g.traverse roots).entered) ∧
      ∀ u ∈ (g.traverse roots).entered, ∀ w ∈ g.successors u,
        w ∈ (g.traverse roots).entered := by
  obtain ⟨hexplores, hentered⟩ := traverse_explores hg hroots
  exact ⟨hentered, fun u hu => hexplores.closes u hu List.not_mem_nil⟩

end LetPoly.Graph
