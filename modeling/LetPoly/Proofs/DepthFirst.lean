import LetPoly.Proofs.Traversal
import Mathlib.Data.List.Nodup
import Mathlib.Logic.Relation

/-! # Depth-first order

A traversal leaves every vertex that it enters, once, and it enters what can be reached from
its roots and nothing else.  The vertices stand in the order in which they are left.

While a vertex is entered and not yet left, the traversal is at a vertex behind it.  So if an
edge leads from a vertex to another one that is left later, or not yet, then a path leads back
along the vertices in between.  This is the invariant of a search, `Searches`: a successor is
left before, or a path leads back from it, or it had been entered and not left when the search
began.  At the beginning of a traversal nothing has been entered, and where there is no cycle
no path leads back: every vertex is left after its successors (`traversal_exact`).
-/

namespace LetPoly.Graph

/-- **A path leads from one vertex to another**, along any number of edges. -/
def Path (g : Graph) : Nat → Nat → Prop := Relation.ReflTransGen fun u w => w ∈ g.successors u

/-- A path of one edge or more leads from the vertex back to it. -/
def Cyclic (g : Graph) (v : Nat) : Prop := ∃ w ∈ g.successors v, g.Path w v

/-- A vertex without an entry in the graph has no successors. -/
theorem within_of_forall_mem {g : Graph} (h : ∀ ws ∈ g, ∀ w ∈ ws, w < g.length) : g.Within := by
  intro u w hw
  rw [successors] at hw
  cases hu : g[u]? with
  | none => simp [hu] at hw
  | some ws =>
    rw [hu, Option.getD_some] at hw
    exact h ws (List.mem_of_getElem? hu) w hw

/-- Paths do not lead out of the graph. -/
theorem Path.lt_length {g : Graph} (hg : g.Within) {u v : Nat} (h : g.Path u v)
    (hu : u < g.length) : v < g.length := by
  induction h with
  | refl => exact hu
  | tail _ hedge _ => exact hg _ _ hedge

/-! ## Searches -/

/-- **What is left between two states of a traversal**, in order.  It is what was entered in
between, and each of its successors is left before it, or a path leads back from the successor,
or the search is behind the successor from the beginning. -/
structure Searches (g : Graph) (st st' : Visit) (new : List Nat) : Prop
    extends g.Explores st st' where
  left : st'.left = st.left ++ new
  entered : ∀ u, u ∈ st'.entered ↔ u ∈ st.entered ∨ u ∈ new
  nodup : new.Nodup
  fresh : ∀ u ∈ new, u ∉ st.entered
  ordered : ∀ u ∈ new, ∀ w ∈ g.successors u,
    [w, u].Sublist st'.left ∨ g.Path w u ∨ w ∈ st.entered ∧ w ∉ st.left

section
variable {g : Graph} {st st₁ st₂ : Visit} {new new₁ new₂ : List Nat}

theorem Searches.refl (g : Graph) (st : Visit) : g.Searches st st [] where
  toExplores := .refl g st
  left := (List.append_nil _).symm
  entered u := by simp
  nodup := List.nodup_nil
  fresh u hu := absurd hu List.not_mem_nil
  ordered u hu := absurd hu List.not_mem_nil

theorem Searches.trans (h₁ : g.Searches st st₁ new₁) (h₂ : g.Searches st₁ st₂ new₂) :
    g.Searches st st₂ (new₁ ++ new₂) where
  toExplores := h₁.toExplores.trans h₂.toExplores
  left := by rw [h₂.left, h₁.left, List.append_assoc]
  entered u := by rw [h₂.entered, h₁.entered, List.mem_append, or_assoc]
  nodup := List.nodup_append.2 ⟨h₁.nodup, h₂.nodup, fun u hu w hw huw =>
    h₂.fresh w hw ((h₁.entered w).2 (.inr (huw ▸ hu)))⟩
  fresh u hu := by
    rcases List.mem_append.1 hu with hu | hu
    · exact h₁.fresh u hu
    · exact fun hst => h₂.fresh u hu (h₁.grows u hst)
  ordered u hu w hw := by
    rcases List.mem_append.1 hu with hu | hu
    · refine (h₁.ordered u hu w hw).imp_left fun hbefore => ?_
      rw [h₂.left]
      exact hbefore.trans (List.sublist_append_left _ _)
    · rcases h₂.ordered u hu w hw with hbefore | hpath | ⟨hin, hnot⟩
      · exact .inl hbefore
      · exact .inr (.inl hpath)
      · -- what the first search has entered it has left too
        rw [h₁.left, List.mem_append, not_or] at hnot
        exact .inr (.inr ⟨((h₁.entered w).1 hin).resolve_right hnot.2, hnot.1⟩)

/-- A vertex is left when the search behind it has come to an end. -/
theorem Searches.leave {v : Nat} (hnot : v ∉ st.entered)
    (h : g.Searches { st with entered := v :: st.entered } st₁ new)
    (hpath : ∀ u ∈ new, g.Path v u)
    (hexplores : g.Explores st { st₁ with left := st₁.left ++ [v] }) :
    g.Searches st { st₁ with left := st₁.left ++ [v] } (new ++ [v]) := by
  have hentered (u : Nat) : u ∈ st₁.entered ↔ u ∈ st.entered ∨ u ∈ new ++ [v] := by
    rw [h.entered, List.mem_cons, List.mem_append, List.mem_singleton, or_comm (a := u = v),
      or_assoc, or_comm (a := u = v)]
  have hleft : st₁.left = st.left ++ new := h.left
  refine ⟨hexplores, ?_, hentered, ?_, ?_, ?_⟩
  · rw [hleft, List.append_assoc]
  · refine List.nodup_append.2 ⟨h.nodup, List.nodup_singleton v, fun u hu w hw huw => ?_⟩
    exact h.fresh u hu (by rw [huw, List.mem_singleton.1 hw]; exact List.mem_cons_self)
  · intro u hu
    rcases List.mem_append.1 hu with hu | hu
    · exact fun hst => h.fresh u hu (List.mem_cons_of_mem v hst)
    · rwa [List.mem_singleton.1 hu]
  · intro u hu w hw
    rcases List.mem_append.1 hu with hnew | hu
    · rcases h.ordered u hnew w hw with hbefore | hback | ⟨hin, hopen⟩
      · exact .inl (hbefore.trans (List.sublist_append_left _ _))
      · exact .inr (.inl hback)
      · rcases List.mem_cons.1 hin with rfl | hin
        · exact .inr (.inl (hpath u hnew))
        · exact .inr (.inr ⟨hin, hopen⟩)
    · obtain rfl : u = v := List.mem_singleton.1 hu
      -- the vertex is left last, so after all that has been left at all
      have hlast (hw : w ∈ st₁.left) : [w, u].Sublist (st₁.left ++ [u]) :=
        (List.singleton_sublist.2 hw).append (List.Sublist.refl [u])
      have hin : w ∈ st₁.entered :=
        hexplores.closes u ((hentered u).2 (.inr (by simp))) hnot w hw
      rcases (hentered w).1 hin with hin | hin
      · by_cases hopen : w ∈ st.left
        · exact .inl (hlast (by rw [hleft]; exact List.mem_append_left _ hopen))
        · exact .inr (.inr ⟨hin, hopen⟩)
      · rcases List.mem_append.1 hin with hin | hin
        · exact .inl (hlast (by rw [hleft]; exact List.mem_append_right _ hin))
        · obtain rfl : w = u := List.mem_singleton.1 hin
          exact .inr (.inl .refl)

end

/-- Visiting several vertices, where visiting one searches what is behind it. -/
theorem foldl_searches {g : Graph} {bound : Nat} {step : Visit → Nat → Visit}
    (hstep : ∀ st v, v < g.length → g.unentered st ≤ bound →
      ∃ new, g.Searches st (step st v) new ∧ ∀ u ∈ new, g.Path v u) :
    ∀ {vs : List Nat} {st : Visit}, (∀ v ∈ vs, v < g.length) → g.unentered st ≤ bound →
      ∃ new, g.Searches st (vs.foldl step st) new ∧ ∀ u ∈ new, ∃ v ∈ vs, g.Path v u := by
  intro vs
  induction vs with
  | nil => exact fun {st} _ _ => ⟨[], .refl g st, by simp⟩
  | cons v vs ih =>
    intro st hvs hbound
    obtain ⟨hv, hvs⟩ := List.forall_mem_cons.1 hvs
    obtain ⟨new₁, hfirst, hpath₁⟩ := hstep st v hv hbound
    obtain ⟨new₂, hrest, hpath₂⟩ := ih hvs (Nat.le_trans hfirst.unentered_le hbound)
    refine ⟨new₁ ++ new₂, hfirst.trans hrest, fun u hu => ?_⟩
    rcases List.mem_append.1 hu with hu | hu
    · exact ⟨v, List.mem_cons_self, hpath₁ u hu⟩
    · obtain ⟨v', hv', hpath⟩ := hpath₂ u hu
      exact ⟨v', List.mem_cons_of_mem v hv', hpath⟩

/-- **A visit searches what is behind a vertex.** -/
theorem visit_searches {g : Graph} (hg : g.Within) {bound : Nat} : ∀ {st : Visit} {v : Nat},
    v < g.length → g.unentered st ≤ bound →
      ∃ new, g.Searches st (visit g bound st v) new ∧ ∀ u ∈ new, g.Path v u := by
  induction bound with
  | zero => exact fun {st v} _ _ => ⟨[], .refl g st, by simp⟩
  | succ n ih =>
    intro st v hv hbound
    have hexplores := (visit_explores hg hv hbound).1
    rw [visit] at hexplores ⊢
    split
    · exact ⟨[], .refl g st, by simp⟩
    · rename_i hnot
      rw [if_neg hnot] at hexplores
      have hless := unentered_enter hv hnot
      obtain ⟨new, hsearch, hpath⟩ := foldl_searches (fun _ _ => ih) (hg v)
        (Nat.le_of_lt_succ (Nat.lt_of_lt_of_le hless hbound))
      have hbehind : ∀ u ∈ new, g.Path v u := fun u hu => by
        obtain ⟨w, hw, hwu⟩ := hpath u hu
        exact .head hw hwu
      refine ⟨new ++ [v], hsearch.leave hnot hbehind hexplores, fun u hu => ?_⟩
      rcases List.mem_append.1 hu with hu | hu
      · exact hbehind u hu
      · rw [List.mem_singleton.1 hu]
        exact .refl

/-! ## Traversals -/

section
variable {g : Graph} {roots : List Nat}

theorem traverse_searches (hg : g.Within) (hroots : ∀ v ∈ roots, v < g.length) :
    g.Searches {} (g.traverse roots) (g.traverse roots).left ∧
      ∀ u ∈ (g.traverse roots).left, ∃ v ∈ roots, g.Path v u := by
  have hbound : g.unentered {} ≤ g.length :=
    Nat.le_trans List.countP_le_length (Nat.le_of_eq List.length_range)
  obtain ⟨new, hsearch, hpath⟩ := foldl_searches (fun _ _ => visit_searches hg) hroots hbound
  have hnew : (g.traverse roots).left = new := hsearch.left
  rw [hnew]
  exact ⟨hsearch, hpath⟩

/-- **A traversal leaves what can be reached from its roots.** -/
theorem mem_left_traverse (hg : g.Within) (hroots : ∀ v ∈ roots, v < g.length) {u : Nat} :
    u ∈ (g.traverse roots).left ↔ ∃ v ∈ roots, g.Path v u := by
  obtain ⟨hsearch, hpath⟩ := traverse_searches hg hroots
  refine ⟨hpath u, ?_⟩
  rintro ⟨v, hv, hvu⟩
  obtain ⟨hentered, hclosed⟩ := traverse_closed hg hroots
  suffices hin : u ∈ (g.traverse roots).entered from
    ((hsearch.entered u).1 hin).resolve_left List.not_mem_nil
  induction hvu with
  | refl => exact hentered v hv
  | tail _ hedge ih => exact hclosed _ ih _ hedge

/-- A vertex is left after its successors, unless a path leads back. -/
theorem sublist_left_traverse (hg : g.Within) (hroots : ∀ v ∈ roots, v < g.length) {u w : Nat}
    (hu : u ∈ (g.traverse roots).left) (hw : w ∈ g.successors u) (hback : ¬ g.Path w u) :
    [w, u].Sublist (g.traverse roots).left := by
  obtain ⟨hsearch, -⟩ := traverse_searches hg hroots
  rcases hsearch.ordered u hu w hw with hbefore | hpath | ⟨hin, -⟩
  · exact hbefore
  · exact absurd hpath hback
  · exact absurd hin List.not_mem_nil

end

/-- In a list without repetitions, what stands before an element has a smaller index. -/
theorem idxOf_lt_of_sublist {vs : List Nat} (hnodup : vs.Nodup) {u w : Nat}
    (h : [w, u].Sublist vs) : vs.idxOf w < vs.idxOf u := by
  obtain ⟨before, after, rfl, hw, hu⟩ :=
    List.append_sublist_iff.1 (show ([w] ++ [u]).Sublist vs from h)
  rw [List.singleton_sublist] at hw hu
  have hnot : u ∉ before := fun hmem => (List.nodup_append.1 hnodup).2.2 u hmem u hu rfl
  rw [List.idxOf_append_of_mem hw, List.idxOf_append_of_notMem hnot]
  exact Nat.lt_add_right _ (List.idxOf_lt_length_of_mem hw)

section
variable {g : Graph}

theorem getElem?_reachable (hg : g.Within) {roots : List Nat} (hroots : ∀ r ∈ roots, r < g.length)
    (v : Nat) : (g.reachable roots)[v]? = some true ↔ ∃ r ∈ roots, g.Path r v := by
  obtain ⟨hsearch, -⟩ := traverse_searches hg hroots
  have hentered : v ∈ (g.traverse roots).entered ↔ ∃ r ∈ roots, g.Path r v := by
    rw [hsearch.entered, ← mem_left_traverse hg hroots]
    exact or_iff_right List.not_mem_nil
  by_cases hv : v < g.length
  · rw [reachable, List.getElem?_map, List.getElem?_range hv, Option.map_some, Option.some.injEq,
      decide_eq_true_iff, hentered]
  · have hnone : (g.reachable roots)[v]? = none :=
      List.getElem?_eq_none (by simpa [reachable] using Nat.not_lt.1 hv)
    refine iff_of_false (by simp [hnone]) ?_
    rintro ⟨r, hr, hpath⟩
    exact absurd (hpath.lt_length hg (hroots r hr)) hv

theorem mem_postOrder (hg : g.Within) {entry : Nat} (hentry : entry < g.length) (v : Nat) :
    v ∈ g.postOrder entry ↔ g.Path entry v := by
  rw [postOrder, mem_left_traverse hg (List.forall_mem_singleton.2 hentry)]
  simp

end

/-- **A traversal is exact.**  For each vertex it tells whether a path leads to it from one of
the roots; and it lists the vertices that can be reached from a vertex, each once and, unless
there is a cycle among them, after all of its successors. -/
theorem traversal_exact (g : Graph) (hg : g.Within) :
    (∀ roots : List Nat, (∀ r ∈ roots, r < g.length) → (g.reachable roots).length = g.length ∧
      ∀ v, (g.reachable roots)[v]? = some true ↔ ∃ r ∈ roots, g.Path r v) ∧
    ∀ entry < g.length, (g.postOrder entry).Nodup ∧
      (∀ v, v ∈ g.postOrder entry ↔ g.Path entry v) ∧
      ((∀ v, g.Path entry v → ¬ g.Cyclic v) → ∀ u ∈ g.postOrder entry, ∀ w ∈ g.successors u,
        (g.postOrder entry).idxOf w < (g.postOrder entry).idxOf u) ∧
      g.reversePostOrder entry = (g.postOrder entry).reverse := by
  refine ⟨fun roots hroots => ⟨by simp [reachable], getElem?_reachable hg hroots⟩,
    fun entry hentry => ?_⟩
  have hroots : ∀ v ∈ [entry], v < g.length := List.forall_mem_singleton.2 hentry
  have hnodup : (g.postOrder entry).Nodup := (traverse_searches hg hroots).1.nodup
  refine ⟨hnodup, mem_postOrder hg hentry, fun hacyclic u hu w hw => ?_, rfl⟩
  have hback : ¬ g.Path w u := fun h => hacyclic u ((mem_postOrder hg hentry u).1 hu) ⟨w, hw, h⟩
  exact idxOf_lt_of_sublist hnodup (sublist_left_traverse hg hroots hu hw hback)

/-- Two ways lead from `0` to `3`, and `4` and `5` lie on a cycle, with an edge from `4` to
itself. -/
theorem traversal_exact_branches :
    let g : Graph := [[1, 2], [3], [3], [], [4, 0, 5], [4]]
    g.Within ∧ g.postOrder 0 = [3, 1, 2, 0] ∧ g.reversePostOrder 0 = [0, 2, 1, 3] ∧
      (∀ u ∈ g.postOrder 0, ∀ w ∈ g.successors u,
        (g.postOrder 0).idxOf w < (g.postOrder 0).idxOf u) ∧
      g.postOrder 5 = [3, 1, 2, 0, 4, 5] ∧ g.Cyclic 4 ∧
      g.reachable [2, 1] = [false, true, true, true, false, false] ∧
      g.Path 5 3 ∧ ¬ g.Path 2 1 := by
  intro g
  have hg : g.Within := within_of_forall_mem (by decide)
  obtain ⟨hreachable, horder⟩ := traversal_exact g hg
  obtain ⟨-, hmem, hafter, hreverse⟩ := horder 0 (by decide)
  have hpost : g.postOrder 0 = [3, 1, 2, 0] := by decide
  have hback : ∀ v ∈ [3, 1, 2, 0], ∀ w ∈ g.successors v, v ∉ g.postOrder w := by decide
  refine ⟨hg, hpost, by rw [hreverse, hpost]; rfl, hafter fun v hv => ?_, by decide,
    ⟨5, by decide, .single (by decide)⟩, by decide, ?_, ?_⟩
  · rintro ⟨w, hw, hwv⟩
    have hin := (hmem v).2 hv
    rw [hpost] at hin
    exact hback v hin w hw (((horder w (hg v w hw)).2.1 v).2 hwv)
  · exact ((horder 5 (by decide)).2.1 3).1 (by decide)
  · intro hpath
    have hmarked := ((hreachable [2] (by decide)).2 1).2 ⟨2, by decide, hpath⟩
    exact absurd hmarked (by decide)

end LetPoly.Graph
