import LetPoly.Dependency
import LetPoly.Proofs.FreeNames
import LetPoly.Proofs.Shape
import LetPoly.Proofs.Traversal

/-! # What the analysis of a program notes

The analysis goes through an expression once, with the bindings of the names that are in
scope at each point.  Where it enters the scope of a local name it overwrites a binding,
and it puts back what was there when it leaves.

Seen from outside the scopes, it notes the names that the expression refers to and does not
bind itself, `Expr.free`, each with the binding that it has outside, and changes nothing
else (`expression_reads`).  Half-way, when some scopes are still open, the bindings are
those from outside but for the names of the open scopes, and the stash holds what takes them
back: this is the invariant `Reads`, which goes from one part of an expression to the next
(`Reads.trans`) and of which a scope that ends takes its names away (`Reads.close`).

Over a program, a statement has an edge to each statement that binds a name that it refers
to (`statements_refers`), and edges lead back only (`Ready`).
-/

namespace LetPoly

namespace SortedMap
variable {α : Type}

theorem get?_erase (m : SortedMap α) (x y : String) :
    (m.erase x).get? y = if y = x then none else m.get? y := by
  induction m with
  | nil => simp [erase, get?]
  | cons p m ih =>
    obtain ⟨z, v⟩ := p
    simp only [erase, get?, List.filter_cons, bne_iff_ne] at ih ⊢
    by_cases hz : z = x
    · rw [if_neg (not_not.2 hz), ih, List.lookup_cons]
      split
      · rfl
      · rename_i hy
        rw [beq_eq_false_iff_ne.2 fun hyz => hy (hyz.trans hz)]
    · rw [if_pos hz, List.lookup_cons, List.lookup_cons, ih]
      cases hyz : y == z with
      | false => rfl
      | true =>
        have hyx : y ≠ x := fun hy => hz ((beq_iff_eq.1 hyz).symm.trans hy)
        exact (if_neg hyx).symm

theorem get?_insert (m : SortedMap α) (x y : String) (v : α) :
    (m.insert x v).get? y = if y = x then some v else m.get? y := by
  split
  · rename_i h
    rw [h, get?_insert_self]
  · rename_i h
    exact get?_insert_of_ne m v h

end SortedMap

namespace Dependency

/-! ## Notes -/

/-- What a reference adds to the edges and to the names without a binding. -/
def note (index : Nat) (origin : String → Option Origin) (notes : Graph × List String)
    (x : String) : Graph × List String :=
  match origin x with
  | some (.statement target) => (notes.1.addEdge index target, notes.2)
  | some .inner => notes
  | none => (notes.1, if x ∈ notes.2 then notes.2 else notes.2 ++ [x])

/-- Names that are bound inside are not noted. -/
theorem foldl_note_inner {index : Nat} {origin origin' : String → Option Origin}
    {names : List String} (h : ∀ x, origin' x = if x ∈ names then some .inner else origin x)
    (xs : List String) (notes : Graph × List String) :
    xs.foldl (note index origin') notes =
      (xs.filter (· ∉ names)).foldl (note index origin) notes := by
  induction xs generalizing notes with
  | nil => rfl
  | cons x xs ih =>
    rw [List.foldl_cons, ih, List.filter_cons]
    by_cases hx : x ∈ names
    · have hnote : note index origin' notes x = notes := by rw [note, h, if_pos hx]
      rw [hnote, if_neg (by simpa using hx)]
    · have hnote : note index origin' notes x = note index origin notes x := by
        rw [note, note, h, if_neg hx]
      rw [hnote, if_pos (by simpa using hx), List.foldl_cons]

/-! ## Scopes -/

/-- **The second state is the first after some references**, inside the scopes of some
names.  The bindings are those of the first state but for these names, and the stash says
how to have them back. -/
structure Reads (index : Nat) (a a' : Dependency) (names xs : List String) : Prop where
  scopes : ∀ x, a'.scopes.get? x = if x ∈ names then some .inner else a.scopes.get? x
  stash : ∃ hidden, a'.stash = hidden ++ a.stash ∧ hidden.length = names.length ∧
    ∀ m : SortedMap Origin, (∀ x, m.get? x = a'.scopes.get? x) →
      ∀ x, (hidden.foldl restore m).get? x = a.scopes.get? x
  notes : (a'.graph, a'.free) = xs.foldl (note index a.scopes.get?) (a.graph, a.free)

section
variable {index : Nat} {a b c : Dependency} {names names' xs ys : List String}

theorem Reads.refl (index : Nat) (a : Dependency) : Reads index a a [] [] where
  scopes _ := by simp
  stash := ⟨[], rfl, rfl, fun _ h => h⟩
  notes := rfl

theorem Reads.trans (h₁ : Reads index a b names xs) (h₂ : Reads index b c names' ys) :
    Reads index a c (names ++ names') (xs ++ ys.filter (· ∉ names)) where
  scopes x := by
    rw [h₂.scopes, h₁.scopes]
    by_cases hx : x ∈ names <;> by_cases hx' : x ∈ names' <;> simp [hx, hx']
  stash := by
    obtain ⟨hidden, hstash, hlen, hback⟩ := h₁.stash
    obtain ⟨hidden', hstash', hlen', hback'⟩ := h₂.stash
    refine ⟨hidden' ++ hidden, ?_, ?_, fun m hm => ?_⟩
    · rw [hstash', hstash, List.append_assoc]
    · rw [List.length_append, List.length_append, hlen, hlen', Nat.add_comm]
    · -- the inner scopes end first
      rw [List.foldl_append]
      exact hback _ (hback' m hm)
  notes := by
    rw [h₂.notes, h₁.notes, List.foldl_append, foldl_note_inner h₁.scopes]

/-- One part of an expression after another. -/
theorem Reads.andThen (h₁ : Reads index a b [] xs) (h₂ : Reads index b c names ys) :
    Reads index a c names (xs ++ ys) := by
  simpa using h₁.trans h₂

/-- The end of a scope. -/
theorem Reads.close (h : Reads index a b names xs) :
    Reads index a (b.unbind names.length) [] xs := by
  obtain ⟨hidden, hstash, hlen, hback⟩ := h.stash
  have htake : b.stash.take names.length = hidden := by rw [hstash, ← hlen, List.take_left]
  have hdrop : b.stash.drop names.length = a.stash := by rw [hstash, ← hlen, List.drop_left]
  have hscopes : ∀ x, (b.unbind names.length).scopes.get? x = a.scopes.get? x := by
    rw [unbind, htake]
    exact hback _ fun _ => rfl
  refine ⟨fun x => ?_, ⟨[], hdrop, rfl, fun m hm x => ?_⟩, h.notes⟩
  · rw [hscopes, if_neg List.not_mem_nil]
  · rw [List.foldl_nil, hm, hscopes]

theorem bindInner_reads (index : Nat) (a : Dependency) (x : String) :
    Reads index a (a.bindInner x) [x] [] where
  scopes y := by simp [bindInner, SortedMap.get?_insert]
  stash := by
    refine ⟨[(x, a.scopes.get? x)], rfl, rfl, fun m hm y => ?_⟩
    rw [bindInner] at hm
    have hy := hm y
    rw [SortedMap.get?_insert] at hy
    cases hx : a.scopes.get? x with
    | some o =>
      rw [List.foldl_cons, List.foldl_nil, restore, SortedMap.get?_insert, hy]
      split <;> simp_all
    | none =>
      rw [List.foldl_cons, List.foldl_nil, restore, SortedMap.get?_erase, hy]
      split <;> simp_all
  notes := rfl

theorem bindPattern_reads (index : Nat) (a : Dependency) (p : Pat) :
    Reads index a (a.bindPattern p) p.names [] := by
  suffices key : ∀ (names : List String) (a : Dependency),
      Reads index a (names.foldl bindInner a) names [] from key p.names a
  intro names
  induction names with
  | nil => exact Reads.refl index
  | cons x names ih => exact fun a => (bindInner_reads index a x).trans (ih (a.bindInner x))

/-! ## Expressions -/

theorem refer_reads (index : Nat) (a : Dependency) (x : String) :
    Reads index a (refer index a x) [] [x] := by
  have hnote : ∃ r : Graph × List String, refer index a x = { a with graph := r.1, free := r.2 } ∧
      r = note index a.scopes.get? (a.graph, a.free) x := by
    rw [refer, note]
    cases a.scopes.get? x with
    | some o => cases o <;> exact ⟨_, rfl, rfl⟩
    | none =>
      by_cases hx : x ∈ a.free
      · exact ⟨_, by simp [hx], rfl⟩
      · exact ⟨_, by simp [hx], rfl⟩
  obtain ⟨r, hrefer, hr⟩ := hnote
  rw [hrefer]
  exact ⟨fun _ => by simp, ⟨[], rfl, rfl, fun _ h => h⟩, hr⟩

/-- What the analysis does to an expression, from any state. -/
def Noted (index : Nat) (e : Expr) : Prop :=
  ∀ a : Dependency, Reads index a (expression index a e) [] e.free

/-- A body in the scope of a pattern. -/
theorem Noted.under {e : Expr} (h : Noted index e) (a : Dependency) (p : Pat) :
    Reads index a ((expression index (a.bindPattern p) e).unbind p.names.length) []
      (e.free.filter (· ∉ p.names)) := by
  have hbody := (bindPattern_reads index a p).trans (h (a.bindPattern p))
  rw [List.append_nil, List.nil_append] at hbody
  exact hbody.close

theorem arms_reads {arms : List (Pat × Expr)} (ih : ∀ arm ∈ arms, Noted index arm.2)
    (a : Dependency) : Reads index a (Dependency.arms index a arms) [] (Expr.freeArms arms) := by
  induction arms generalizing a with
  | nil => exact .refl index a
  | cons arm arms iharms =>
    exact ((ih arm List.mem_cons_self).under a arm.1).andThen
      (iharms (fun arm' h => ih arm' (List.mem_cons_of_mem _ h)) _)

theorem block_stmt (index : Nat) (a : Dependency) {e : Expr} (he : e.isDefinition = false)
    (ss : List Expr) : block index a (e :: ss) = block index (expression index a e) ss := by
  cases e with
  | define => cases he
  | _ => rfl

/-- The statements of a block leave the scopes of what they define open. -/
theorem block_reads {ss : List Expr} (ih : ∀ s ∈ ss, Noted index s)
    (ihd : ∀ k p t v, .define k p t v ∈ ss → Noted index v) (a : Dependency) :
    ∃ names, Reads index a (block index a ss).1 names (Expr.freeStmts ss) ∧
      (block index a ss).2 = names.length := by
  induction ss generalizing a with
  | nil => exact ⟨[], .refl index a, rfl⟩
  | cons s ss ihss =>
    have ihss := ihss (fun e he => ih e (List.mem_cons_of_mem _ he))
      fun k p t v he => ihd k p t v (List.mem_cons_of_mem _ he)
    cases hs : s.isDefinition with
    | true =>
      obtain ⟨k, p, t, v, rfl⟩ := Expr.isDefinition_iff.1 hs
      obtain ⟨names, hrest, hcount⟩ := ihss ((expression index a v).bindPattern p)
      have hbound := (bindPattern_reads index (expression index a v) p).trans hrest
      have hall := (ihd k p t v List.mem_cons_self a).andThen hbound
      exact ⟨p.names ++ names, hall, by rw [List.length_append, ← hcount]; rfl⟩
    | false =>
      obtain ⟨names, hrest, hcount⟩ := ihss (expression index a s)
      rw [block_stmt index a hs, Expr.freeStmts_stmt hs]
      exact ⟨names, (ih s List.mem_cons_self a).andThen hrest, hcount⟩

/-- **The analysis of an expression notes the names that it refers to**, and leaves no scope
open. -/
theorem expression_reads (index : Nat) (e : Expr) : Noted index e := by
  induction e using Expr.induction with
  | number | string | boolean | unit | nil | define | missing => exact Reads.refl index
  | ident x => exact fun a => refer_reads index a x
  | binary op l r ihl ihr => exact fun a => (ihl a).andThen (ihr _)
  | cons h t ihh iht => exact fun a => (ihh a).andThen (iht _)
  | cond c y n ihc ihy ihn => exact fun a => ((ihc a).andThen (ihy _)).andThen (ihn _)
  | lambda p t b ihb => exact fun a => ihb.under a p
  | app f e ihf ihe => exact fun a => (ihf a).andThen (ihe _)
  | block ss ih ihd =>
    intro a
    obtain ⟨names, hreads, hcount⟩ := block_reads ih ihd a
    have hclose := hreads.close
    rw [← hcount] at hclose
    exact hclose
  | select v arms ihv iharms => exact fun a => (ihv a).andThen (arms_reads iharms _)

end

end Dependency

/-! ## Statements -/

namespace Expr

/-- The names that a statement refers to.  A definition refers to those of its value. -/
def references : Expr → List String
  | .define _ _ _ v => v.free
  | e => e.free

/-- The names that a statement defines. -/
def defines : Expr → List String
  | .define _ p _ _ => p.names
  | _ => []

end Expr

namespace Dependency

section
variable {index : Nat} {a : Dependency}

theorem get?_foldl_insert {names : List String} (m : SortedMap Origin) (o : Origin)
    (x : String) : (names.foldl (fun m y => m.insert y o) m).get? x =
      if x ∈ names then some o else m.get? x := by
  induction names generalizing m with
  | nil => simp
  | cons y names ih =>
    rw [List.foldl_cons, ih, SortedMap.get?_insert]
    by_cases hx : x ∈ names <;> by_cases hy : x = y <;> simp [hx, hy]

/-- **What the analysis of a statement does**: it notes the references, and then binds the
names that are defined. -/
theorem statement_reads (index : Nat) (a : Dependency) (e : Expr) :
    (∀ x, (statement index a e).scopes.get? x =
      if x ∈ e.defines then some (.statement index) else a.scopes.get? x) ∧
    ((statement index a e).graph, (statement index a e).free) =
      e.references.foldl (note index a.scopes.get?) (a.graph, a.free) := by
  have hreads (e : Expr) := expression_reads index e a
  have hscopes (e : Expr) (x : String) : (expression index a e).scopes.get? x =
      a.scopes.get? x := by
    rw [(hreads e).scopes, if_neg List.not_mem_nil]
  cases e with
  | define k p t v =>
    refine ⟨fun x => ?_, (hreads v).notes⟩
    show (p.names.foldl _ (expression index a v).scopes).get? x = _
    rw [get?_foldl_insert, hscopes]
    rfl
  | _ => exact ⟨fun x => (hscopes _ x).trans (if_neg List.not_mem_nil).symm, (hreads _).notes⟩

/-- The edges that references add. -/
theorem foldl_note_graph {origin : String → Option Origin} {xs : List String}
    {notes : Graph × List String} (hindex : index < notes.1.length) :
    (xs.foldl (note index origin) notes).1.length = notes.1.length ∧
    ∀ u w, w ∈ (xs.foldl (note index origin) notes).1.successors u ↔
      w ∈ notes.1.successors u ∨ u = index ∧ ∃ x ∈ xs, origin x = some (.statement w) := by
  induction xs generalizing notes with
  | nil => simp
  | cons x xs ih =>
    have hnote : (note index origin notes x).1.length = notes.1.length ∧
        ∀ u w, w ∈ (note index origin notes x).1.successors u ↔
          w ∈ notes.1.successors u ∨ u = index ∧ origin x = some (.statement w) := by
      rw [note]
      cases hx : origin x with
      | none => simp
      | some o =>
        cases o with
        | inner => simp
        | statement target =>
          refine ⟨Graph.length_addEdge _ _ _, fun u w => ?_⟩
          rw [Graph.mem_successors_addEdge hindex]
          simp [eq_comm]
    obtain ⟨hlen, hedges⟩ := hnote
    obtain ⟨ihlen, ihedges⟩ := ih (hlen ▸ hindex)
    rw [List.foldl_cons]
    refine ⟨ihlen.trans hlen, fun u w => ?_⟩
    rw [ihedges, hedges, or_assoc, ← and_or_left, List.exists_mem_cons_iff]

/-- **The edges after a statement**: those from before, and one to each statement that binds
a name that it refers to. -/
theorem statement_edges (hindex : index < a.graph.length) (e : Expr) :
    (statement index a e).graph.length = a.graph.length ∧
    ∀ u w, w ∈ (statement index a e).graph.successors u ↔ w ∈ a.graph.successors u ∨
      u = index ∧ ∃ x ∈ e.references, a.scopes.get? x = some (.statement w) := by
  have hgraph : (statement index a e).graph =
      (e.references.foldl (note index a.scopes.get?) (a.graph, a.free)).1 :=
    congrArg Prod.fst (statement_reads index a e).2
  rw [hgraph]
  exact foldl_note_graph hindex

/-- **The state before a statement of a program**: names are bound by earlier statements,
and edges lead to these. -/
structure Ready (index : Nat) (a : Dependency) : Prop where
  bound : ∀ x o, a.scopes.get? x = some o → ∃ j, o = .statement j ∧ j < index
  edges : ∀ u, ∀ w ∈ a.graph.successors u, w < index

theorem ready_empty (n : Nat) : Ready 0 { graph := .empty n } where
  bound x o ho := by cases ho
  edges u w hw := by
    rw [Graph.successors_empty] at hw
    cases hw

theorem Ready.statement (h : Ready index a) (hindex : index < a.graph.length) (e : Expr) :
    Ready (index + 1) (statement index a e) where
  bound x o ho := by
    rw [(statement_reads index a e).1] at ho
    split at ho
    · cases ho
      exact ⟨index, rfl, Nat.lt_succ_self index⟩
    · obtain ⟨j, rfl, hj⟩ := h.bound x o ho
      exact ⟨j, rfl, Nat.lt_succ_of_lt hj⟩
  edges u w hw := by
    obtain hw | ⟨-, x, -, hx⟩ := ((statement_edges hindex e).2 u w).1 hw
    · exact Nat.lt_succ_of_lt (h.edges u w hw)
    · obtain ⟨j, hj, hlt⟩ := h.bound x _ hx
      cases hj
      exact Nat.lt_succ_of_lt hlt

/-! ## Programs -/

/-- The statements of a program that is accepted are gone through one by one. -/
theorem statements_cons {e : Expr} {es : List Expr} (h : (statements a index (e :: es)).2 = none) :
    statements a index (e :: es) = statements (statement index a e) (index + 1) es := by
  rw [statements] at h ⊢
  cases hvalid : e.validate with
  | error m => simp [hvalid] at h
  | ok => rfl

/-- Edges stay, and none leads out of the program. -/
theorem statements_edges {es : List Expr} (h : Ready index a)
    (hlen : index + es.length = a.graph.length) (haccepted : (statements a index es).2 = none) :
    (∀ u, ∀ w ∈ a.graph.successors u, w ∈ (statements a index es).1.graph.successors u) ∧
      (statements a index es).1.graph.length = a.graph.length ∧
      (statements a index es).1.graph.Within := by
  induction es generalizing index a with
  | nil =>
    refine ⟨fun _ _ hw => hw, rfl, fun u w hw => ?_⟩
    exact hlen ▸ h.edges u w hw
  | cons e es ih =>
    rw [List.length_cons] at hlen
    have hindex : index < a.graph.length := by omega
    obtain ⟨hsize, hedges⟩ := statement_edges hindex e
    have hrest := statements_cons haccepted
    obtain ⟨ihgrows, ihsize, ihwithin⟩ :=
      ih (h.statement hindex e) (by omega) (hrest ▸ haccepted)
    rw [hrest]
    exact ⟨fun u w hw => ihgrows u w ((hedges u w).2 (.inl hw)), ihsize.trans hsize, ihwithin⟩

/-- **A statement has an edge to each statement that binds a name that it refers to**, in
the graph of the whole program. -/
theorem statements_refers {e : Expr} {es : List Expr} (h : Ready index a)
    (hlen : index + (e :: es).length = a.graph.length)
    (haccepted : (statements a index (e :: es)).2 = none) :
    ∀ x ∈ e.references, ∀ j, a.scopes.get? x = some (.statement j) →
      j ∈ (statements a index (e :: es)).1.graph.successors index := by
  rw [List.length_cons] at hlen
  have hindex : index < a.graph.length := by omega
  obtain ⟨hsize, hedges⟩ := statement_edges hindex e
  have hrest := statements_cons haccepted
  have hlen' : index + 1 + es.length = (statement index a e).graph.length := by omega
  obtain ⟨hgrows, -⟩ := statements_edges (h.statement hindex e) hlen' (hrest ▸ haccepted)
  rw [hrest]
  exact fun x hx j hj => hgrows index j ((hedges index j).2 (.inr ⟨rfl, x, hx, hj⟩))

end

end Dependency

end LetPoly
