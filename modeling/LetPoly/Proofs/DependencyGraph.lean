import LetPoly.Proofs.References
import LetPoly.Ty.Unify

/-! # The graph of a program

The analysis goes through a program once and keeps a binding for each name in scope.  Between
two statements no scope is open, so the bindings are those of the top level: each name has the
last statement that has defined it (`LastDefines`).  From this the rest of what is noted
follows.  A statement has an edge to the last statement before it that defines a name that it
refers to, and a name that no statement before it defines is free (`Analyzed`).

The state after each statement has this form (`Analyzed.concat`), and so has the state at
the end (`analyze_exact`).
-/

namespace LetPoly

/-! ## What defines a name -/

/-- **The statement with this index defines the name, and no later one does.** -/
def LastDefines (program : List Expr) (x : String) (index : Nat) : Prop :=
  ∃ before e after, program = before ++ e :: after ∧ before.length = index ∧ x ∈ e.defines ∧
    ∀ d ∈ after, x ∉ d.defines

/-- **The names that statements refer to before they are defined**, in order and as often as
they do.  Some statements stand before them. -/
def undefinedNames (earlier : List Expr) : List Expr → List String
  | [] => []
  | e :: es =>
    e.references.filter (fun x => ∀ d ∈ earlier, x ∉ d.defines) ++
      undefinedNames (earlier ++ [e]) es

section
variable {earlier es : List Expr} {e : Expr} {x : String} {index : Nat}

/-- A statement of a program with one more statement is the new one, or stands before it. -/
theorem concat_eq_split {before after : List Expr} {d : Expr}
    (h : earlier ++ [e] = before ++ d :: after) :
    before = earlier ∧ d = e ∧ after = [] ∨
      ∃ between, after = between ++ [e] ∧ earlier = before ++ d :: between := by
  induction after using List.reverseRecOn with
  | nil =>
    obtain ⟨rfl, hd⟩ := List.append_inj' h rfl
    exact .inl ⟨rfl, (List.head_eq_of_cons_eq hd).symm, rfl⟩
  | append_singleton between d' =>
    rw [← List.cons_append, ← List.append_assoc] at h
    obtain ⟨rfl, hd⟩ := List.append_inj' h rfl
    exact .inr ⟨between, by rw [List.head_eq_of_cons_eq hd], rfl⟩

/-- A statement that defines a name is the last to do so, until another one does. -/
theorem lastDefines_concat : LastDefines (earlier ++ [e]) x index ↔
    x ∈ e.defines ∧ index = earlier.length ∨ x ∉ e.defines ∧ LastDefines earlier x index := by
  constructor
  · rintro ⟨before, d, after, heq, rfl, hx, hafter⟩
    obtain ⟨rfl, rfl, rfl⟩ | ⟨after, rfl, rfl⟩ := concat_eq_split heq
    · exact .inl ⟨hx, rfl⟩
    · exact .inr ⟨hafter e (by simp), before, d, after, rfl, rfl, hx,
        fun d hd => hafter d (List.mem_append_left _ hd)⟩
  · rintro (⟨hx, rfl⟩ | ⟨hxe, before, d, after, rfl, rfl, hx, hafter⟩)
    · exact ⟨earlier, e, [], rfl, rfl, hx, by simp⟩
    · refine ⟨before, d, after ++ [e], by simp, rfl, hx, fun d' hd' => ?_⟩
      rcases List.mem_append.1 hd' with hd' | hd'
      · exact hafter d' hd'
      · rwa [List.mem_singleton.1 hd']

/-- A name that is defined has a last definition. -/
theorem exists_lastDefines (h : ∃ d ∈ earlier, x ∈ d.defines) : ∃ j, LastDefines earlier x j := by
  induction earlier using List.reverseRecOn with
  | nil => simp at h
  | append_singleton earlier e ih =>
    by_cases hx : x ∈ e.defines
    · exact ⟨earlier.length, lastDefines_concat.2 (.inl ⟨hx, rfl⟩)⟩
    · obtain ⟨d, hd, hxd⟩ := h
      have hmem : d ∈ earlier := (List.mem_append.1 hd).resolve_right fun hd =>
        hx (List.mem_singleton.1 hd ▸ hxd)
      obtain ⟨j, hj⟩ := ih ⟨d, hmem, hxd⟩
      exact ⟨j, lastDefines_concat.2 (.inr ⟨hx, hj⟩)⟩

theorem mem_undefinedNames : x ∈ undefinedNames earlier es ↔
    ∃ before e after, es = before ++ e :: after ∧ x ∈ e.references ∧
      ∀ d ∈ earlier ++ before, x ∉ d.defines := by
  induction es generalizing earlier with
  | nil => simp [undefinedNames]
  | cons e es ih =>
    rw [undefinedNames, List.mem_append, List.mem_filter, decide_eq_true_iff, ih]
    constructor
    · rintro (⟨hx, hd⟩ | ⟨before, e', after, rfl, hx, hd⟩)
      · exact ⟨[], e, es, rfl, hx, by rwa [List.append_nil]⟩
      · exact ⟨e :: before, e', after, rfl, hx, by rwa [List.append_cons]⟩
    · rintro ⟨_ | ⟨d, before⟩, e', after, heq, hx, hd⟩
      · obtain ⟨rfl, rfl⟩ := List.cons.inj heq
        exact .inl ⟨hx, by rwa [List.append_nil] at hd⟩
      · obtain ⟨rfl, rfl⟩ := List.cons.inj heq
        exact .inr ⟨before, e', after, rfl, hx, by rwa [List.append_cons] at hd⟩

theorem undefinedNames_append (fs : List Expr) : undefinedNames earlier (es ++ fs) =
    undefinedNames earlier es ++ undefinedNames (earlier ++ es) fs := by
  induction es generalizing earlier with
  | nil => rw [undefinedNames, List.append_nil]; rfl
  | cons e es ih =>
    rw [List.cons_append, undefinedNames, undefinedNames, ih, List.append_assoc, List.append_assoc,
      List.singleton_append]

end

namespace Dependency

/-! ## One statement -/

theorem stash_statement (index : Nat) (a : Dependency) (e : Expr) :
    (statement index a e).stash = a.stash := by
  have hstash (e : Expr) : (expression index a e).stash = a.stash := by
    obtain ⟨hidden, hstash, hlen, -⟩ := (expression_reads index e a).stash
    rw [hstash, List.eq_nil_of_length_eq_zero hlen, List.nil_append]
  cases e <;> exact hstash _

/-- The names without a binding are noted in order, each once. -/
theorem foldl_note_free {index : Nat} {origin : String → Option Origin} (xs : List String)
    {notes : Graph × List String} {ys : List String} (hnotes : notes.2 = ys.eraseDups) :
    (xs.foldl (note index origin) notes).2 =
      (ys ++ xs.filter fun x => origin x = none).eraseDups := by
  induction xs generalizing notes ys with
  | nil => simpa using hnotes
  | cons x xs ih =>
    rw [List.foldl_cons, List.filter_cons]
    cases hx : origin x with
    | some o =>
      have hnote : (note index origin notes x).2 = ys.eraseDups := by
        rw [note, hx]
        cases o <;> exact hnotes
      rw [ih hnote, if_neg (by simp)]
    | none =>
      have hnote : (note index origin notes x).2 = (ys ++ [x]).eraseDups := by
        rw [note, hx, hnotes, List.eraseDups_append]
        by_cases hmem : x ∈ ys <;> simp [hmem, List.removeAll, List.eraseDups_cons]
      rw [ih hnote, if_pos (by simp), List.append_assoc, List.singleton_append]

/-- **The state after some statements of a program.** -/
structure Analyzed (earlier : List Expr) (a : Dependency) : Prop where
  scopes : ∀ x o, a.scopes.get? x = some o ↔ ∃ j, o = .statement j ∧ LastDefines earlier x j
  stash : a.stash = []
  edges : ∀ i j, j ∈ a.graph.successors i ↔ ∃ before e after, earlier = before ++ e :: after ∧
    before.length = i ∧ ∃ x ∈ e.references, LastDefines before x j
  free : a.free = (undefinedNames [] earlier).eraseDups

section
variable {earlier es : List Expr} {a : Dependency}

theorem analyzed_nil (n : Nat) : Analyzed [] { graph := .empty n } where
  scopes x o := by simp [SortedMap.get?, LastDefines]
  stash := rfl
  edges i j := by simp
  free := rfl

theorem Analyzed.get?_eq_none (h : Analyzed earlier a) (x : String) :
    a.scopes.get? x = none ↔ ∀ d ∈ earlier, x ∉ d.defines := by
  constructor
  · intro hnone d hd hx
    obtain ⟨j, hj⟩ := exists_lastDefines ⟨d, hd, hx⟩
    rw [(h.scopes x _).2 ⟨j, rfl, hj⟩] at hnone
    cases hnone
  · intro hall
    rw [Option.eq_none_iff_forall_ne_some]
    intro o ho
    obtain ⟨-, -, before, d, after, rfl, -, hx, -⟩ := (h.scopes x o).1 ho
    exact hall d (by simp) hx

/-- **One more statement.** -/
theorem Analyzed.concat (h : Analyzed earlier a) (hindex : earlier.length < a.graph.length)
    (e : Expr) : Analyzed (earlier ++ [e]) (statement earlier.length a e) where
  scopes x o := by
    rw [(statement_reads earlier.length a e).1]
    by_cases hx : x ∈ e.defines <;> simp [hx, lastDefines_concat, h.scopes, eq_comm]
  stash := by rw [stash_statement, h.stash]
  edges i j := by
    rw [(statement_edges hindex e).2, h.edges]
    constructor
    · rintro (⟨before, d, after, rfl, hi, hx⟩ | ⟨rfl, x, hx, hj⟩)
      · exact ⟨before, d, after ++ [e], by simp, hi, hx⟩
      · obtain ⟨j', hj', hlast⟩ := (h.scopes x _).1 hj
        cases hj'
        exact ⟨earlier, e, [], rfl, rfl, x, hx, hlast⟩
    · rintro ⟨before, d, after, heq, rfl, x, hx, hlast⟩
      obtain ⟨rfl, rfl, rfl⟩ | ⟨after, rfl, rfl⟩ := concat_eq_split heq
      · exact .inr ⟨rfl, x, hx, (h.scopes x _).2 ⟨j, rfl, hlast⟩⟩
      · exact .inl ⟨before, d, after, rfl, rfl, x, hx, hlast⟩
  free := by
    have hfree : (statement earlier.length a e).free =
        (e.references.foldl (note earlier.length a.scopes.get?) (a.graph, a.free)).2 :=
      congrArg Prod.snd (statement_reads earlier.length a e).2
    rw [hfree, foldl_note_free e.references h.free, undefinedNames_append]
    simp only [h.get?_eq_none, undefinedNames, List.nil_append, List.append_nil]

/-- **All statements of a program.** -/
theorem Analyzed.append (h : Analyzed earlier a)
    (hlen : earlier.length + es.length = a.graph.length)
    (haccepted : (statements a earlier.length es).2 = none) :
    Analyzed (earlier ++ es) (statements a earlier.length es).1 := by
  induction es generalizing earlier a with
  | nil => rwa [List.append_nil]
  | cons e es ih =>
    rw [List.length_cons] at hlen
    have hindex : earlier.length < a.graph.length := by omega
    have hsize := (statement_edges hindex e).1
    have hlength : (earlier ++ [e]).length = earlier.length + 1 := by simp
    have hrest := statements_cons haccepted
    rw [hrest, ← hlength] at haccepted ⊢
    rw [List.append_cons]
    exact ih (h.concat hindex e) (by omega) haccepted

end

/-! ## Programs -/

/-- **The analysis finds what a program depends on.**  If the program is accepted, a statement
has an edge to another one if and only if it refers to a name that the other one is the last
to define before it; the free names are those that a statement refers to and none before it
defines, in order of first reference; and at the end nothing is hidden, and the names in scope
are those that are defined, each with its last definition. -/
theorem analyze_exact (program : List Expr) (haccepted : (analyze {} program).2 = none) :
    let a := (analyze {} program).1
    a.graph.length = program.length ∧
    (∀ i j, a.graph.hasEdge i j ↔ ∃ before e after, program = before ++ e :: after ∧
      before.length = i ∧ ∃ x ∈ e.references, LastDefines before x j) ∧
    (a.free = (undefinedNames [] program).eraseDups ∧ a.free.Nodup ∧
      ∀ x, x ∈ a.free ↔ ∃ before e after, program = before ++ e :: after ∧ x ∈ e.references ∧
        ∀ d ∈ before, x ∉ d.defines) ∧
    a.stash = [] ∧
    ∀ x o, a.scopes.get? x = some o ↔ ∃ j, o = .statement j ∧ LastDefines program x j := by
  have hlen : ([] : List Expr).length + program.length = (Graph.empty program.length).length := by
    simp
  have hsize := (statements_edges (ready_empty program.length) hlen haccepted).2.1
  obtain ⟨hscopes, hstash, hedges, hfree⟩ := (analyzed_nil program.length).append hlen haccepted
  refine ⟨hsize.trans (Graph.length_empty _), fun i j => ?_, ⟨hfree, ?_, fun x => ?_⟩, hstash,
    hscopes⟩
  · exact decide_eq_true_iff.trans (hedges i j)
  · exact hfree ▸ nodup_eraseDups _
  · exact (hfree ▸ List.mem_eraseDups).trans mem_undefinedNames

/-- A name that is defined twice, and hidden by a definition of a block that refers to it. -/
theorem analyze_exact_hidden :
    let val (x : String) (e : Expr) : Expr := .define .val (.ident x) none e
    let sum (e e' : Expr) : Expr := .binary .plus e e'
    let block := Expr.block [val "x" (.ident "x"), .app (.ident "f") (.ident "x")]
    let program := [val "x" (.number 1),
      val "f" (.lambda (.ident "y") none (sum (.ident "x") (sum (.ident "y") (.ident "z")))),
      val "x" (.app (.ident "f") (sum (.ident "w") (.ident "z"))), block]
    let a := (analyze {} program).1
    (analyze {} program).2 = none ∧ a.graph = [[], [0], [1], [2, 1]] ∧ a.free = ["z", "w"] ∧
      (∃ before e after, program = before ++ e :: after ∧ before.length = 3 ∧
        ∃ x ∈ e.references, LastDefines before x 2) ∧
      (¬ ∃ before e after, program = before ++ e :: after ∧ before.length = 3 ∧
        ∃ x ∈ e.references, LastDefines before x 0) ∧
      a.stash = [] ∧ LastDefines program "x" 2 := by
  intro val sum block program a
  have haccepted : (analyze {} program).2 = none := by cbv
  have hgraph : a.graph = [[], [0], [1], [2, 1]] := by cbv
  have hscope : a.scopes.get? "x" = some (.statement 2) := by cbv
  obtain ⟨-, hedges, -, hstash, hscopes⟩ := analyze_exact program haccepted
  refine ⟨haccepted, hgraph, by cbv, (hedges 3 2).1 ?_, fun h => ?_, hstash, ?_⟩
  · rw [show (analyze {} program).1.graph = _ from hgraph]
    decide
  · have hedge := (hedges 3 0).2 h
    rw [show (analyze {} program).1.graph = _ from hgraph] at hedge
    exact absurd hedge (by decide)
  · obtain ⟨j, hj, hlast⟩ := (hscopes "x" _).1 hscope
    cases hj
    exact hlast

end Dependency

end LetPoly
