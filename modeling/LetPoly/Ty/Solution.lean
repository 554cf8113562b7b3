import LetPoly.Ty.Basic

/-! # Solutions of type equations

A solution lists the variables that have been solved, in the order in which they
were, each with its type.  The type of a pair may mention variables that later
pairs solve; resolving a type follows them to the end.
-/

namespace LetPoly

/-- Solved variables and their types, in the order in which they were solved. -/
abbrev Solution := List (String × Ty)

namespace Solution

/-- The solution of the other variables. -/
def without (s : Solution) (x : String) : Solution := s.filter (·.1 != x)

theorem length_without_lt {s : Solution} {x : String} {t : Ty} (h : s.lookup x = some t) :
    (s.without x).length < s.length := by
  rw [without, List.length_filter_lt_length_iff_exists]
  have hs : (s.lookup x).isSome := by simp [h]
  obtain ⟨p, hp, hx⟩ := List.lookup_isSome_iff.1 hs
  exact ⟨p, hp, by simp [eq_of_beq hx]⟩

/-- **Replaces every solved variable by its type, and that type's solved variables
by theirs.**  Binders do not stop it: a variable is replaced wherever it occurs.
Inside the type of a variable the variable itself counts as unsolved. -/
def resolve (s : Solution) : Ty → Ty
  | .const c => .const c
  | .missing => .missing
  | .var x =>
    match _h : s.lookup x with
    | none => .var x
    | some t => resolve (s.without x) t
  | .arrow a r => .arrow (resolve s a) (resolve s r)
  | .app f a => .app (resolve s f) (resolve s a)
  | .poly b t => .poly b (resolve s t)
  | .list t => .list (resolve s t)
termination_by t => (s.length, sizeOf t)
decreasing_by
  · exact Prod.Lex.left _ _ (length_without_lt _h)
  all_goals exact Prod.Lex.right _ (by simp only [Ty.arrow.sizeOf_spec, Ty.app.sizeOf_spec,
    Ty.poly.sizeOf_spec, Ty.list.sizeOf_spec]; omega)

end Solution

end LetPoly
