import LetPoly.Text.Decimal
import LetPoly.Ty.Basic

/-! # Canonical names

The canonical form of a type names its variables `1`, `2`, … in the order in
which they first appear in its body, be it where they are used or where an inner
scheme binds them.  The leading binders are taken off first and put back in the
order of their new names; those that do not appear in the body come last.
-/

namespace LetPoly.Ty

/-- The names met so far, in the order in which they were met. -/
abbrev Seen := List String

/-- A name is met: it joins the others unless it is one of them. -/
def Seen.meet (seen : Seen) (x : String) : Seen := if x ∈ seen then seen else seen ++ [x]

/-- The number of a name that has been met, counted from one. -/
def Seen.number (seen : Seen) (x : String) : String := Text.Decimal.natural (seen.idxOf x + 1)

/-- Names met from left to right in a type are replaced by their numbers. -/
def relabel : Ty → Seen → Ty × Seen
  | .const c, seen => (.const c, seen)
  | .missing, seen => (.missing, seen)
  | .var x, seen =>
    let seen := seen.meet x
    (.var (seen.number x), seen)
  | .arrow a r, seen =>
    let (a, seen) := a.relabel seen
    let (r, seen) := r.relabel seen
    (.arrow a r, seen)
  | .app f a, seen =>
    let (f, seen) := f.relabel seen
    let (a, seen) := a.relabel seen
    (.app f a, seen)
  | .poly b t, seen =>
    let seen := seen.meet b
    let name := seen.number b
    let (t, seen) := t.relabel seen
    (.poly name t, seen)
  | .list t, seen =>
    let (t, seen) := t.relabel seen
    (.list t, seen)

/-- **The canonical form of a type.** -/
def canonical (t : Ty) : Ty :=
  let (bound, body) := t.unbind
  let (body, seen) := body.relabel []
  let seen := bound.foldl Seen.meet seen
  bindAll ((seen.filter (· ∈ bound)).map seen.number) body

end LetPoly.Ty
