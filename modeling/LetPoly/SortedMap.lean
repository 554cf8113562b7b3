/-! # Maps from names

A map holds one value for each of its names and lists them in increasing order of
names.
-/

namespace LetPoly

/-- The values of names, in increasing order of names. -/
abbrev SortedMap (α : Type) := List (String × α)

namespace SortedMap
variable {α : Type}

/-- The value of a name. -/
def get? (m : SortedMap α) (x : String) : Option α := m.lookup x

/-- Gives a name a value, in place of the one it had. -/
def insert : SortedMap α → String → α → SortedMap α
  | [], x, v => [(x, v)]
  | (y, w) :: rest, x, v =>
    if x < y then (x, v) :: (y, w) :: rest
    else if x = y then (x, v) :: rest
    else (y, w) :: insert rest x v

/-- Takes a name away. -/
def erase (m : SortedMap α) (x : String) : SortedMap α := m.filter (·.1 != x)

/-- The names, in increasing order. -/
def names (m : SortedMap α) : List String := m.map (·.1)

@[simp] theorem get?_insert_self (m : SortedMap α) (x : String) (v : α) :
    (m.insert x v).get? x = some v := by
  fun_induction insert m x v with
  | case1 => simp [get?]
  | case2 => simp [get?]
  | case3 => simp [get?]
  | case4 y w rest x v _ hne ih =>
    have hb : (x == y) = false := by simpa using hne
    simpa [get?, List.lookup_cons, hb] using ih

theorem get?_insert_of_ne (m : SortedMap α) {x y : String} (v : α) (h : y ≠ x) :
    (m.insert x v).get? y = m.get? y := by
  have hb : (y == x) = false := by simpa using h
  fun_induction insert m x v with
  | case1 => simp [get?, List.lookup_cons, hb]
  | case2 => simp [get?, List.lookup_cons, hb]
  | case3 => simp [get?, List.lookup_cons, hb]
  | case4 z w rest x v _ _ ih =>
    have ih := ih h hb
    simp only [get?, List.lookup_cons] at ih ⊢
    split <;> simp_all

end SortedMap

end LetPoly
