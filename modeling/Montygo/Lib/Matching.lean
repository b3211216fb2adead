import Mathlib.Data.Fintype.EquivFin

/-!
# Matchings between lists

Two lists cover each other when every item of either has a partner in the other.  Where no two
items of a list share a partner, covering is a matter of one direction and of the lengths.
-/

namespace Matching

variable {α β γ : Type*} {r : α → β → Prop} {xs : List α} {ys : List β}

/-- Every item of either list has a partner in the other. -/
def Covers (r : α → β → Prop) (xs : List α) (ys : List β) : Prop :=
  (∀ x ∈ xs, ∃ y ∈ ys, r x y) ∧ ∀ y ∈ ys, ∃ x ∈ xs, r x y

/-- No two items of the first list share a partner. -/
def Apart (r : α → β → Prop) (xs : List α) (ys : List β) : Prop :=
  xs.Pairwise fun x x' => ∀ y ∈ ys, r x y → r x' y → False

theorem Covers.swap (h : Covers r xs ys) : Covers (fun y x => r x y) ys xs := ⟨h.2, h.1⟩

theorem Covers.mono {r' : α → β → Prop} (h : Covers r xs ys)
    (hr : ∀ x ∈ xs, ∀ y ∈ ys, r x y → r' x y) : Covers r' xs ys := by
  refine ⟨fun x hx => ?_, fun y hy => ?_⟩
  · obtain ⟨y, hy, hxy⟩ := h.1 x hx
    exact ⟨y, hy, hr x hx y hy hxy⟩
  · obtain ⟨x, hx, hxy⟩ := h.2 y hy
    exact ⟨x, hx, hr x hx y hy hxy⟩

theorem Covers.trans {s : β → γ → Prop} {t : α → γ → Prop} {zs : List γ}
    (hrs : ∀ x ∈ xs, ∀ y ∈ ys, ∀ z ∈ zs, r x y → s y z → t x z) (h : Covers r xs ys)
    (h' : Covers s ys zs) : Covers t xs zs := by
  refine ⟨fun x hx => ?_, fun z hz => ?_⟩
  · obtain ⟨y, hy, hxy⟩ := h.1 x hx
    obtain ⟨z, hz, hyz⟩ := h'.1 y hy
    exact ⟨z, hz, hrs x hx y hy z hz hxy hyz⟩
  · obtain ⟨y, hy, hyz⟩ := h'.2 z hz
    obtain ⟨x, hx, hxy⟩ := h.2 y hy
    exact ⟨x, hx, hrs x hx y hy z hz hxy hyz⟩

end Matching
