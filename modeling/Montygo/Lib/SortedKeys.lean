import Mathlib.Order.Basic
import Mathlib.Data.List.Basic
import Mathlib.Algebra.Order.Ring.Nat

/-!
# Strictly sorted key lists

A list of keys in strictly increasing order, with the operations a sorted slice
supports: the position of a key (what a binary search for the first element not
below it finds), insertion at that position, removal at that position, and the
keys between two bounds.  On a strictly sorted list these are the set operations
their names say.
-/

namespace Montygo.SortedKeys

variable {κ : Type*} [LinearOrder κ]

/-- The smallest position whose key is not below `k`, the length if there is none. -/
def search (keys : List κ) (k : κ) : ℕ := (keys.takeWhile (· < k)).length

/-- Makes place at the position of `k` and puts it there. -/
def insert (keys : List κ) (k : κ) : List κ :=
  keys.take (search keys k) ++ k :: keys.drop (search keys k)

/-- Closes the gap at the position of `k`. -/
def remove (keys : List κ) (k : κ) : List κ :=
  keys.take (search keys k) ++ keys.drop (search keys k + 1)

/-- The keys from the position of `lo` up to the position of `hi`. -/
def range (keys : List κ) (lo hi : κ) : List κ := (keys.take (search keys hi)).drop (search keys lo)

variable {keys : List κ} {k lo hi : κ}

theorem take_search : keys.take (search keys k) = keys.takeWhile (· < k) := by
  conv_lhs => arg 2; rw [← List.takeWhile_append_dropWhile (p := (· < k)) (l := keys)]
  exact List.take_left

theorem drop_search : keys.drop (search keys k) = keys.dropWhile (· < k) := by
  conv_lhs => arg 2; rw [← List.takeWhile_append_dropWhile (p := (· < k)) (l := keys)]
  exact List.drop_left

/-- On a sorted list the keys below `k` come first. -/
theorem takeWhile_lt (hsorted : keys.Pairwise (· < ·)) :
    keys.takeWhile (· < k) = keys.filter (· < k) := by
  induction keys with
  | nil => rfl
  | cons first rest ih =>
    rw [List.pairwise_cons] at hsorted
    by_cases hlt : first < k
    · simp [hlt, ih hsorted.2]
    have hnone : rest.filter (· < k) = [] := by
      rw [List.filter_eq_nil_iff]
      intro a ha
      have := hsorted.1 a ha
      simp only [decide_eq_true_eq, not_lt]
      exact (not_lt.mp hlt).trans this.le
    simp [hlt, hnone]

theorem dropWhile_lt (hsorted : keys.Pairwise (· < ·)) :
    keys.dropWhile (· < k) = keys.filter (k ≤ ·) := by
  induction keys with
  | nil => rfl
  | cons first rest ih =>
    rw [List.pairwise_cons] at hsorted
    by_cases hlt : first < k
    · simp [hlt, ih hsorted.2]
    have hall : rest.filter (k ≤ ·) = rest := by
      rw [List.filter_eq_self]
      intro a ha
      have := hsorted.1 a ha
      simp only [decide_eq_true_eq]
      exact (not_lt.mp hlt).trans this.le
    simp [hlt, not_lt.mp hlt, hall]

theorem mem_insert {a : κ} : a ∈ insert keys k ↔ a = k ∨ a ∈ keys := by
  conv_rhs => rw [← List.take_append_drop (search keys k) keys]
  simp only [insert, List.mem_append, List.mem_cons]
  tauto

section

variable (hsorted : keys.Pairwise (· < ·))
include hsorted

theorem pairwise_insert (hnew : k ∉ keys) : (insert keys k).Pairwise (· < ·) := by
  simp only [insert, take_search, drop_search, takeWhile_lt hsorted, dropWhile_lt hsorted]
  rw [List.pairwise_append, List.pairwise_cons]
  refine ⟨hsorted.filter _, ⟨?_, hsorted.filter _⟩, ?_⟩
  · intro a ha
    simp only [List.mem_filter, decide_eq_true_eq] at ha
    exact lt_of_le_of_ne ha.2 (fun heq => hnew (heq ▸ ha.1))
  · intro a ha b hb
    simp only [List.mem_filter, decide_eq_true_eq] at ha
    rcases List.mem_cons.mp hb with rfl | hb
    · exact ha.2
    · simp only [List.mem_filter, decide_eq_true_eq] at hb
      exact ha.2.trans_le hb.2

/-- Removing a key of a sorted list keeps the others. -/
theorem remove_eq_filter (hmem : k ∈ keys) : remove keys k = keys.filter (· ≠ k) := by
  have htail : keys.dropWhile (· < k) = k :: keys.filter (k < ·) := by
    induction keys with
    | nil => cases hmem
    | cons first rest ih =>
      rw [List.pairwise_cons] at hsorted
      rcases List.mem_cons.mp hmem with rfl | hmem
      · have hall : rest.filter (k < ·) = rest := by
          rw [List.filter_eq_self]
          intro a ha
          simpa using hsorted.1 a ha
        simp [hall]
      · have hlt := hsorted.1 k hmem
        simp [hlt, hlt.not_gt, ih hsorted.2 hmem]
  have hrest : keys.drop (search keys k + 1) = keys.filter (k < ·) := by
    rw [← List.tail_drop, drop_search, htail, List.tail_cons]
  have hhead : keys.take (search keys k) = keys.filter (· < k) := by
    rw [take_search, takeWhile_lt hsorted]
  have hsplit : keys = keys.filter (· < k) ++ k :: keys.filter (k < ·) := by
    conv_lhs => rw [← List.take_append_drop (search keys k) keys]
    rw [hhead, drop_search, htail]
  rw [remove, hhead, hrest]
  conv_rhs => rw [hsplit]
  simp only [List.filter_append, List.filter_cons, ne_eq, not_true_eq_false, decide_false,
    Bool.false_eq_true, if_false, List.filter_filter]
  congr 1
  · refine List.filter_congr ?_
    intro a _
    by_cases h : a < k <;> simp [h, ne_of_lt]
  · refine List.filter_congr ?_
    intro a _
    by_cases h : k < a <;> simp [h, ne_of_gt]

theorem pairwise_remove (hmem : k ∈ keys) : (remove keys k).Pairwise (· < ·) := by
  rw [remove_eq_filter hsorted hmem]
  exact hsorted.filter _

/-- The keys between two positions are the keys between the two bounds. -/
theorem range_eq_filter (hle : lo ≤ hi) :
    range keys lo hi = keys.filter (fun k => lo ≤ k ∧ k < hi) := by
  have hbelow : search keys lo = search (keys.filter (· < hi)) lo := by
    simp only [search, takeWhile_lt hsorted, takeWhile_lt (hsorted.filter _), List.filter_filter]
    congr 1
    refine List.filter_congr ?_
    intro a _
    by_cases h : a < lo
    · simp [h, h.trans_le hle]
    · simp [h]
  rw [range, take_search, takeWhile_lt hsorted, hbelow, drop_search,
    dropWhile_lt (hsorted.filter _), List.filter_filter]
  refine List.filter_congr ?_
  intro a _
  simp

end

/-- A strictly sorted list is determined by its elements. -/
theorem eq_of_mem_iff {keys' : List κ} (hsorted : keys.Pairwise (· < ·))
    (hsorted' : keys'.Pairwise (· < ·)) (hmem : ∀ a, a ∈ keys ↔ a ∈ keys') : keys = keys' := by
  refine List.Perm.eq_of_pairwise ?_ hsorted hsorted' ?_
  · intro a b _ _ hab hba
    exact absurd (hab.trans hba) (lt_irrefl a)
  · exact (List.perm_ext_iff_of_nodup (hsorted.imp ne_of_lt) (hsorted'.imp ne_of_lt)).mpr hmem

/-- A sum over the keys, with the term of one key apart. -/
theorem sum_map_eq (hsorted : keys.Pairwise (· < ·)) {f : κ → ℕ} (hf : k ∉ keys → f k = 0) :
    (keys.map f).sum = ((keys.filter (· ≠ k)).map f).sum + f k := by
  have hnodup : keys.Nodup := hsorted.imp ne_of_lt
  by_cases hk : k ∈ keys
  · have hperm := (List.perm_cons_erase hk).map f
    have hfilter : keys.erase k = keys.filter (· ≠ k) := by
      rw [hnodup.erase_eq_filter]
      refine List.filter_congr ?_
      intro a _
      rw [Bool.eq_iff_iff, bne_iff_ne, decide_eq_true_eq]
    rw [hperm.sum_nat, List.map_cons, List.sum_cons, hfilter, Nat.add_comm]
  · have hfilter : keys.filter (· ≠ k) = keys := by
      refine List.filter_eq_self.mpr ?_
      intro a ha
      have hne : a ≠ k := fun h => hk (h ▸ ha)
      simpa using hne
    rw [hfilter, hf hk, Nat.add_zero]

end Montygo.SortedKeys
