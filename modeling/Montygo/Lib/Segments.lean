import Mathlib.Data.List.Basic
import Mathlib.Data.List.Infix

/-!
# Sequences joined by a separator

A path is a list of segments, and its spelling joins them with a separator.
When no segment is empty or contains the separator, the spelling determines the
segments, and a spelling that ends in the separator is a prefix of another one
exactly when the segments are.
-/

namespace Montygo.Segments

variable {α : Type*} {sep : α} {p q : List (List α)}

/-- The spelling of a list of segments. -/
abbrev join (sep : α) (segments : List (List α)) : List α := [sep].intercalate segments

/-- Segments that can be read back from their spelling. -/
def Proper (sep : α) (segments : List (List α)) : Prop :=
  ∀ segment ∈ segments, segment ≠ [] ∧ sep ∉ segment

theorem proper_cons {segment : List α} :
    Proper sep (segment :: p) ↔ (segment ≠ [] ∧ sep ∉ segment) ∧ Proper sep p := by
  simp [Proper]

@[simp] theorem join_nil : join sep ([] : List (List α)) = [] := List.intercalate_nil

@[simp] theorem join_singleton (segment : List α) : join sep [segment] = segment :=
  List.intercalate_singleton

theorem join_cons (segment : List α) (hp : p ≠ []) :
    join sep (segment :: p) = segment ++ sep :: join sep p := by
  rw [join, List.intercalate_cons_of_ne_nil hp]
  simp

theorem join_append (hp : p ≠ []) (hq : q ≠ []) :
    join sep (p ++ q) = join sep p ++ sep :: join sep q := by
  induction p with
  | nil => exact absurd rfl hp
  | cons segment rest ih =>
    rcases eq_or_ne rest [] with rfl | hrest
    · rw [List.singleton_append, join_cons segment hq, join_singleton]
    · rw [List.cons_append, join_cons segment (by simp [hrest]), join_cons segment hrest,
        ih hrest, List.append_assoc, List.cons_append]

theorem join_ne_nil (hp : Proper sep p) (hne : p ≠ []) : join sep p ≠ [] := by
  cases p with
  | nil => exact absurd rfl hne
  | cons segment rest =>
    rw [proper_cons] at hp
    rcases eq_or_ne rest [] with rfl | hrest
    · simpa using hp.1.1
    · rw [join_cons segment hrest]
      simp

variable [DecidableEq α]

theorem splitOn_join (hp : Proper sep p) (hne : p ≠ []) : (join sep p).splitOn sep = p :=
  List.splitOn_intercalate sep (fun segment hs => (hp segment hs).2) hne

/-- The spelling determines the segments. -/
theorem join_injective (hp : Proper sep p) (hq : Proper sep q) (h : join sep p = join sep q) :
    p = q := by
  rcases eq_or_ne p [] with rfl | hpne
  · by_contra hne
    exact join_ne_nil hq (Ne.symm hne) (by rw [← h, join_nil])
  rcases eq_or_ne q [] with rfl | hqne
  · exact absurd (by rw [h, join_nil]) (join_ne_nil hp hpne)
  rw [← splitOn_join hp hpne, h, splitOn_join hq hqne]

theorem join_inj (hp : Proper sep p) (hq : Proper sep q) : join sep p = join sep q ↔ p = q :=
  ⟨join_injective hp hq, fun h => by rw [h]⟩

/-- No piece that splitting gives contains the separator. -/
theorem not_mem_of_mem_splitOn (xs : List α) : ∀ segment ∈ xs.splitOn sep, sep ∉ segment := by
  induction xs with
  | nil => simp
  | cons x rest ih =>
    rw [List.splitOn_cons_eq_if_modifyHead]
    intro segment hsegment
    split at hsegment
    · rcases List.mem_cons.mp hsegment with rfl | hmem
      · simp
      · exact ih segment hmem
    · rename_i hx
      obtain ⟨first, others, hsplit⟩ := List.exists_cons_of_ne_nil (List.splitOn_ne_nil sep rest)
      rw [hsplit] at ih hsegment
      rw [List.modifyHead_cons] at hsegment
      rcases List.mem_cons.mp hsegment with rfl | hmem
      · have := ih first List.mem_cons_self
        simp only [List.mem_cons, not_or]
        exact ⟨fun h => hx (by simp [h]), this⟩
      · exact ih segment (List.mem_cons_of_mem _ hmem)

/-- A spelling followed by the separator is a prefix exactly of the longer spellings. -/
theorem join_sep_prefix_iff (hp : Proper sep p) (hq : Proper sep q) (hpne : p ≠ []) :
    join sep p ++ [sep] <+: join sep q ↔ ∃ r, r ≠ [] ∧ q = p ++ r := by
  constructor
  · rintro ⟨t, ht⟩
    have hqne : q ≠ [] := by
      rintro rfl
      simp at ht
    refine ⟨t.splitOn sep, List.splitOn_ne_nil sep t, ?_⟩
    rw [← splitOn_join hq hqne, ← ht, List.append_assoc, List.singleton_append,
      List.splitOn_append_cons_self, splitOn_join hp hpne]
  · rintro ⟨r, hr, rfl⟩
    rw [join_append hpne hr]
    exact ⟨join sep r, by simp⟩

end Montygo.Segments
