import Montygo.MountFs.Failure
import Montygo.Lib.Transition

/-!
# The memory an overlay is charged

The recorded usage of an overlay is kept by differences, in saturating 64-bit
arithmetic.  `size` is the memory in natural numbers, summed over the keys; as long
as it stays below `2 ^ 64` the recorded usage is the sum of the entries' usages.  A
rename projects its batch first and commits it in another order; both end in the
same entries, so they end in the same usage.
-/

namespace Montygo.MountFs

open Go Value Outcome

/-- The memory of an entry, in natural numbers. -/
def entrySize (key : GoString) (e : OverlayEntry) : ℕ :=
  304 + key.length +
    match e.kind with
    | .file => e.content.length
    | .realFileRef => e.relative.length
    | .directory | .deleted => 0

theorem toNat_entryUsage {key : GoString} {e : OverlayEntry} (h : entrySize key e < 2 ^ 64) :
    (entryUsage key e).toNat = entrySize key e := by
  have hbase : (256 : UInt64).toNat = 256 ∧ (48 : UInt64).toNat = 48 := ⟨rfl, rfl⟩
  unfold entrySize at h ⊢
  cases hkind : e.kind <;>
    · simp only [hkind] at h
      simp only [entryUsage, hkind, baseEntryUsage, toNat_satAdd, entryMemoryUsage,
        overlayEntrySize, UInt64.toNat_ofNat', hbase, UInt64.toNat_zero]
      omega

namespace OverlayState

variable {s s' : OverlayState} {k : GoString} {e : OverlayEntry}

/-- The memory under a key. -/
def sizeAt (s : OverlayState) (k : GoString) : ℕ := ((s.entries k).map (entrySize k)).getD 0

/-- The memory of all entries. -/
def size (s : OverlayState) : ℕ := (s.keys.map s.sizeAt).sum

/-- The sum of the entries' usages. -/
def usageSum (s : OverlayState) : ℕ := (s.keys.map fun k => (s.usageAt k).toNat).sum

/-- The memory of all entries, with the one under `k` apart. -/
theorem size_eq (hs : s.Sorted) (k : GoString) :
    s.size = ((s.keys.filter (· ≠ k)).map s.sizeAt).sum + s.sizeAt k := by
  refine SortedKeys.sum_map_eq hs.pairwise ?_
  intro hk
  have hnone : s.entries k = none := not_not.mp fun h => hk ((hs.mem_iff k).mpr h)
  simp [sizeAt, hnone]

theorem sizeAt_le_size (hs : s.Sorted) : s.sizeAt k ≤ s.size := by
  rw [size_eq hs k]
  exact Nat.le_add_left _ _

theorem toNat_usageAt (h : s.sizeAt k < 2 ^ 64) : (s.usageAt k).toNat = s.sizeAt k := by
  unfold usageAt
  unfold sizeAt at h ⊢
  cases hk : s.entries k with
  | none => rfl
  | some e =>
    simp only [hk, Option.map_some, Option.getD_some] at h ⊢
    exact toNat_entryUsage h

/-- Below `2 ^ 64` nothing saturates: the usages sum up to the memory. -/
theorem usageSum_eq_size (hs : s.Sorted) (h : s.size < 2 ^ 64) : s.usageSum = s.size := by
  unfold usageSum size
  congr 1
  refine List.map_congr_left ?_
  intro k _
  exact toNat_usageAt ((sizeAt_le_size hs).trans_lt h)

/-! ## One entry put in or taken out -/

/-- Sorted states with the same entries under all keys but `k` have the same memory but
for the one under `k`. -/
theorem size_add_sizeAt (hs : s.Sorted) (hs' : s'.Sorted)
    (hsame : ∀ a, a ≠ k → s'.entries a = s.entries a) :
    s'.size + s.sizeAt k = s.size + s'.sizeAt k := by
  have hkeys : s'.keys.filter (· ≠ k) = s.keys.filter (· ≠ k) := by
    refine SortedKeys.eq_of_mem_iff (hs'.pairwise.filter _) (hs.pairwise.filter _) ?_
    intro a
    simp only [List.mem_filter, hs'.mem_iff, hs.mem_iff, decide_eq_true_eq]
    exact and_congr_left fun ha => by rw [hsame a ha]
  have hsum : ((s'.keys.filter (· ≠ k)).map s'.sizeAt).sum =
      ((s.keys.filter (· ≠ k)).map s.sizeAt).sum := by
    rw [hkeys]
    congr 1
    refine List.map_congr_left ?_
    intro a ha
    have hne : a ≠ k := by simpa using (List.mem_filter.mp ha).2
    rw [sizeAt, sizeAt, hsame a hne]
  rw [size_eq hs k, size_eq hs' k, hsum]
  omega

/-- The recorded usage is the memory of the entries. -/
structure Exact (s : OverlayState) : Prop extends s.Sorted where
  usage_eq : s.usage.toNat = s.size

theorem exact_new : newOverlayState.Exact := ⟨sorted_new, rfl⟩

theorem Sorted.insertUnchecked (hs : s.Sorted) : (s.insertUnchecked k e).Sorted :=
  hs.put.of_keys rfl fun _ => Iff.rfl

theorem sizeAt_insertUnchecked : (s.insertUnchecked k e).sizeAt k = entrySize k e := by
  simp [sizeAt, OverlayState.insertUnchecked]

theorem size_insertUnchecked (hs : s.Sorted) :
    (s.insertUnchecked k e).size + s.sizeAt k = s.size + entrySize k e := by
  rw [size_add_sizeAt hs hs.insertUnchecked, sizeAt_insertUnchecked]
  intro a ha
  exact Function.update_of_ne ha _ _

theorem Exact.insertUnchecked (hs : s.Exact) (hfits : (s.insertUnchecked k e).size < 2 ^ 64) :
    (s.insertUnchecked k e).Exact := by
  have hle : entrySize k e ≤ (s.insertUnchecked k e).size := by
    rw [← sizeAt_insertUnchecked]
    exact sizeAt_le_size hs.toSorted.insertUnchecked
  have hsize := size_insertUnchecked (k := k) (e := e) hs.toSorted
  have hat := sizeAt_le_size (k := k) hs.toSorted
  have husage := s.usage.toNat_lt
  have hold : (s.usageAt k).toNat = s.sizeAt k := toNat_usageAt (by rw [hs.usage_eq] at husage; omega)
  refine ⟨hs.toSorted.insertUnchecked, ?_⟩
  show (s.projectedUsage k e).toNat = _
  rw [projectedUsage, toNat_satAdd, toNat_satSub, hold, hs.usage_eq, toNat_entryUsage (by omega)]
  omega

theorem size_remove (hs : s.Sorted) : (s.remove k).2.size + s.sizeAt k = s.size := by
  rw [size_add_sizeAt hs hs.remove]
  · simp [sizeAt, remove_snd_entries]
  · intro a ha
    rw [remove_snd_entries, Function.update_of_ne ha]

theorem Exact.remove (hs : s.Exact) : (s.remove k).2.Exact := by
  have hsize := size_remove (k := k) hs.toSorted
  have husage := s.usage.toNat_lt
  refine ⟨hs.toSorted.remove, ?_⟩
  have hold : s.entries k ≠ none → (s.remove k).2.usage = satSub s.usage (s.usageAt k) := by
    intro hk
    obtain ⟨e, he⟩ := Option.ne_none_iff_exists'.mp hk
    simp only [OverlayState.remove, usageAt, he]
  by_cases hk : s.entries k = none
  · have hself : (s.remove k).2 = s := by
      unfold OverlayState.remove
      rw [hk]
    rw [hself]
    exact hs.usage_eq
  · rw [hold hk, toNat_satSub, hs.usage_eq, toNat_usageAt (by rw [hs.usage_eq] at husage; omega)]
    omega

/-! ## A batch of entries -/

/-- The entries of a batch, put one after another. -/
def putAll (s : OverlayState) (batch : List (GoString × OverlayEntry)) : OverlayState :=
  batch.foldl (fun s r => s.insertUnchecked r.1 r.2) s

/-- The memory of the entries of a batch. -/
def batchSize (batch : List (GoString × OverlayEntry)) : ℕ :=
  (batch.map fun r => entrySize r.1 r.2).sum

theorem putAll_append (batch batch' : List (GoString × OverlayEntry)) :
    s.putAll (batch ++ batch') = (s.putAll batch).putAll batch' :=
  List.foldl_append

variable {batch : List (GoString × OverlayEntry)}

theorem Exact.putAll (hs : s.Exact) (hfits : s.size + batchSize batch < 2 ^ 64) :
    (s.putAll batch).Exact := by
  induction batch generalizing s with
  | nil => exact hs
  | cons r rest ih =>
    obtain ⟨key, e⟩ := r
    have hcons : batchSize ((key, e) :: rest) = entrySize key e + batchSize rest := by
      simp [batchSize]
    have hsize := size_insertUnchecked (k := key) (e := e) hs.toSorted
    rw [hcons] at hfits
    have hput : (s.insertUnchecked key e).size + batchSize rest < 2 ^ 64 := by omega
    exact ih (hs.insertUnchecked (show (s.insertUnchecked key e).size < 2 ^ 64 by omega)) hput

theorem putAll_entries_congr (hsame : ∀ k, k ∉ batch.map Prod.fst → s.entries k = s'.entries k) :
    (s.putAll batch).entries = (s'.putAll batch).entries := by
  induction batch generalizing s s' with
  | nil =>
    funext k
    exact hsame k (by simp)
  | cons r rest ih =>
    refine ih ?_
    intro k hk
    by_cases hkey : k = r.1
    · simp [insertUnchecked, hkey]
    · have hnot : k ∉ (r :: rest).map Prod.fst := by simp_all
      simpa [insertUnchecked, hkey] using hsame k hnot

theorem size_congr (hs : s.Sorted) (hs' : s'.Sorted) (hsame : s.entries = s'.entries) :
    s.size = s'.size := by
  have hkeys : s.keys = s'.keys := by
    refine SortedKeys.eq_of_mem_iff hs.pairwise hs'.pairwise ?_
    intro a
    rw [hs.mem_iff, hs'.mem_iff, hsame]
  have hat : s.sizeAt = s'.sizeAt := by
    funext k
    rw [sizeAt, sizeAt, hsame]
  rw [size, size, hkeys, hat]

/-- **`checkReplacements` projects the usage that the batch has once it is put.** -/
theorem projectReplacements_eq {replaced : GoString → Option UInt64} (t : OverlayState)
    (hreplaced : ∀ k, (replaced k).getD (s.usageAt k) = t.usageAt k) :
    s.projectReplacements t.usage replaced batch = (t.putAll batch).usage := by
  induction batch generalizing t replaced with
  | nil => rfl
  | cons r rest ih =>
    obtain ⟨key, e⟩ := r
    rw [projectReplacements, hreplaced]
    refine ih (t.insertUnchecked key e) ?_
    intro k
    by_cases hkey : k = key
    · simp [hkey, usageAt, insertUnchecked]
    · simpa [hkey, usageAt, insertUnchecked] using hreplaced k

end OverlayState

end Montygo.MountFs
