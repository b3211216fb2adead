import Montygo.MountFs.Host
import Montygo.MountFs.PathPolicy
import Montygo.Lib.SortedKeys
import Mathlib.Logic.Function.Basic

/-!
# The overlay state

The overlay keeps what a session changed in memory: an ordered map from
mount-relative keys to entries, with the memory those entries are charged.  The
map is modelled as a partial function beside the sorted list of its keys, which
the code maintains by binary search.
-/

namespace Montygo.MountFs

open Go

def entryMemoryUsage : UInt64 := 256

def overlayEntrySize : UInt64 := 48

def realDescendantMemoryUsage : UInt64 := 512

inductive EntryKind where
  | file
  | realFileRef
  | directory
  | deleted
  deriving DecidableEq, Repr

structure OverlayEntry where
  kind : EntryKind
  content : Bytes := []
  mtime : Float64 := 0
  relative : GoString := []
  size : ℕ := 0
  deriving DecidableEq, Repr

def deletedEntry : OverlayEntry := { kind := .deleted }

def directoryEntry (mtime : Float64) : OverlayEntry := { kind := .directory, mtime := mtime }

def fileEntry (content : Bytes) (mtime : Float64) : OverlayEntry :=
  { kind := .file, content := content, mtime := mtime }

/-- `fileRefFromRelative`: a lazy reference, only when the final component is a regular
file. -/
def fileRefFromRelative (dir : Node) (rel : GoString) : Option OverlayEntry :=
  match lstat dir rel with
  | .error _ => none
  | .ok node =>
    if node.isRegular then
      some { kind := .realFileRef, relative := rel, mtime := node.mtime, size := node.size }
    else none

structure OverlayState where
  entries : GoString → Option OverlayEntry
  keys : List GoString
  usage : UInt64

def newOverlayState : OverlayState := { entries := fun _ => none, keys := [], usage := 0 }

def baseEntryUsage (key : GoString) : UInt64 :=
  satAdd (satAdd entryMemoryUsage (UInt64.ofNat key.length)) overlayEntrySize

def entryUsage (key : GoString) (e : OverlayEntry) : UInt64 :=
  let variable_ : UInt64 :=
    match e.kind with
    | .file => UInt64.ofNat e.content.length
    | .realFileRef => UInt64.ofNat e.relative.length
    | .directory | .deleted => 0
  satAdd (baseEntryUsage key) variable_

namespace OverlayState

def put (s : OverlayState) (key : GoString) (e : OverlayEntry) : OverlayState :=
  { s with
    keys := if s.entries key = none then SortedKeys.insert s.keys key else s.keys
    entries := Function.update s.entries key (some e) }

/-- `remove`, with the entry it took out. -/
def remove (s : OverlayState) (key : GoString) : Option OverlayEntry × OverlayState :=
  match s.entries key with
  | none => (none, s)
  | some e =>
    (some e, {
      entries := Function.update s.entries key none
      keys := SortedKeys.remove s.keys key
      usage := satSub s.usage (entryUsage key e) })

/-- The usage of the entry under `key`, 0 when there is none. -/
def usageAt (s : OverlayState) (key : GoString) : UInt64 :=
  match s.entries key with
  | some prev => entryUsage key prev
  | none => 0

def projectedUsage (s : OverlayState) (key : GoString) (e : OverlayEntry) : UInt64 :=
  satAdd (satSub s.usage (s.usageAt key)) (entryUsage key e)

def insert (s : OverlayState) (key : GoString) (e : OverlayEntry) (limit : UInt64) :
    Except MountError OverlayState :=
  if s.projectedUsage key e > limit then .error (.memoryLimit limit)
  else .ok { s.put key e with usage := s.projectedUsage key e }

def insertUnchecked (s : OverlayState) (key : GoString) (e : OverlayEntry) : OverlayState :=
  { s.put key e with usage := s.projectedUsage key e }

/-- `appendFile`: `false` when there is no file to append to. -/
def appendFile (s : OverlayState) (key : GoString) (data : Bytes) (mtime : Float64)
    (limit : UInt64) : Except MountError (Bool × OverlayState) :=
  match s.entries key with
  | none => .ok (false, s)
  | some e =>
    if e.kind ≠ .file then .ok (false, s)
    else
      let projected := satAdd s.usage (UInt64.ofNat data.length)
      if projected > limit then .error (.memoryLimit limit)
      else
        -- The entry is changed in place: the key list does not move.
        .ok (true, { s with
          entries := Function.update s.entries key
            (some { e with content := e.content ++ data, mtime := mtime })
          usage := projected })

def checkFileReplacement (s : OverlayState) (key : GoString) (contentLen limit : UInt64) :
    Except MountError Unit :=
  if satAdd (satSub s.usage (s.usageAt key)) (satAdd (baseEntryUsage key) contentLen) > limit then
    .error (.memoryLimit limit)
  else .ok ()

/-- The loop of `checkReplacements`: `replaced` has the usage of the keys already written. -/
def projectReplacements (s : OverlayState) :
    UInt64 → (GoString → Option UInt64) → List (GoString × OverlayEntry) → UInt64
  | projected, _, [] => projected
  | projected, replaced, (key, e) :: rest =>
    let old := (replaced key).getD (s.usageAt key)
    let next := entryUsage key e
    projectReplacements s (satAdd (satSub projected old) next)
      (Function.update replaced key (some next)) rest

def checkReplacements (s : OverlayState) (batch : List (GoString × OverlayEntry))
    (limit : UInt64) : Except MountError Unit :=
  if s.projectReplacements s.usage (fun _ => none) batch > limit then .error (.memoryLimit limit)
  else .ok ()

/-- `prefixKeys`: the keys from `pre` up to `pre` with its final slash replaced by `0`, the
byte after the slash. -/
def prefixKeys (s : OverlayState) (pre : GoString) : List GoString :=
  if pre = [] then s.keys
  else SortedKeys.range s.keys pre (pre.dropLast ++ lit "0")

/-! ## The key list is the domain of the map, in order -/

/-- The key list is strictly sorted and lists exactly the keys of the entries. -/
structure Sorted (s : OverlayState) : Prop where
  pairwise : s.keys.Pairwise (· < ·)
  mem_iff : ∀ key, key ∈ s.keys ↔ s.entries key ≠ none

variable {s s' : OverlayState} {k : GoString} {e : OverlayEntry}

theorem sorted_new : newOverlayState.Sorted where
  pairwise := List.Pairwise.nil
  mem_iff key := by simp [newOverlayState]

@[simp] theorem put_entries : (s.put k e).entries = Function.update s.entries k (some e) := rfl

theorem Sorted.put (hs : s.Sorted) : (s.put k e).Sorted := by
  by_cases hnew : s.entries k = none
  · have hkeys : (s.put k e).keys = SortedKeys.insert s.keys k := if_pos hnew
    have hnot : k ∉ s.keys := fun hmem => (hs.mem_iff k).mp hmem hnew
    refine ⟨?_, ?_⟩
    · rw [hkeys]
      exact SortedKeys.pairwise_insert hs.pairwise hnot
    · intro key
      rw [hkeys, SortedKeys.mem_insert, hs.mem_iff, put_entries]
      by_cases hkey : key = k
      · simp [hkey]
      · simp [hkey]
  · have hkeys : (s.put k e).keys = s.keys := if_neg hnew
    refine ⟨by rw [hkeys]; exact hs.pairwise, ?_⟩
    intro key
    rw [hkeys, hs.mem_iff, put_entries]
    by_cases hkey : key = k
    · simp [hkey, hnew]
    · simp [hkey]

theorem Sorted.of_keys (hs : s.Sorted) (hkeys : s'.keys = s.keys)
    (hentries : ∀ key, s'.entries key = none ↔ s.entries key = none) : s'.Sorted where
  pairwise := by rw [hkeys]; exact hs.pairwise
  mem_iff key := by rw [hkeys, hs.mem_iff, ne_eq, ne_eq, hentries]

theorem remove_snd_entries : (s.remove k).2.entries = Function.update s.entries k none := by
  unfold remove
  split
  · rename_i hnone
    rw [← hnone, Function.update_eq_self]
  · rfl

theorem remove_fst : (s.remove k).1 = s.entries k := by
  unfold remove
  split
  · rename_i hnone
    exact hnone.symm
  · rename_i prev hsome
    exact hsome.symm

theorem Sorted.remove (hs : s.Sorted) : (s.remove k).2.Sorted := by
  by_cases hnone : s.entries k = none
  · have : (s.remove k).2 = s := by
      unfold OverlayState.remove
      rw [hnone]
    rw [this]
    exact hs
  · have hmem : k ∈ s.keys := (hs.mem_iff k).mpr hnone
    have hkeys : (s.remove k).2.keys = SortedKeys.remove s.keys k := by
      unfold OverlayState.remove
      split
      · exact absurd ‹_› hnone
      · rfl
    refine ⟨by rw [hkeys]; exact SortedKeys.pairwise_remove hs.pairwise hmem, ?_⟩
    intro key
    rw [hkeys, SortedKeys.remove_eq_filter hs.pairwise hmem, remove_snd_entries, List.mem_filter,
      hs.mem_iff]
    by_cases hkey : key = k
    · simp [hkey]
    · simp [hkey]

/-! ## Keys under a directory -/

/-- The strings between `d/` and `d0` are those that start with `d/`. -/
private theorem between_iff_isPrefix (d k : GoString) :
    (d ++ [slash] ≤ k ∧ k < d ++ lit "0") ↔ d ++ [slash] <+: k := by
  have hzero : lit "0" = [48] := rfl
  rw [hzero]
  induction d generalizing k with
  | nil =>
    cases k with
    | nil => simp [← not_lt, slash]
    | cons c t =>
      simp only [List.nil_append, ← not_lt, List.cons_lt_cons_iff, List.not_lt_nil, and_false,
        or_false, List.cons_prefix_cons, List.nil_prefix, and_true, slash,
        UInt8.lt_iff_toNat_lt, ← UInt8.toNat_inj, UInt8.toNat_ofNat]
      omega
  | cons a d ih =>
    cases k with
    | nil => simp [← not_lt]
    | cons c t =>
      simp only [List.cons_append, ← not_lt, List.cons_lt_cons_iff, List.cons_prefix_cons]
      constructor
      · rintro ⟨hlow, hhigh⟩
        rcases hhigh with hlt | ⟨rfl, hhigh⟩
        · exact absurd (.inl hlt) hlow
        · exact ⟨rfl, (ih t).mp ⟨not_lt.mp fun h => hlow (.inr ⟨rfl, h⟩), hhigh⟩⟩
      · rintro ⟨rfl, hpre⟩
        obtain ⟨hlow, hhigh⟩ := (ih t).mpr hpre
        refine ⟨?_, .inr ⟨rfl, hhigh⟩⟩
        rintro (hlt | ⟨-, hlt⟩)
        · exact absurd hlt (UInt8.lt_irrefl _)
        · exact not_lt.mpr hlow hlt

theorem prefixKeys_eq_filter (hsorted : s.keys.Pairwise (· < ·)) (d : GoString) :
    s.prefixKeys (d ++ [slash]) = s.keys.filter (hasPrefix · (d ++ [slash])) := by
  have hle : d ++ [slash] ≤ d ++ lit "0" :=
    ((between_iff_isPrefix d (d ++ [slash])).mpr List.prefix_rfl).2.le
  rw [prefixKeys, if_neg (by simp), List.dropLast_concat, SortedKeys.range_eq_filter hsorted hle]
  refine List.filter_congr ?_
  intro key _
  rw [Bool.eq_iff_iff, decide_eq_true_eq, between_iff_isPrefix, hasPrefix, List.isPrefixOf_iff_prefix]

/-- **`prefixKeys` returns the keys that start with the prefix**, each once and in order. -/
theorem prefixKeys_exact (s : OverlayState) (hsorted : s.keys.Pairwise (· < ·)) (pre : GoString)
    (hpre : pre = [] ∨ pre.getLast? = some slash) :
    (∀ key, key ∈ s.prefixKeys pre ↔ key ∈ s.keys ∧ pre <+: key) ∧
      (s.prefixKeys pre).Nodup ∧ (s.prefixKeys pre).Pairwise (· < ·) := by
  have hfilter : s.prefixKeys pre = s.keys.filter (hasPrefix · pre) := by
    rcases hpre with rfl | hslash
    · exact (List.filter_eq_self.mpr fun _ _ => rfl).symm
    · obtain ⟨d, rfl⟩ := List.getLast?_eq_some_iff.mp hslash
      exact prefixKeys_eq_filter hsorted d
  have hordered : (s.prefixKeys pre).Pairwise (· < ·) := hfilter ▸ hsorted.filter _
  refine ⟨fun key => ?_, hordered.imp ne_of_lt, hordered⟩
  rw [hfilter, List.mem_filter, hasPrefix, List.isPrefixOf_iff_prefix]

/-- The bytes before and after the slash are `.` and `0`. -/
theorem prefixKeys_exact_neighbours :
    let s : OverlayState :=
      { newOverlayState with keys := [lit "a", lit "a.b", lit "a/", lit "a/b", lit "a0"] }
    s.prefixKeys (lit "a/") = [lit "a/", lit "a/b"] ∧
      ∀ key, key ∈ s.prefixKeys (lit "a/") ↔ key ∈ s.keys ∧ lit "a/" <+: key :=
  ⟨by decide, (prefixKeys_exact _ (by decide) _ (.inr (by decide))).1⟩

end OverlayState

end Montygo.MountFs
