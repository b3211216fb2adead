import Montygo.OsAccess.Access
import Mathlib.Data.List.Perm.Basic

/-!
# What `New` builds

`New` puts the files into the tree one after the other, and makes the directories above a file where
they are missing.  A file in the way of a later one is an error, but a file that is listed after one
below its own path takes the place of the directory, and what was in it is lost.  So `New` depends
on the order of its list exactly if the path of a file leads through that of another.
-/

namespace Montygo.OsAccess

open Go DirTree

/-- Every listed file is at its path. -/
def Found (rootDir : GoString) (specs : List FileSpec) (s : OSAccess) : Prop :=
  ∀ (i : ℕ) (spec : FileSpec), specs[i]? = some spec → s.entry (spec.place rootDir) = some (.file i)

/-- Neither path is the other one or above it. -/
def Apart (p q : PurePath) : Prop := ¬ p.allParts <+: q.allParts ∧ ¬ q.allParts <+: p.allParts

/-! ## One file -/

variable {files : List MemoryFile} {tree tree' : Tree} {p : PurePath} {ps : List PurePath}
  {f i : ℕ} {q : List GoString} {rootDir : GoString} {specs : List FileSpec}

theorem PurePath.dropLast_concat (h : p.allParts ≠ []) :
    p.allParts.dropLast ++ [p.allParts.getLast?.getD []] = p.allParts := by
  rw [List.getLast?_eq_some_getLast h, Option.getD_some, List.dropLast_append_getLast]

theorem walk_putFile (hp : p.allParts ≠ []) (h : putFile files tree p f = .ok tree') :
    walk (.dir tree') q = some (.file i) ↔
      (q = p.allParts ∧ i = f) ∨ (¬ p.allParts <+: q ∧ walk (.dir tree) q = some (.file i)) := by
  simp only [putFile] at h
  split at h
  · cases h
  rename_i hnone
  cases h
  rw [walk_put hnone, PurePath.dropLast_concat hp]

theorem putFile_isOk (files : List MemoryFile) (f : ℕ)
    (h : ∀ q i, walk (.dir tree) q = some (.file i) → ¬ q <+: p.allParts.dropLast) :
    ∃ tree', putFile files tree p f = .ok tree' := by
  simp only [putFile]
  split
  · rename_i other hit
    obtain ⟨q, hq, hw⟩ := setdefaults_hit.mp hit
    exact absurd hq (h q other hw)
  · exact ⟨_, rfl⟩

/-! ## All files -/

theorem putFiles_cons (h : putFile files tree p f = .ok tree') :
    putFiles files tree (p :: ps) f = putFiles files tree' ps (f + 1) := by
  rw [putFiles, h]
  rfl

theorem exists_putFile {result : Tree} (h : putFiles files tree (p :: ps) f = .ok result) :
    ∃ tree', putFile files tree p f = .ok tree' ∧ putFiles files tree' ps (f + 1) = .ok result := by
  cases hput : putFile files tree p f with
  | error e =>
    rw [putFiles, hput] at h
    cases h
  | ok tree' => exact ⟨tree', rfl, putFiles_cons hput ▸ h⟩

section

variable (hps : ∀ p ∈ ps, p.allParts ≠ [])
include hps

theorem putFiles_apart (hapart : ps.Pairwise Apart)
    (htree : ∀ q i, walk (.dir tree) q = some (.file i) →
      ∀ p ∈ ps, ¬ q <+: p.allParts ∧ ¬ p.allParts <+: q) :
    ∃ tree', putFiles files tree ps f = .ok tree' ∧
      (∀ q i, walk (.dir tree) q = some (.file i) → walk (.dir tree') q = some (.file i)) ∧
      ∀ (j : ℕ) p, ps[j]? = some p → walk (.dir tree') p.allParts = some (.file (f + j)) := by
  induction ps generalizing tree f with
  | nil => exact ⟨tree, rfl, fun _ _ h => h, by simp⟩
  | cons p rest ih =>
    obtain ⟨hp, hrest⟩ := List.pairwise_cons.mp hapart
    obtain ⟨hne, hps⟩ := List.forall_mem_cons.mp hps
    obtain ⟨tree', hput⟩ := putFile_isOk files f fun q i hw hq =>
      (htree q i hw p (by simp)).1 (hq.trans ( List.dropLast_prefix _))
    have hwalk := fun q i => walk_putFile (q := q) (i := i) hne hput
    have htree' : ∀ q i, walk (.dir tree') q = some (.file i) →
        ∀ p ∈ rest, ¬ q <+: p.allParts ∧ ¬ p.allParts <+: q := by
      intro q i hw p' hp'
      rcases (hwalk q i).mp hw with ⟨rfl, -⟩ | ⟨-, hw⟩
      · exact hp p' hp'
      · exact htree q i hw p' (List.mem_cons_of_mem _ hp')
    obtain ⟨result, hrun, hkept, hfound⟩ := ih (f := f + 1) hps hrest htree'
    refine ⟨result, (putFiles_cons hput).trans hrun, fun q i hw => ?_, fun j p' hj => ?_⟩
    · exact hkept q i ((hwalk q i).mpr (.inr ⟨(htree q i hw p (by simp)).2, hw⟩))
    cases j with
    | zero =>
      cases hj
      exact hkept _ _ ((hwalk _ _).mpr (.inl ⟨rfl, rfl⟩))
    | succ j =>
      rw [show f + (j + 1) = f + 1 + j by omega]
      exact hfound j p' hj

theorem putFiles_kept (h : putFiles files tree ps f = .ok tree') (hi : i < f)
    (hw : walk (.dir tree') q = some (.file i)) :
    walk (.dir tree) q = some (.file i) ∧ ∀ p ∈ ps, ¬ p.allParts <+: q := by
  induction ps generalizing tree f with
  | nil =>
    cases h
    exact ⟨hw, by simp⟩
  | cons p rest ih =>
    obtain ⟨hne, hps⟩ := List.forall_mem_cons.mp hps
    obtain ⟨made, hput, hrun⟩ := exists_putFile h
    obtain ⟨hmade, hrest⟩ := ih hps hrun (by omega)
    rcases (walk_putFile hne hput).mp hmade with ⟨-, rfl⟩ | ⟨hp, hold⟩
    · omega
    · exact ⟨hold, List.forall_mem_cons.mpr ⟨hp, hrest⟩⟩

theorem putFiles_found (h : putFiles files tree ps f = .ok tree')
    (hfound : ∀ (j : ℕ) p, ps[j]? = some p → walk (.dir tree') p.allParts = some (.file (f + j))) :
    ps.Pairwise fun a b => ¬ b.allParts <+: a.allParts := by
  induction ps generalizing tree f with
  | nil => exact List.Pairwise.nil
  | cons p rest ih =>
    obtain ⟨made, hput, hrun⟩ := exists_putFile h
    have hrest := (List.forall_mem_cons.mp hps).2
    refine List.pairwise_cons.mpr ⟨?_, ih hrest hrun fun j p' hj => ?_⟩
    · exact (putFiles_kept hrest hrun (Nat.lt_succ_self f) (hfound 0 p rfl)).2
    · rw [show f + 1 + j = f + (j + 1) by omega]
      exact hfound (j + 1) p' hj

theorem putFiles_sorted (hsorted : ps.Pairwise fun a b => b.allParts.length ≤ a.allParts.length)
    (htree : ∀ q i, walk (.dir tree) q = some (.file i) → ∀ p ∈ ps, p.allParts.length ≤ q.length) :
    ∃ tree', putFiles files tree ps f = .ok tree' := by
  induction ps generalizing tree f with
  | nil => exact ⟨tree, rfl⟩
  | cons p rest ih =>
    obtain ⟨hp, hrest⟩ := List.pairwise_cons.mp hsorted
    obtain ⟨hne, hps⟩ := List.forall_mem_cons.mp hps
    -- a file above this one would have a shorter path, and those come later
    have hfree : ∀ q i, walk (.dir tree) q = some (.file i) → ¬ q <+: p.allParts.dropLast := by
      intro q i hw hq
      have hlong := htree q i hw p (by simp)
      have hshort := hq.length_le
      have hpos := List.length_pos_iff.mpr hne
      rw [List.length_dropLast] at hshort
      omega
    obtain ⟨made, hput⟩ := putFile_isOk files f hfree
    have hmade : ∀ q i, walk (.dir made) q = some (.file i) →
        ∀ p ∈ rest, p.allParts.length ≤ q.length := by
      intro q i hw p' hp'
      rcases (walk_putFile hne hput).mp hw with ⟨rfl, -⟩ | ⟨-, hold⟩
      · exact hp p' hp'
      · exact htree q i hold p' (List.mem_cons_of_mem _ hp')
    obtain ⟨result, hrun⟩ := ih (f := f + 1) hps hrest hmade
    exact ⟨result, (putFiles_cons hput).trans hrun⟩

end

/-! ## `New` -/

theorem walk_emptyTree : walk (.dir emptyTree) q ≠ some (.file i) := by
  cases q with
  | nil => simp
  | cons name rest =>
    rw [emptyTree, walk_cons, get_set]
    split
    · cases rest <;> simp
    · simp [Dir.get]

theorem allParts_place (hroot : (parsePath rootDir).isAbs = true) (spec : FileSpec) :
    (spec.place rootDir).allParts ≠ [] := by
  have habs : ∀ p : PurePath, p.isAbs = true → p.allParts ≠ [] := by
    intro p hp
    simp only [PurePath.isAbs, ne_eq, decide_not, Bool.not_eq_true', decide_eq_false_iff_not] at hp
    simp [PurePath.allParts, hp]
  apply habs
  simp only [FileSpec.place]
  split
  · assumption
  rename_i hrel
  rw [PurePath.join, if_neg hrel]
  exact hroot

theorem new_of_relative (hroot : (parsePath rootDir).isAbs = false) (specs : List FileSpec)
    (s : OSAccess) : new rootDir specs ≠ .ok s := by
  simp [new, hroot]

section

variable (hroot : (parsePath rootDir).isAbs = true)
include hroot

/-- `New` with an absolute root is the loop over the files. -/
theorem new_eq_ok {s : OSAccess} :
    new rootDir specs = .ok s ↔ s.files = specs.map (FileSpec.file rootDir) ∧
      putFiles (specs.map (FileSpec.file rootDir)) emptyTree
        (specs.map (FileSpec.place rootDir)) 0 = .ok s.tree := by
  rw [new, if_neg (by simp [hroot])]
  cases hput : putFiles (specs.map (FileSpec.file rootDir)) emptyTree
    (specs.map (FileSpec.place rootDir)) 0 with
  | error e => simp [bind, Except.bind, hput]
  | ok tree =>
    simp only [bind, Except.bind, hput, pure, Except.pure, Except.ok.injEq]
    constructor
    · rintro rfl
      exact ⟨rfl, rfl⟩
    · rintro ⟨hfiles, rfl⟩
      rw [← hfiles]

theorem mem_places : ∀ p ∈ specs.map (FileSpec.place rootDir), p.allParts ≠ [] := by
  intro p hp
  obtain ⟨spec, -, rfl⟩ := List.mem_map.mp hp
  exact allParts_place hroot spec

theorem found_iff {s : OSAccess} :
    Found rootDir specs s ↔ ∀ (j : ℕ) p, (specs.map (FileSpec.place rootDir))[j]? = some p →
      walk (.dir s.tree) p.allParts = some (.file (0 + j)) := by
  simp only [Found, OSAccess.entry, if_neg (allParts_place hroot _), List.getElem?_map,
    Option.map_eq_some_iff, forall_exists_index, and_imp, zero_add]
  constructor
  · rintro h j _ spec hspec rfl
    exact h j spec hspec
  · intro h j spec hspec
    exact h j _ spec hspec rfl

theorem new_apart (h : (specs.map (FileSpec.place rootDir)).Pairwise Apart) :
    ∃ s, new rootDir specs = .ok s ∧ Found rootDir specs s := by
  obtain ⟨tree, hput, -, hfound⟩ := putFiles_apart (mem_places hroot) h
    fun q i hw => absurd hw walk_emptyTree
  exact ⟨⟨_, tree⟩, (new_eq_ok hroot).mpr ⟨rfl, hput⟩, (found_iff hroot).mpr hfound⟩

theorem apart_of_found (hsorted : (specs.map (FileSpec.place rootDir)).Pairwise
      fun a b => b.allParts.length ≤ a.allParts.length)
    (hfound : ∀ s, new rootDir specs = .ok s → Found rootDir specs s) :
    (specs.map (FileSpec.place rootDir)).Pairwise Apart := by
  obtain ⟨tree, hput⟩ := putFiles_sorted (mem_places hroot) hsorted
    fun q i hw => absurd hw walk_emptyTree
  have hlater := putFiles_found (mem_places hroot) hput
    ((found_iff hroot).mp (hfound ⟨_, tree⟩ ((new_eq_ok hroot).mpr ⟨rfl, hput⟩)))
  refine hlater.imp₂ (fun a b hnot hle => ⟨fun habove => ?_, hnot⟩) hsorted
  exact hnot (habove.eq_of_length_le hle ▸ List.prefix_rfl)

end

/-- **What `New` builds.**  In whatever order the files are listed, `New` fails or every file is at
its path, and whether it fails does not depend on the order, exactly if the root is not absolute or
no file's path is that of another or above it. -/
theorem new_any_order_iff (rootDir : GoString) (specs : List FileSpec) :
    ((∀ specs', specs'.Perm specs → ∀ s, new rootDir specs' = .ok s → Found rootDir specs' s) ∧
      ∀ specs', specs'.Perm specs →
        ((∃ s, new rootDir specs' = .ok s) ↔ ∃ s, new rootDir specs = .ok s)) ↔
      ((parsePath rootDir).isAbs = true → (specs.map (FileSpec.place rootDir)).Pairwise Apart) := by
  have hsymm : ∀ {p q}, Apart p q → Apart q p := fun h => ⟨h.2, h.1⟩
  constructor
  -- Of all orders, the one with the longer paths first never fails, so every file is found in it.
  · rintro ⟨hfound, -⟩ hroot
    let longer (a b : FileSpec) : Bool :=
      (b.place rootDir).allParts.length ≤ (a.place rootDir).allParts.length
    have hperm := List.mergeSort_perm specs longer
    have hsorted : (specs.mergeSort longer).Pairwise fun a b => longer a b = true :=
      List.pairwise_mergeSort (by grind) (by grind) specs
    refine ((hperm.map _).pairwise_iff hsymm).mp (apart_of_found hroot ?_ (hfound _ hperm))
    exact List.pairwise_map.mpr (hsorted.imp fun h => by simpa [longer] using h)
  · intro hapart
    have hany : ∀ specs', specs'.Perm specs → (parsePath rootDir).isAbs = true →
        ∃ s, new rootDir specs' = .ok s ∧ Found rootDir specs' s :=
      fun specs' hperm hroot =>
        new_apart hroot (((hperm.map _).pairwise_iff hsymm).mpr (hapart hroot))
    by_cases hroot : (parsePath rootDir).isAbs = true
    · refine ⟨fun specs' hperm s hs => ?_, fun specs' hperm => iff_of_true ?_ ?_⟩
      · obtain ⟨s', hs', hfound⟩ := hany specs' hperm hroot
        rw [hs] at hs'
        cases hs'
        exact hfound
      · exact (hany specs' hperm hroot).imp fun _ h => h.1
      · exact (hany specs (List.Perm.refl _) hroot).imp fun _ h => h.1
    · have hnone := new_of_relative (eq_false_of_ne_true hroot)
      exact ⟨fun specs' _ s hs => absurd hs (hnone specs' s), fun specs' _ =>
        iff_of_false (fun h => hnone specs' _ h.choose_spec) fun h => hnone specs _ h.choose_spec⟩

/-- A file below one that is listed later is lost, and in the other order `New` fails. -/
theorem file_below_later_lost :
    let below : FileSpec := ⟨lit "/a/b", .text [], 420⟩
    let above : FileSpec := ⟨lit "/a", .text [], 420⟩
    below.place (lit "/") ≠ above.place (lit "/") ∧
      (∃ s, new (lit "/") [below, above] = .ok s ∧ s.entry (below.place (lit "/")) = none) ∧
      ∃ e, new (lit "/") [above, below] = .error e :=
  ⟨by decide, ⟨_, rfl, rfl⟩, _, rfl⟩

end Montygo.OsAccess
