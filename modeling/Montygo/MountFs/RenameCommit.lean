import Montygo.MountFs.OverlayUsage

/-!
# A rename's plan and its commit

`Planned` is everything a plan has been checked for when `overlayRename` commits
it.  The commit takes the moved entries out of the overlay before it puts anything
back; since it puts something under every key it has cleared, it ends as if the
batch had been put entry by entry, in the order in which it was projected.
-/

namespace Montygo.MountFs

open Go Value Outcome OverlayState

variable {m : Mount} {host : Node} {srcV dstV : GoString} {now : Float64} {plan : RenamePlan}
  {st : OverlayState}

/-- What `overlayRename` has established when it has a plan. -/
structure Planned (m : Mount) (host : Node) (srcV dstV : GoString) (now : Float64)
    (plan : RenamePlan) (srcIsDir : Bool) : Prop where
  srcOk : resolveVirtualPath srcV m.root.virtualPath = .ok plan.srcRel
  dstOk : resolveVirtualPath dstV m.root.virtualPath = .ok plan.dstRel
  notRoot : rejectRenameOfRoot plan.srcRel plan.dstRel srcV dstV = .ok ()
  dstParent : m.ensureParentExists host plan.dstRel dstV = .ok ()
  dstReal : rejectUnresolvedDst m host plan.dstRel dstV = .ok ()
  srcParent : m.ensureParentExists host plan.srcRel srcV = .ok ()
  kind : renameSrcIsDir m host plan.srcRel srcV = .ok srcIsDir
  sameKind : rejectRenameTypeMismatch m host plan.dstRel srcIsDir dstV = .ok ()
  ofDir : rejectRenameOfDir m host srcIsDir plan.srcRel plan.dstRel srcV dstV = .ok ()
  source : renameSource m host plan.srcRel srcV now = .ok plan.source
  moves : renameMoves m host srcIsDir plan.srcRel plan.dstRel srcV now =
    .ok (plan.overlayMoves, plan.realMoves)

theorem renamePlan_eq_ok (h : renamePlan m host srcV dstV now = .ok plan) :
    ∃ srcIsDir, Planned m host srcV dstV now plan srcIsDir := by
  simp only [renamePlan, bind_eq_ok, pure_eq_ok] at h
  obtain ⟨srcRel, hsrc, dstRel, hdst, _, hroot, _, hdstParent, _, hdstReal, _, hsrcParent,
    srcIsDir, hkind, _, hsame, _, hofDir, source, hsource, moves, hmoves, rfl⟩ := h
  exact ⟨srcIsDir, hsrc, hdst, hroot, hdstParent, hdstReal, hsrcParent, hkind, hsame, hofDir,
    hsource, hmoves⟩

/-! ## The commit is the batch -/

theorem removeMoves_fst {moves : List (GoString × GoString)} (hnodup : (moves.map Prod.fst).Nodup) :
    (removeMoves moves st).1 =
      moves.map fun move => (move.1, move.2, (st.entries move.1).getD deletedEntry) := by
  induction moves generalizing st with
  | nil => rfl
  | cons move rest ih =>
    obtain ⟨oldKey, newKey⟩ := move
    rw [List.map_cons, List.nodup_cons] at hnodup
    have hhead : (removeMoves ((oldKey, newKey) :: rest) st).1 =
        (oldKey, newKey, (st.remove oldKey).1.getD deletedEntry) ::
          (removeMoves rest (st.remove oldKey).2).1 := rfl
    rw [hhead, ih hnodup.2, List.map_cons, remove_fst]
    refine congrArg _ (List.map_congr_left ?_)
    intro other hother
    have hne : other.1 ≠ oldKey := by
      rintro rfl
      exact hnodup.1 (List.mem_map.mpr ⟨other, hother, rfl⟩)
    rw [remove_snd_entries, Function.update_of_ne hne]

theorem removeMoves_snd_entries {moves : List (GoString × GoString)} {k : GoString}
    (hk : k ∉ moves.map Prod.fst) : (removeMoves moves st).2.entries k = st.entries k := by
  induction moves generalizing st with
  | nil => rfl
  | cons move rest ih =>
    rw [List.map_cons, List.mem_cons, not_or] at hk
    have htail : (removeMoves (move :: rest) st).2 =
        (removeMoves rest (st.remove move.1).2).2 := rfl
    rw [htail, ih hk.2, remove_snd_entries, Function.update_of_ne hk.1]

theorem removeMoves_exact (moves : List (GoString × GoString)) (hst : st.Exact) :
    (removeMoves moves st).2.Exact ∧ (removeMoves moves st).2.size ≤ st.size := by
  induction moves generalizing st with
  | nil => exact ⟨hst, le_rfl⟩
  | cons move rest ih =>
    have hsize := size_remove (k := move.1) hst.toSorted
    have hrest := ih (hst.remove (k := move.1))
    exact ⟨hrest.1, hrest.2.trans (by omega)⟩

theorem insertMoves_eq_putAll (moves : List Descendant) : insertMoves st moves =
      st.putAll (moves.flatMap fun move => [(move.1, deletedEntry), (move.2.1, move.2.2)]) := by
  induction moves generalizing st with
  | nil => rfl
  | cons move rest ih =>
    rw [List.flatMap_cons, putAll_append]
    exact ih

/-- The keys a plan moves are distinct, and its source entry is the one in the overlay. -/
structure RenamePlan.Sound (plan : RenamePlan) (st : OverlayState) : Prop where
  source : ∀ entry, st.entries plan.srcRel = some entry → plan.source = entry
  nodup : (plan.overlayMoves.map Prod.fst).Nodup
  src_notMem : plan.srcRel ∉ plan.overlayMoves.map Prod.fst

/-- The overlay with the moved entries taken out. -/
def RenamePlan.cleared (plan : RenamePlan) (st : OverlayState) : OverlayState :=
  (removeMoves plan.overlayMoves (st.remove plan.srcRel).2).2

theorem commit_eq_putAll (hplan : plan.Sound st) :
    plan.commit st = (plan.cleared st).putAll (plan.batch st) := by
  have hentry : (st.remove plan.srcRel).1.getD plan.source = plan.source := by
    rw [remove_fst]
    cases hsrc : st.entries plan.srcRel with
    | none => rfl
    | some entry => exact (hplan.source entry hsrc).symm
  have hmoved : (removeMoves plan.overlayMoves (st.remove plan.srcRel).2).1 =
      plan.overlayMoves.map fun move =>
        (move.1, move.2, (st.entries move.1).getD deletedEntry) := by
    rw [removeMoves_fst hplan.nodup]
    refine List.map_congr_left ?_
    intro move hmove
    have hne : move.1 ≠ plan.srcRel := fun h => hplan.src_notMem (h ▸ List.mem_map_of_mem hmove)
    rw [remove_snd_entries, Function.update_of_ne hne]
  show insertMoves (((plan.cleared st).insertUnchecked plan.srcRel deletedEntry).insertUnchecked
    plan.dstRel ((st.remove plan.srcRel).1.getD plan.source))
      ((removeMoves plan.overlayMoves (st.remove plan.srcRel).2).1 ++
        plan.realMoves.map fun move => (move.1.oldKey, move.2, move.1.entry)) = _
  rw [insertMoves_eq_putAll, hentry, hmoved, List.flatMap_append, List.flatMap_map,
    List.flatMap_map, RenamePlan.batch]
  simp only [putAll_append]
  rfl

/-- **The commit ends with the entries of the batch put in order.** -/
theorem commit_entries (hplan : plan.Sound st) :
    (plan.commit st).entries = (st.putAll (plan.batch st)).entries := by
  rw [commit_eq_putAll hplan]
  refine putAll_entries_congr ?_
  intro k hk
  simp only [RenamePlan.batch, List.map_append, List.mem_append, not_or, List.map_flatMap,
    List.mem_flatMap, List.map_cons, List.map_nil, List.mem_cons, List.not_mem_nil] at hk
  have hsrc : k ≠ plan.srcRel := hk.1.1.1
  have hmoves : k ∉ plan.overlayMoves.map Prod.fst := by
    rintro hmem
    obtain ⟨move, hmove, rfl⟩ := List.mem_map.mp hmem
    exact hk.1.2 ⟨move, hmove, .inl rfl⟩
  rw [RenamePlan.cleared, removeMoves_snd_entries hmoves, remove_snd_entries,
    Function.update_of_ne hsrc]

theorem commit_sorted (hplan : plan.Sound st) (hst : st.Sorted) : (plan.commit st).Sorted := by
  have hremove : ∀ (moves : List (GoString × GoString)) (s : OverlayState), s.Sorted →
      (removeMoves moves s).2.Sorted := by
    intro moves
    induction moves with
    | nil => exact fun s hs => hs
    | cons move rest ih => exact fun s hs => ih (s.remove move.1).2 hs.remove
  have hput : ∀ (batch : List (GoString × OverlayEntry)) (s : OverlayState), s.Sorted →
      (s.putAll batch).Sorted := by
    intro batch
    induction batch with
    | nil => exact fun s hs => hs
    | cons first rest ih => exact fun s hs => ih _ hs.insertUnchecked
  rw [commit_eq_putAll hplan]
  exact hput _ _ (hremove _ _ hst.remove)

/-- **The usage after the commit is exact, and the one that was projected.** -/
theorem commit_exact (hplan : plan.Sound st) (hst : st.Exact)
    (hfits : st.size + OverlayState.batchSize (plan.batch st) < 2 ^ 64) :
    (plan.commit st).Exact ∧
      (plan.commit st).usage = st.projectReplacements st.usage (fun _ => none) (plan.batch st) := by
  have hcleared : (plan.cleared st).Exact ∧ (plan.cleared st).size ≤ st.size := by
    have hsize := size_remove (k := plan.srcRel) hst.toSorted
    have hmoves := removeMoves_exact plan.overlayMoves (hst.remove (k := plan.srcRel))
    exact ⟨hmoves.1, hmoves.2.trans (by omega)⟩
  have hcommit : (plan.commit st).Exact := by
    rw [commit_eq_putAll hplan]
    exact hcleared.1.putAll (by omega)
  have hbatch : (st.putAll (plan.batch st)).Exact := hst.putAll hfits
  refine ⟨hcommit, ?_⟩
  rw [projectReplacements_eq st (fun _ => rfl)]
  apply UInt64.toNat_inj.mp
  rw [hcommit.usage_eq, hbatch.usage_eq]
  exact size_congr hcommit.toSorted hbatch.toSorted (commit_entries hplan)

/-! ## Plans are sound -/

theorem Planned.overlayMoves_eq {srcIsDir : Bool}
    (hplan : Planned m host srcV dstV now plan srcIsDir) :
    plan.overlayMoves =
      if srcIsDir then
        (m.overlay.prefixKeys (plan.srcRel ++ [slash])).map fun key =>
          (key, plan.dstRel ++ slash :: key.drop (plan.srcRel.length + 1))
      else [] := by
  have hmoves := hplan.moves
  cases srcIsDir with
  | false => exact (congrArg Prod.fst (Except.ok.inj hmoves)).symm
  | true =>
    simp only [renameMoves, bind_eq_ok, Bool.not_true, Bool.false_eq_true, if_false,
      pure_eq_ok] at hmoves
    obtain ⟨available, -, remaining, -, children, -, hpair⟩ := hmoves
    rw [← (Prod.mk.inj hpair).1]
    simp [lit_slash]

theorem Planned.sound {srcIsDir : Bool} (hplan : Planned m host srcV dstV now plan srcIsDir)
    (hsorted : m.overlay.Sorted) : plan.Sound m.overlay := by
  have holds : plan.overlayMoves.map Prod.fst =
      if srcIsDir then m.overlay.keys.filter (hasPrefix · (plan.srcRel ++ [slash])) else [] := by
    rw [hplan.overlayMoves_eq]
    cases srcIsDir with
    | false => rfl
    | true =>
      simp only [if_true, List.map_map, prefixKeys_eq_filter hsorted.pairwise]
      exact List.map_id _
  refine ⟨?_, ?_, ?_⟩
  · intro entry hentry
    have hsource := hplan.source
    rw [renameSource, hentry] at hsource
    exact (Except.ok.inj hsource).symm
  · rw [holds]
    cases srcIsDir with
    | false => exact List.nodup_nil
    | true => exact (hsorted.pairwise.imp ne_of_lt).filter _
  · rw [holds]
    cases srcIsDir with
    | false => exact List.not_mem_nil
    | true =>
      intro hmem
      have hself := (List.mem_filter.mp hmem).2
      have hle := (List.isPrefixOf_iff_prefix.mp hself).length_le
      rw [List.length_append, List.length_singleton] at hle
      omega

end Montygo.MountFs
