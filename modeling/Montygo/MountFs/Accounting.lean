import Montygo.MountFs.RenameCommit

/-!
# The accounts of an overlay mount over a run

`Accounted` is what a mount keeps over every run: the key list is the sorted domain
of the entries, the recorded usage is their memory and within the limit, and the
counted write bytes are within theirs.  Each change of the mount keeps it as long as
the memory stays below `2 ^ 64`; the calls are made of these changes.
-/

namespace Montygo.MountFs

open Go Value Outcome Fallible

variable {m m' : Mount} {host : Node} {rel vpath : GoString} {now : Float64}

/-- The accounts are right and within the limits. -/
structure Mount.Accounted (m : Mount) : Prop where
  usage : m.overlay.Exact
  memory : m.overlay.usage ≤ m.memLimit
  writes : ∀ limit, m.writeLimit = some limit → m.writeUsed ≤ limit

theorem accounted_newMount (root : Root) (writeLimit : Option UInt64) (memLimit : UInt64) :
    (newMount root writeLimit memLimit).Accounted where
  usage := OverlayState.exact_new
  memory := UInt64.zero_le
  writes _ _ := UInt64.zero_le

/-! ## The changes -/

variable {entry : OverlayEntry} {u : Unit} {data : Bytes} {n : UInt64} {w : ComponentWalk}
  {current : GoString} {names : List GoString}

theorem insertEntry_accounted (hm : m.Accounted) (h : insertEntry rel entry m = .ok u m')
    (hfits : m'.overlay.size < 2 ^ 64) :
    m'.Accounted := by
  obtain ⟨hlimit, rfl⟩ := insertEntry_eq_ok.mp h
  exact ⟨hm.usage.insertUnchecked hfits, UInt64.not_lt.mp hlimit, hm.writes⟩

/-- An append in place: the entry grows by the data, and so do the memory and the usage. -/
theorem appendFile_eq_ok {st st' : OverlayState} {key : GoString} {limit : UInt64}
    (h : st.appendFile key data now limit = .ok (true, st')) :
    ∃ entry, st.entries key = some entry ∧ entry.kind = .file ∧
      ¬ satAdd st.usage (UInt64.ofNat data.length) > limit ∧
      st' = { st with
        entries := Function.update st.entries key
          (some { entry with content := entry.content ++ data, mtime := now })
        usage := satAdd st.usage (UInt64.ofNat data.length) } := by
  unfold OverlayState.appendFile at h
  split at h
  · simp at h
  rename_i entry hentry
  split at h
  · simp at h
  rename_i hkind
  simp only at h
  split at h
  · cases h
  rename_i hlimit
  simp only [Except.ok.injEq, Prod.mk.injEq, true_and] at h
  exact ⟨entry, hentry, not_not.mp hkind, hlimit, h.symm⟩

theorem appendEntry_true (h : appendEntry rel data now m = .ok true m') :
    ∃ entry, m.overlay.entries rel = some entry ∧ entry.kind = .file ∧
      ¬ satAdd m.overlay.usage (UInt64.ofNat data.length) > m.memLimit ∧
      m' = { m with overlay := { m.overlay with
        entries := Function.update m.overlay.entries rel
          (some { entry with content := entry.content ++ data, mtime := now })
        usage := satAdd m.overlay.usage (UInt64.ofNat data.length) } } := by
  rw [appendEntry, update_eq_ok] at h
  split at h
  · cases h
  rename_i appended overlay happend
  cases h
  obtain ⟨entry, hentry, hkind, hlimit, hoverlay⟩ := appendFile_eq_ok happend
  exact ⟨entry, hentry, hkind, hlimit, by rw [hoverlay]⟩

theorem OverlayState.Sorted.replace {st : OverlayState} (hst : st.Sorted)
    (hthere : st.entries rel ≠ none) (entry : OverlayEntry) (usage : UInt64) :
    ({ st with
      entries := Function.update st.entries rel (some entry)
      usage := usage } : OverlayState).Sorted := by
  refine hst.of_keys rfl fun k => ?_
  by_cases hk : k = rel
  · simp [hk, hthere]
  · simp [hk]

theorem appendEntry_accounted {appended : Bool} (hm : m.Accounted)
    (h : appendEntry rel data now m = .ok appended m') (hfits : m'.overlay.size < 2 ^ 64) :
    m'.Accounted := by
  cases appended with
  | false =>
    rw [appendEntry_false h]
    exact hm
  | true =>
    obtain ⟨entry, hentry, hkind, hlimit, hm'⟩ := appendEntry_true h
    have hsorted : m'.overlay.Sorted := by
      rw [hm']
      exact hm.usage.toSorted.replace (by simp [hentry]) _ _
    have hsize : m'.overlay.size = m.overlay.size + data.length := by
      have hadd := OverlayState.size_add_sizeAt (k := rel) hm.usage.toSorted hsorted (by
        intro a ha
        simp [hm', ha])
      have hat : m'.overlay.sizeAt rel = m.overlay.sizeAt rel + data.length := by
        simp [OverlayState.sizeAt, hm', hentry, entrySize, hkind, Nat.add_assoc]
      omega
    have husage : m'.overlay.usage = satAdd m.overlay.usage (UInt64.ofNat data.length) := by
      rw [hm']
    refine ⟨⟨hsorted, ?_⟩, ?_, ?_⟩
    · rw [husage, toNat_satAdd, hm.usage.usage_eq, UInt64.toNat_ofNat']
      omega
    · rw [husage, hm']
      exact UInt64.not_lt.mp hlimit
    · rw [hm']
      exact hm.writes

theorem commitBytes_accounted (hm : m.Accounted) (hcheck : m.checkWriteLimit n = .ok ())
    (h : commitBytes n m = .ok u m') :
    m'.Accounted := by
  rw [commitBytes, update_eq_ok] at h
  obtain ⟨-, rfl⟩ := Prod.mk.inj (Except.ok.inj h)
  unfold Mount.checkWriteLimit at hcheck
  unfold Mount.commitWriteBytes
  cases hlimit : m.writeLimit with
  | none => simpa [hlimit] using hm
  | some limit =>
    simp only [hlimit] at hcheck ⊢
    split at hcheck
    · cases hcheck
    rename_i hle
    refine ⟨hm.usage, hm.memory, ?_⟩
    intro other hother
    cases hother
    exact UInt64.not_lt.mp hle

theorem commitBytes_overlay (h : commitBytes n m = .ok u m') : m'.overlay = m.overlay := by
  rw [commitBytes, update_eq_ok] at h
  obtain ⟨-, rfl⟩ := Prod.mk.inj (Except.ok.inj h)
  unfold Mount.commitWriteBytes
  split <;> rfl

theorem commitBytes_root (h : commitBytes n m = .ok u m') : m'.root = m.root := by
  rw [commitBytes, update_eq_ok] at h
  obtain ⟨-, rfl⟩ := Prod.mk.inj (Except.ok.inj h)
  unfold Mount.commitWriteBytes
  split <;> rfl

theorem appendEntry_checkWriteLimit {appended : Bool}
    (h : appendEntry rel data now m = .ok appended m') :
    m'.checkWriteLimit n = m.checkWriteLimit n := by
  rw [appendEntry, update_eq_ok] at h
  split at h
  · cases h
  · cases h
    rfl

/-! ## The calls -/

theorem overlayWrite_accounted {result n : ℕ} (hm : m.Accounted)
    (hcall : overlayWrite host vpath data result now m = .ok n m')
    (hfits : m'.overlay.size < 2 ^ 64) :
    m'.Accounted := by
  obtain ⟨rel, s₁, hcheck, h⟩ := bind_eq_ok.mp hcall
  obtain ⟨hchecks, rfl⟩ := check_eq_ok.mp hcheck
  simp only [Outcome.bind_eq_ok] at hchecks
  obtain ⟨_, hlimit, -⟩ := hchecks
  obtain ⟨_, s₂, hinsert, h⟩ := bind_eq_ok.mp h
  obtain ⟨_, s₃, hcommit, h⟩ := bind_eq_ok.mp h
  obtain ⟨-, rfl⟩ := pure_eq_ok.mp h
  rw [commitBytes_overlay hcommit] at hfits
  have hput := insertEntry_accounted hm hinsert hfits
  obtain ⟨-, rfl⟩ := insertEntry_eq_ok.mp hinsert
  exact commitBytes_accounted hput hlimit hcommit

theorem overlayAppend_accounted (hm : m.Accounted)
    (hcall : overlayAppend host vpath data now m = .ok u m') (hfits : m'.overlay.size < 2 ^ 64) :
    m'.Accounted := by
  obtain ⟨⟨rel, existingLen, charged⟩, s₁, hcheck, h⟩ := bind_eq_ok.mp hcall
  obtain ⟨hchecks, rfl⟩ := check_eq_ok.mp hcheck
  simp only [Outcome.bind_eq_ok, Outcome.pure_eq_ok] at hchecks
  obtain ⟨_, -, _, -, _, -, _, -, _, hlimit, hpair⟩ := hchecks
  cases hpair
  obtain ⟨appended, s₂, happend, h⟩ := bind_eq_ok.mp h
  cases appended with
  | true =>
    rw [commitBytes_overlay h] at hfits
    refine commitBytes_accounted (appendEntry_accounted hm happend hfits) ?_ h
    rw [appendEntry_checkWriteLimit happend]
    exact hlimit
  | false =>
    obtain rfl := appendEntry_false happend
    obtain ⟨content, s₃, hcontent, h⟩ := bind_eq_ok.mp h
    obtain ⟨-, rfl⟩ := check_eq_ok.mp hcontent
    obtain ⟨_, s₄, hinsert, h⟩ := bind_eq_ok.mp h
    rw [commitBytes_overlay h] at hfits
    have hput := insertEntry_accounted hm hinsert hfits
    obtain ⟨-, rfl⟩ := insertEntry_eq_ok.mp hinsert
    exact commitBytes_accounted hput hlimit h

theorem ensureAppendTargetExists_accounted (hm : m.Accounted)
    (hcall : ensureAppendTargetExists host vpath now m = .ok u m')
    (hfits : m'.overlay.size < 2 ^ 64) : m'.Accounted := by
  obtain ⟨⟨rel, create⟩, s₁, hcheck, h⟩ := bind_eq_ok.mp hcall
  obtain ⟨-, rfl⟩ := check_eq_ok.mp hcheck
  cases create with
  | false =>
    obtain ⟨-, rfl⟩ := pure_eq_ok.mp h
    exact hm
  | true => exact insertEntry_accounted hm h hfits

theorem overlayOpen_accounted {mode : FileMode} {r : OsResult} (hm : m.Accounted)
    (hcall : overlayOpen host vpath mode now m = .ok r m') (hfits : m'.overlay.size < 2 ^ 64) :
    m'.Accounted := by
  unfold overlayOpen at hcall
  cases hmode : mode.action <;> rw [hmode] at hcall
  · obtain ⟨_, s₁, hcheck, h⟩ := bind_eq_ok.mp hcall
    obtain ⟨-, rfl⟩ := check_eq_ok.mp hcheck
    obtain ⟨-, rfl⟩ := pure_eq_ok.mp h
    exact hm
  · obtain ⟨_, s₁, hwrite, h⟩ := bind_eq_ok.mp hcall
    obtain ⟨-, rfl⟩ := pure_eq_ok.mp h
    exact overlayWrite_accounted hm hwrite hfits
  · obtain ⟨_, s₁, hensure, h⟩ := bind_eq_ok.mp hcall
    obtain ⟨-, rfl⟩ := pure_eq_ok.mp h
    exact ensureAppendTargetExists_accounted hm hensure hfits

theorem checkInsert_accounted {check' : Mount → Except MountError Unit} (hm : m.Accounted)
    (hcall : (do check check'; insertEntry rel entry) m = .ok u m')
    (hfits : m'.overlay.size < 2 ^ 64) : m'.Accounted := by
  obtain ⟨_, s₁, hcheck, h⟩ := bind_eq_ok.mp hcall
  obtain ⟨-, rfl⟩ := check_eq_ok.mp hcheck
  exact insertEntry_accounted hm h hfits

/-! ## Directories and their parents -/

/-- `createOverlayParents` replaces at most deletions. -/
theorem parentStep_create {next : ComponentWalk} {component : GoString}
    (h : parentStep m w current component vpath = .ok (next, true))
    (hentry : m.overlay.entries current = some entry) : entry.kind = .deleted := by
  simp only [parentStep, Outcome.bind_eq_ok] at h
  obtain ⟨⟨real, walked⟩, -, h⟩ := h
  cases hkind : entry.kind <;> simp [hentry, hkind, pure, Except.pure] at h ⊢

/-- A directory in the place of nothing, of a deletion or of a directory takes no memory
away. -/
theorem size_put_directory (hsorted : m.overlay.Sorted)
    (hsmall : ∀ entry, m.overlay.entries rel = some entry →
      entry.kind = .deleted ∨ entry.kind = .directory) :
    m.overlay.size ≤ (m.put rel (directoryEntry now)).overlay.size := by
  have hput : (m.put rel (directoryEntry now)).overlay.size + m.overlay.sizeAt rel =
      m.overlay.size + entrySize rel (directoryEntry now) :=
    OverlayState.size_insertUnchecked hsorted
  have hle : m.overlay.sizeAt rel ≤ entrySize rel (directoryEntry now) := by
    unfold OverlayState.sizeAt
    cases hentry : m.overlay.entries rel with
    | none => simp
    | some entry =>
      rcases hsmall entry hentry with hkind | hkind <;> simp [entrySize, hkind, directoryEntry]
  omega

theorem createLoop_size_le (hsorted : m.overlay.Sorted) :
    m.overlay.size ≤ (final (createLoop now w current names m)).overlay.size ∧
      (final (createLoop now w current names m)).overlay.Sorted := by
  induction names generalizing w current m with
  | nil => exact ⟨le_rfl, hsorted⟩
  | cons name rest ih =>
    refine final_bind (P := fun s : Mount => m.overlay.size ≤ s.overlay.size ∧ s.overlay.Sorted)
      (by simp [hsorted]) ?_
    rintro ⟨next, create⟩ s₁ hcheck
    obtain ⟨hstep, rfl⟩ := check_eq_ok.mp hcheck
    cases create with
    | false => exact ih hsorted
    | true =>
      have hput : s₁.overlay.size ≤
          (s₁.put (Mount.extendKey current name) (directoryEntry now)).overlay.size :=
        size_put_directory hsorted fun _ h => .inl (parentStep_create hstep h)
      refine final_bind
        (P := fun s : Mount => s₁.overlay.size ≤ s.overlay.size ∧ s.overlay.Sorted) ?_ ?_
      · rcases (failsClean_insertEntry _ _).final_eq (s := s₁) with h | ⟨_, h⟩
        · rw [h]
          exact ⟨le_rfl, hsorted⟩
        · rw [(insertEntry_eq_ok.mp h).2]
          exact ⟨hput, hsorted.insertUnchecked⟩
      · intro _ s₂ hinsert
        obtain ⟨-, rfl⟩ := insertEntry_eq_ok.mp hinsert
        exact ⟨hput.trans (ih hsorted.insertUnchecked).1, (ih hsorted.insertUnchecked).2⟩

theorem createLoop_accounted (hm : m.Accounted)
    (hfits : (final (createLoop now w current names m)).overlay.size < 2 ^ 64) :
    (final (createLoop now w current names m)).Accounted := by
  induction names generalizing w current m with
  | nil => exact hm
  | cons name rest ih =>
    revert hfits
    refine final_bind (P := fun s : Mount => s.overlay.size < 2 ^ 64 → s.Accounted)
      (by simp [hm]) ?_
    rintro ⟨next, create⟩ s₁ hcheck
    obtain ⟨hstep, rfl⟩ := check_eq_ok.mp hcheck
    cases create with
    | false => exact ih hm
    | true =>
      refine final_bind (P := fun s : Mount => s.overlay.size < 2 ^ 64 → s.Accounted) ?_ ?_
      · rcases (failsClean_insertEntry _ _).final_eq (s := s₁) with h | ⟨_, h⟩
        · rw [h]
          exact fun _ => hm
        · exact insertEntry_accounted hm h
      · intro _ s₂ hinsert hfits
        -- The directory fits because the final state does.
        have hput : s₂.Accounted := by
          refine insertEntry_accounted hm hinsert (lt_of_le_of_lt ?_ hfits)
          obtain ⟨-, rfl⟩ := insertEntry_eq_ok.mp hinsert
          exact (createLoop_size_le hm.usage.toSorted.insertUnchecked).1
        exact ih hput hfits

theorem createLoop_entries (k : GoString) :
    (final (createLoop now w current names m)).overlay.entries k = m.overlay.entries k ∨
      (final (createLoop now w current names m)).overlay.entries k = some (directoryEntry now) := by
  induction names generalizing w current m with
  | nil => exact .inl rfl
  | cons name rest ih =>
    refine final_bind (P := fun s : Mount => s.overlay.entries k = m.overlay.entries k ∨
      s.overlay.entries k = some (directoryEntry now)) (by simp) ?_
    rintro ⟨next, create⟩ s₁ hcheck
    obtain ⟨-, rfl⟩ := check_eq_ok.mp hcheck
    cases create with
    | false => exact ih
    | true =>
      have hput : ∀ key, (s₁.put key (directoryEntry now)).overlay.entries k =
          s₁.overlay.entries k ∨
          (s₁.put key (directoryEntry now)).overlay.entries k = some (directoryEntry now) := by
        intro key
        by_cases hk : k = key
        · exact .inr (by simp [Mount.put, OverlayState.insertUnchecked, hk])
        · exact .inl (by simp [Mount.put, OverlayState.insertUnchecked, hk])
      refine final_bind (P := fun s : Mount => s.overlay.entries k = s₁.overlay.entries k ∨
        s.overlay.entries k = some (directoryEntry now)) ?_ ?_
      · rcases (failsClean_insertEntry _ _).final_eq (s := s₁) with h | ⟨_, h⟩
        · exact .inl (by rw [h])
        · rw [(insertEntry_eq_ok.mp h).2]
          exact hput _
      · intro _ s₂ hinsert
        obtain ⟨-, rfl⟩ := insertEntry_eq_ok.mp hinsert
        rcases ih (m := s₁.put _ (directoryEntry now)) with h | h
        · rw [h]
          exact hput _
        · exact .inr h

/-- `mkdir` goes on only where there is no entry but a deletion. -/
theorem mkdirTarget_false {existOK : Bool} (h : mkdirTarget host m rel existOK vpath = .ok false)
    (hentry : m.overlay.entries rel = some entry) :
    entry.kind = .deleted := by
  simp only [mkdirTarget, hentry] at h
  cases hkind : entry.kind <;> simp only [hkind, reduceCtorEq] at h
  · split at h <;> simp at h
  · rfl

theorem overlayMkdir_accounted {parents existOK : Bool} (hm : m.Accounted)
    (hfits : (final (overlayMkdir host rel parents existOK vpath now m)).overlay.size < 2 ^ 64) :
    (final (overlayMkdir host rel parents existOK vpath now m)).Accounted := by
  revert hfits
  refine final_bind (P := fun s : Mount => s.overlay.size < 2 ^ 64 → s.Accounted) (by simp [hm]) ?_
  rintro done s₁ hcheck
  obtain ⟨hdone, rfl⟩ := check_eq_ok.mp hcheck
  have hlast : ∀ s : Mount, s.Accounted →
      (final (insertEntry rel (directoryEntry now) s)).overlay.size < 2 ^ 64 →
      (final (insertEntry rel (directoryEntry now) s)).Accounted := by
    intro s hs hfits
    rcases (failsClean_insertEntry _ _).final_eq (s := s) with h | ⟨_, h⟩
    · rw [h]
      exact hs
    · exact insertEntry_accounted hs h hfits
  cases done with
  | true => exact fun _ => hm
  | false =>
    cases parents with
    | false =>
      refine final_bind (P := fun s : Mount => s.overlay.size < 2 ^ 64 → s.Accounted)
        (by simp [hm]) ?_
      rintro _ s₂ hcheck
      obtain ⟨-, rfl⟩ := check_eq_ok.mp hcheck
      exact hlast _ hm
    | true =>
      refine final_bind (P := fun s : Mount => s.overlay.size < 2 ^ 64 → s.Accounted)
        (createLoop_accounted hm) ?_
      intro _ s₂ hloop hfits
      have hfinal : s₂ = final (createOverlayParents host rel now s₁) := by
        rw [hloop]
        rfl
      -- The target's entry is a deletion or a directory by now.
      have hsmall : ∀ entry, s₂.overlay.entries rel = some entry →
          entry.kind = .deleted ∨ entry.kind = .directory := by
        intro entry hentry
        rw [hfinal] at hentry
        rcases createLoop_entries rel with h | h
        · exact .inl (mkdirTarget_false hdone (h.symm.trans hentry))
        · exact .inr (by rw [← Option.some.inj (h.symm.trans hentry)]; rfl)
      have hsorted : s₂.overlay.Sorted := by
        rw [hfinal]
        exact (createLoop_size_le hm.usage.toSorted).2
      refine hlast s₂ ?_ hfits
      rw [hfinal]
      refine createLoop_accounted hm (lt_of_le_of_lt ?_ hfits)
      change (final (createOverlayParents host rel now s₁)).overlay.size ≤ _
      rw [← hfinal]
      rcases (failsClean_insertEntry rel (directoryEntry now)).final_eq (s := s₂) with h | ⟨_, h⟩
      · exact le_of_eq (by rw [h])
      · rw [(insertEntry_eq_ok.mp h).2]
        exact size_put_directory hsorted hsmall

/-! ## Rename -/

theorem overlayRename_eq_ok {dstV : GoString} (h : overlayRename host vpath dstV now m = .ok u m') :
    ∃ plan, renamePlan m host vpath dstV now = .ok plan ∧
      m.overlay.checkReplacements (plan.batch m.overlay) m.memLimit = .ok () ∧
      m' = { m with overlay := plan.commit m.overlay } := by
  obtain ⟨plan, s₁, hcheck, h⟩ := bind_eq_ok.mp h
  obtain ⟨hchecks, rfl⟩ := check_eq_ok.mp hcheck
  simp only [Outcome.bind_eq_ok, Outcome.pure_eq_ok] at hchecks
  obtain ⟨_, hplan, _, hbatch, rfl⟩ := hchecks
  rw [update_eq_ok] at h
  exact ⟨_, hplan, hbatch, ((Prod.mk.inj (Except.ok.inj h)).2).symm⟩

theorem overlayRename_accounted {dstV : GoString} {plan : RenamePlan} (hm : m.Accounted)
    (hplan : renamePlan m host vpath dstV now = .ok plan)
    (h : overlayRename host vpath dstV now m = .ok u m')
    (hfits : m.overlay.size + OverlayState.batchSize (plan.batch m.overlay) < 2 ^ 64) :
    m'.Accounted ∧ m'.overlay.usage =
      m.overlay.projectReplacements m.overlay.usage (fun _ => none) (plan.batch m.overlay) := by
  obtain ⟨_, hplan', hbatch, rfl⟩ := overlayRename_eq_ok h
  rw [hplan] at hplan'
  cases hplan'
  obtain ⟨srcIsDir, hplanned⟩ := renamePlan_eq_ok hplan
  obtain ⟨hexact, husage⟩ := commit_exact (hplanned.sound hm.usage.toSorted) hm.usage hfits
  refine ⟨⟨hexact, ?_, hm.writes⟩, husage⟩
  show (plan.commit m.overlay).usage ≤ m.memLimit
  unfold OverlayState.checkReplacements at hbatch
  split at hbatch
  · cases hbatch
  rename_i hlimit
  rw [husage]
  exact UInt64.not_lt.mp hlimit

/-! ## Runs -/

/-- One call that reaches a mount, with the host tree and the clock as they are then. -/
structure Request where
  host : Node
  call : OsCall
  now : Float64

/-- The mount after a call, whether it failed or not. -/
def Mount.serve (m : Mount) (r : Request) : Mount := final (overlayExecute r.host r.call r.now m)

/-- The memory stays below `2 ^ 64`: that of the entries after the call, and for a rename
that of the entries together with the batch. -/
def SizesFit (m : Mount) (r : Request) : Prop :=
  (m.serve r).overlay.size < 2 ^ 64 ∧
    ∀ src dst plan, r.call = .rename src dst → renamePlan m r.host src dst r.now = .ok plan →
      m.overlay.size + OverlayState.batchSize (plan.batch m.overlay) < 2 ^ 64

/-- A mount as `NewTable` builds it. -/
def NewMount (m : Mount) : Prop := ∃ root writeLimit memLimit, m = newMount root writeLimit memLimit

/-- A mount serves every request. -/
def serveStep (m : Mount) (r : Request) : Except Empty Mount := .ok (m.serve r)

private theorem accounted_of_failsClean {α : Type} {x : MountM α} (hm : m.Accounted)
    (hclean : FailsClean x) (hok : ∀ a, x m = .ok a (final (x m)) → (final (x m)).Accounted) :
    (final (x m)).Accounted := by
  rcases hclean.final_eq with h | ⟨a, h⟩
  · rw [h]
    exact hm
  · exact hok a h

private theorem final_pure {α β : Type} {x : MountM α} {result : α → β} :
    final ((x >>= fun a => pure (result a)) m) = final (x m) := by
  cases h : x m <;> simp [bind, EStateM.bind, h, final, pure, EStateM.pure]

private theorem final_look {α : Type} {g : GoString → Mount → Except MountError α}
    {result : α → OsResult} :
    final ((overlayOnPath vpath fun rel => do
      let a ← check (g rel)
      pure (result a)) m) = m := by
  refine final_bind (P := fun s : Mount => s = m) (by simp) ?_
  intro rel s₁ hcheck
  obtain ⟨-, rfl⟩ := check_eq_ok.mp hcheck
  rw [final_pure]
  exact final_check

/-- **Every call keeps the accounts, as long as the memory stays below `2 ^ 64`.** -/
theorem serve_accounted {r : Request} (hm : m.Accounted) (hfits : SizesFit m r) :
    (m.serve r).Accounted := by
  obtain ⟨host, call, now⟩ := r
  obtain ⟨hsize, hbatch⟩ := hfits
  unfold Mount.serve at hsize ⊢
  simp only at hsize hbatch ⊢
  cases call with
  | resolve path | absolute path => exact hm
  | «exists» path | isFile path | isDir path | isSymlink path | readText path | readBytes path
  | stat path | iterdir path =>
    unfold overlayExecute
    rw [final_look]
    exact hm
  | writeText path text | writeBytes path data =>
    unfold overlayExecute at hsize ⊢
    rw [final_pure] at hsize ⊢
    exact accounted_of_failsClean hm failsClean_overlayWrite fun _ h =>
      overlayWrite_accounted hm h hsize
  | appendText path text | appendBytes path data =>
    unfold overlayExecute at hsize ⊢
    rw [final_pure] at hsize ⊢
    exact accounted_of_failsClean hm failsClean_overlayAppend fun _ h =>
      overlayAppend_accounted hm h hsize
  | rename path dst =>
    unfold overlayExecute at hsize ⊢
    rw [final_pure] at hsize ⊢
    refine accounted_of_failsClean hm failsClean_overlayRename fun _ h => ?_
    obtain ⟨plan, hplan, -⟩ := overlayRename_eq_ok h
    exact (overlayRename_accounted hm hplan h (hbatch path dst plan rfl hplan)).1
  | «open» path mode =>
    exact accounted_of_failsClean hm failsClean_overlayOpen fun _ h =>
      overlayOpen_accounted hm h hsize
  | unlink path | rmdir path =>
    revert hsize
    refine final_bind (P := fun s : Mount => s.overlay.size < 2 ^ 64 → s.Accounted)
      (by simp [hm]) ?_
    intro rel s₁ hcheck
    obtain ⟨-, rfl⟩ := check_eq_ok.mp hcheck
    rw [final_pure]
    intro hsize
    refine accounted_of_failsClean hm ?_ fun _ h => checkInsert_accounted hm h hsize
    exact FailsClean.check_bind fun _ => failsClean_insertEntry _ _
  | mkdir path parents existOK =>
    revert hsize
    refine final_bind (P := fun s : Mount => s.overlay.size < 2 ^ 64 → s.Accounted)
      (by simp [hm]) ?_
    intro rel s₁ hcheck
    obtain ⟨-, rfl⟩ := check_eq_ok.mp hcheck
    rw [final_pure]
    exact overlayMkdir_accounted hm

/-- **In every run whose sizes stay below `2 ^ 64` the accounts are right after each call.**
The key list is the strictly sorted domain of the entries, the usage is the sum of the
entries' usages and within the memory limit, the counted write bytes are within the write
limit, and a rename ends with the usage that `checkReplacements` projected. -/
theorem overlay_accounts {m : Mount} (hreach : Transition.Reachable serveStep NewMount SizesFit m) :
    m.overlay.keys.Pairwise (· < ·) ∧ (∀ k, k ∈ m.overlay.keys ↔ m.overlay.entries k ≠ none) ∧
      m.overlay.usage.toNat = m.overlay.usageSum ∧
      m.overlay.usage ≤ m.memLimit ∧
      (∀ limit, m.writeLimit = some limit → m.writeUsed ≤ limit) ∧
      ∀ host src dst now result m', SizesFit m ⟨host, .rename src dst, now⟩ →
        overlayExecute host (.rename src dst) now m = .ok result m' →
        ∃ plan, renamePlan m host src dst now = .ok plan ∧
          m'.overlay.usage = m.overlay.projectReplacements m.overlay.usage (fun _ => none)
            (plan.batch m.overlay) := by
  have hm : m.Accounted := by
    refine hreach.invariant (P := Mount.Accounted) ?_ ?_
    · rintro s ⟨root, writeLimit, memLimit, rfl⟩
      exact accounted_newMount root writeLimit memLimit
    · rintro s r s' hs hfits hstep
      rw [← Except.ok.inj hstep]
      exact serve_accounted hs hfits
  have hsum : m.overlay.usageSum = m.overlay.size := by
    refine OverlayState.usageSum_eq_size hm.usage.toSorted ?_
    rw [← hm.usage.usage_eq]
    exact m.overlay.usage.toNat_lt
  refine ⟨hm.usage.pairwise, hm.usage.mem_iff, hm.usage.usage_eq.trans hsum.symm, hm.memory,
    hm.writes, ?_⟩
  intro host src dst now result m' hfits h
  obtain ⟨_, s₁, hrename, h⟩ := bind_eq_ok.mp h
  obtain ⟨-, rfl⟩ := pure_eq_ok.mp h
  obtain ⟨plan, hplan, -⟩ := overlayRename_eq_ok hrename
  exact ⟨plan, hplan, (overlayRename_accounted hm hplan hrename (hfits.2 src dst plan rfl hplan)).2⟩

theorem rename_eq_ok {src dst : GoString}
    (h : succeeded (overlayExecute host (.rename src dst) now m) = true) :
    overlayExecute host (.rename src dst) now m = .ok .none (m.serve ⟨host, .rename src dst, now⟩) := by
  unfold Mount.serve
  cases hcall : overlayExecute host (.rename src dst) now m with
  | error e m' =>
    rw [hcall] at h
    cases h
  | ok result m' =>
    obtain ⟨_, _, -, hpure⟩ := bind_eq_ok.mp hcall
    rw [← (pure_eq_ok.mp hpure).1]
    rfl

/-- A write of two bytes to `/a` and its rename to `/b`: 307 bytes, then 305 more for the
deletion. -/
theorem overlay_accounts_writeThenRename :
    ∃ m m' : Mount, m.overlay.usage = 307 ∧ m.overlay.usage.toNat = m.overlay.usageSum ∧
      m'.overlay.usage = 612 ∧
      ∃ plan, renamePlan m emptyHost (lit "/a") (lit "/b") 0 = .ok plan ∧
        m'.overlay.usage = m.overlay.projectReplacements m.overlay.usage (fun _ => none)
          (plan.batch m.overlay) := by
  let start := newMount (Root.open (lit "/")) (some 10) 1000
  let written := start.serve ⟨emptyHost, .writeText (lit "/a") (lit "xy"), 0⟩
  have hwrite : SizesFit start ⟨emptyHost, .writeText (lit "/a") (lit "xy"), 0⟩ :=
    ⟨by decide, by simp⟩
  have hreach : Transition.Reachable serveStep NewMount SizesFit written :=
    .step (.initial ⟨_, _, _, rfl⟩) hwrite rfl
  have hplan : renamePlan written emptyHost (lit "/a") (lit "/b") 0 =
      .ok ⟨lit "a", lit "b", fileEntry (lit "xy") 0, [], []⟩ := by
    decide
  have hrename : SizesFit written ⟨emptyHost, .rename (lit "/a") (lit "/b"), 0⟩ := by
    refine ⟨by decide, ?_⟩
    rintro src dst plan hcall hplan'
    cases hcall
    cases hplan.symm.trans hplan'
    decide
  have haccounts := overlay_accounts hreach
  refine ⟨written, written.serve ⟨emptyHost, .rename (lit "/a") (lit "/b"), 0⟩, by decide,
    haccounts.2.2.1, by decide, ?_⟩
  exact haccounts.2.2.2.2.2 emptyHost (lit "/a") (lit "/b") 0 .none _ hrename
    (rename_eq_ok (by decide))

end Montygo.MountFs
