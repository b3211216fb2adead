import Montygo.MountFs.View
import Montygo.MountFs.Rename

/-!
# What a failed call leaves behind

Every call checks first and changes the mount last, so a call that fails leaves it
as it was.  The one exception is `mkdir` with `parents`: it puts the missing
ancestors of its target into the overlay one by one, and those that it has put
there stay when a later one fails.  They are directories that nothing was visible
at before.
-/

namespace Montygo.MountFs

open Go Value Fallible FailsClean

variable {m m' : Mount} {host : Node} {rel vpath : GoString} {e : MountError} {now : Float64}

/-! ## The changes -/

/-- The mount with an entry put into its overlay, whatever the limit. -/
def Mount.put (m : Mount) (rel : GoString) (entry : OverlayEntry) : Mount :=
  { m with overlay := m.overlay.insertUnchecked rel entry }

variable {entry : OverlayEntry} {data : Bytes} {p : Path} {names : List GoString}
  {w : ComponentWalk}

theorem insertEntry_eq_ok {u : Unit} : insertEntry rel entry m = .ok u m' ↔
      ¬ m.overlay.projectedUsage rel entry > m.memLimit ∧ m' = m.put rel entry := by
  rw [insertEntry, update_eq_ok, OverlayState.insert]
  by_cases hlimit : m.overlay.projectedUsage rel entry > m.memLimit
  · simp [hlimit]
  rw [if_neg hlimit]
  simp only [Except.ok.injEq, Prod.mk.injEq, true_and]
  exact ⟨fun h => ⟨hlimit, h.symm⟩, fun h => h.2.symm⟩

theorem insertEntry_eq_error : insertEntry rel entry m = .error e m' ↔
      m.overlay.projectedUsage rel entry > m.memLimit ∧ e = .memoryLimit m.memLimit ∧ m' = m := by
  rw [insertEntry, update_eq_error, OverlayState.insert]
  by_cases hlimit : m.overlay.projectedUsage rel entry > m.memLimit
  · simp [hlimit, eq_comm]
  · simp [hlimit]

theorem failsClean_insertEntry (rel : GoString) (entry : OverlayEntry) :
    FailsClean (insertEntry rel entry) :=
  failsClean_update _

theorem commitBytes_ne_error (n : UInt64) : commitBytes n m ≠ .error e m' := by
  intro h
  exact absurd (update_eq_error.mp h).1 (by simp)

theorem appendEntry_false (h : appendEntry rel data now m = .ok false m') : m' = m := by
  rw [appendEntry, update_eq_ok] at h
  unfold OverlayState.appendFile at h
  split at h
  · cases h
  rename_i appended overlay happend
  split at happend
  · cases happend
    cases h
    rfl
  · split at happend
    · cases happend
      cases h
      rfl
    · simp only at happend
      split at happend
      · cases happend
      · cases happend
        simp at h

/-! ## The calls that check before they change -/

theorem failsClean_overlayWrite {result : ℕ} :
    FailsClean (overlayWrite host vpath data result now) := by
  refine check_bind fun rel => ?_
  refine bind_of_total (failsClean_insertEntry _ _) ?_
  intro _ s e s' h
  rcases bind_eq_error.mp h with h | ⟨_, _, -, h⟩
  · exact commitBytes_ne_error _ h
  · exact pure_ne_error h

theorem failsClean_overlayAppend : FailsClean (overlayAppend host vpath data now) := by
  refine check_bind ?_
  rintro ⟨rel, existingLen, charged⟩ s e s' h
  rcases bind_eq_error.mp h with h | ⟨appended, s₁, happend, h⟩
  · exact failsClean_update _ s e s' h
  cases appended with
  | true => exact absurd h (commitBytes_ne_error _)
  | false =>
    rw [appendEntry_false happend] at h
    refine check_bind (fun content => ?_) s e s' h
    exact bind_of_total (failsClean_insertEntry _ _) fun _ _ _ _ => commitBytes_ne_error _

theorem failsClean_ensureAppendTargetExists :
    FailsClean (ensureAppendTargetExists host vpath now) := by
  refine check_bind ?_
  rintro ⟨rel, create⟩
  cases create with
  | false => exact failsClean_pure
  | true => exact failsClean_insertEntry _ _

theorem failsClean_overlayOpen {mode : FileMode} : FailsClean (overlayOpen host vpath mode now) := by
  unfold overlayOpen
  cases mode.action with
  | read => exact bind_of_total (failsClean_check _) fun _ _ _ _ => pure_ne_error
  | write => exact bind_of_total failsClean_overlayWrite fun _ _ _ _ => pure_ne_error
  | append =>
    exact bind_of_total failsClean_ensureAppendTargetExists fun _ _ _ _ => pure_ne_error

theorem failsClean_overlayUnlink : FailsClean (overlayUnlink host rel vpath) :=
  check_bind fun _ => failsClean_insertEntry _ _

theorem failsClean_overlayRmdir : FailsClean (overlayRmdir host rel vpath) :=
  check_bind fun _ => failsClean_insertEntry _ _

theorem failsClean_overlayRename {dstV : GoString} :
    FailsClean (overlayRename host vpath dstV now) :=
  check_bind fun _ => failsClean_update _

/-! ## Parents that stay -/

theorem Mount.view_put_of_ne {q : Path} (hp : OrdinaryPath p) (hq : OrdinaryPath q) (hne : p ≠ q) :
    (m.put (key q) entry).view host p = m.view host p := by
  have hkey : key p ≠ key q := fun h => hne ((key_inj hp hq).mp h)
  have hsame : (m.put (key q) entry).overlay.entries (key p) = m.overlay.entries (key p) :=
    Function.update_of_ne hkey _ _
  rw [Mount.view, Mount.view, hsame]

/-- The mount with empty directories put at the given paths. -/
def Mount.addDirectories (now : Float64) (m : Mount) (paths : List Path) : Mount :=
  paths.foldl (fun m q => m.put (key q) (directoryEntry now)) m

/-- The paths on the way along `names` from `p` that show nothing. -/
def Mount.missingFrom (m : Mount) (host : Node) : Path → List GoString → List Path
  | _, [] => []
  | p, name :: rest =>
    (if m.view host (p ++ [name]) = none then [p ++ [name]] else []) ++
      missingFrom m host (p ++ [name]) rest

theorem mem_missingFrom {q : Path} (h : q ∈ m.missingFrom host p names) :
    m.view host q = none ∧ ∃ r, r ≠ [] ∧ r <+: names ∧ q = p ++ r := by
  induction names generalizing p with
  | nil => simp [Mount.missingFrom] at h
  | cons name rest ih =>
    rw [Mount.missingFrom, List.mem_append] at h
    rcases h with h | h
    · split at h
      · rename_i hnone
        rw [List.mem_singleton.mp h]
        exact ⟨hnone, [name], by simp, by simp, rfl⟩
      · cases h
    · obtain ⟨hnone, r, -, hpre, rfl⟩ := ih h
      refine ⟨hnone, name :: r, by simp, ?_, by simp⟩
      exact List.cons_prefix_cons.mpr ⟨rfl, hpre⟩

theorem missingFrom_put (hp : OrdinaryPath (p ++ names)) :
    (m.put (key p) entry).missingFrom host p names = m.missingFrom host p names := by
  suffices ∀ q : Path, OrdinaryPath (p ++ q ++ names) →
      (m.put (key p) entry).missingFrom host (p ++ q) names = m.missingFrom host (p ++ q) names by
    simpa using this [] (by simpa using hp)
  induction names with
  | nil => simp [Mount.missingFrom]
  | cons name rest ih =>
    intro q hq
    have hp : OrdinaryPath p := (ordinaryPath_append.mp (ordinaryPath_append.mp hq).1).1
    have hrest : OrdinaryPath (p ++ (q ++ [name]) ++ rest) := by simpa using hq
    have hnext : OrdinaryPath (p ++ q ++ [name]) := by
      simpa using (ordinaryPath_append.mp hrest).1
    have hne : p ++ q ++ [name] ≠ p := by
      intro h
      simpa using congrArg List.length h
    have hih := ih (ordinaryPath_append.mpr
      ⟨hp, (ordinaryPath_append.mp hrest).2⟩) (q ++ [name]) hrest
    rw [Mount.missingFrom, Mount.missingFrom, Mount.view_put_of_ne hnext hp hne]
    simpa using hih

/-- Every path on the way along `names` from `p` shows nothing or a directory. -/
def Mount.ClearFrom (m : Mount) (host : Node) (p : Path) (names : List GoString) : Prop :=
  ∀ r, r ≠ [] → r <+: names → m.view host (p ++ r) = none ∨ m.view host (p ++ r) = some .dir

theorem clearFrom_nil : m.ClearFrom host p [] :=
  fun _ hr hpre => absurd (List.prefix_nil.mp hpre) hr

theorem clearFrom_cons {name : GoString}
    (hfirst : m.view host (p ++ [name]) = none ∨ m.view host (p ++ [name]) = some .dir)
    (hrest : m.ClearFrom host (p ++ [name]) names) : m.ClearFrom host p (name :: names) := by
  intro r hr hpre
  cases r with
  | nil => exact absurd rfl hr
  | cons first others =>
    obtain ⟨rfl, hothers⟩ := List.cons_prefix_cons.mp hpre
    rcases eq_or_ne others [] with rfl | hne
    · exact hfirst
    · simpa using hrest others hne hothers

theorem ClearFrom.of_put (hp : OrdinaryPath (p ++ names))
    (h : (m.put (key p) entry).ClearFrom host p names) :
    m.ClearFrom host p names := by
  intro r hr hpre
  have hsplit := ordinaryPath_append.mp hp
  have hr' : OrdinaryPath (p ++ r) :=
    ordinaryPath_append.mpr ⟨hsplit.1, fun x hx => hsplit.2 x (hpre.subset hx)⟩
  rw [← Mount.view_put_of_ne hr' hsplit.1 (by simpa using hr)]
  exact h r hr hpre

/-- **The loop of `createOverlayParents` puts a directory at every missing path.** -/
theorem createLoop_eq_ok {u : Unit} (hw : WalkedTo host p w) (hp : OrdinaryPath (p ++ names))
    (h : createLoop now w (key p) names m = .ok u m') :
    m.ClearFrom host p names ∧ m' = m.addDirectories now (m.missingFrom host p names) := by
  induction names generalizing p w m with
  | nil =>
    obtain ⟨-, rfl⟩ := pure_eq_ok.mp h
    exact ⟨clearFrom_nil, rfl⟩
  | cons name rest ih =>
    obtain ⟨hbase, hname, hp'⟩ := hp.split
    simp only [createLoop, extendKey_key hbase] at h
    obtain ⟨⟨next, create⟩, s₁, hcheck, h⟩ := bind_eq_ok.mp h
    obtain ⟨hstep, rfl⟩ := check_eq_ok.mp hcheck
    obtain ⟨hnext, hview⟩ := parentStep_eq_ok hw hname hstep
    cases create with
    | false =>
      obtain ⟨hclear, hm'⟩ := ih hnext hp' h
      refine ⟨clearFrom_cons (.inr hview) hclear, ?_⟩
      rw [Mount.missingFrom, hview, if_neg (by simp)]
      exact hm'
    | true =>
      obtain ⟨_, s₂, hinsert, h⟩ := bind_eq_ok.mp h
      obtain ⟨-, rfl⟩ := insertEntry_eq_ok.mp hinsert
      obtain ⟨hclear, hm'⟩ := ih hnext hp' h
      refine ⟨clearFrom_cons (.inl hview) (ClearFrom.of_put hp' hclear), ?_⟩
      rw [Mount.missingFrom, hview, if_pos (by simp), hm', missingFrom_put hp']
      rfl

/-- When the loop fails, it has put directories at the missing paths up to some point
before the target. -/
theorem createLoop_eq_error (hw : WalkedTo host p w) (hp : OrdinaryPath (p ++ names))
    (h : createLoop now w (key p) names m = .error e m') :
    ∃ j < names.length, m.ClearFrom host p (names.take j) ∧
      m' = m.addDirectories now (m.missingFrom host p (names.take j)) := by
  induction names generalizing p w m with
  | nil => exact absurd h pure_ne_error
  | cons name rest ih =>
    obtain ⟨hbase, hname, hp'⟩ := hp.split
    simp only [createLoop, extendKey_key hbase] at h
    rcases bind_eq_error.mp h with h | ⟨⟨next, create⟩, s₁, hcheck, h⟩
    · exact ⟨0, by simp, clearFrom_nil, (check_eq_error.mp h).2⟩
    obtain ⟨hstep, rfl⟩ := check_eq_ok.mp hcheck
    obtain ⟨hnext, hview⟩ := parentStep_eq_ok hw hname hstep
    cases create with
    | false =>
      obtain ⟨j, hj, hclear, rfl⟩ := ih hnext hp' h
      refine ⟨j + 1, by simpa using hj, clearFrom_cons (.inr hview) hclear, ?_⟩
      rw [List.take_succ_cons, Mount.missingFrom, hview, if_neg (by simp)]
      rfl
    | true =>
      rcases bind_eq_error.mp h with h | ⟨_, s₂, hinsert, h⟩
      · exact ⟨0, by simp, clearFrom_nil, (insertEntry_eq_error.mp h).2.2⟩
      obtain ⟨-, rfl⟩ := insertEntry_eq_ok.mp hinsert
      obtain ⟨j, hj, hclear, rfl⟩ := ih hnext hp' h
      have htake : OrdinaryPath (p ++ [name] ++ rest.take j) := by
        refine ordinaryPath_append.mpr ⟨(ordinaryPath_append.mp hp').1, ?_⟩
        intro x hx
        exact (ordinaryPath_append.mp hp').2 x (List.mem_of_mem_take hx)
      refine ⟨j + 1, by simpa using hj,
        clearFrom_cons (.inl hview) (ClearFrom.of_put htake hclear), ?_⟩
      rw [List.take_succ_cons, Mount.missingFrom, hview, if_pos (by simp), missingFrom_put htake]
      rfl

private theorem satAdd_satSub_satAdd (a b : UInt64) :
    satAdd (satSub (satAdd a b) b) b = satAdd a b := by
  apply UInt64.toNat_inj.mp
  simp only [toNat_satAdd, toNat_satSub]
  have hb := b.toNat_lt
  omega

theorem projectedUsage_put :
    (m.put rel entry).overlay.projectedUsage rel entry = m.overlay.projectedUsage rel entry := by
  have hat : (m.put rel entry).overlay.usageAt rel = entryUsage rel entry := by
    simp [OverlayState.usageAt, Mount.put, OverlayState.insertUnchecked]
  rw [OverlayState.projectedUsage, hat]
  exact satAdd_satSub_satAdd _ _

theorem Mount.put_put : (m.put rel entry).put rel entry = m.put rel entry := by
  have husage : (m.put rel entry).overlay.projectedUsage rel entry = _ := projectedUsage_put
  have hthere : (m.put rel entry).overlay.entries rel ≠ none := by
    simp [Mount.put, OverlayState.insertUnchecked]
  rw [Mount.put, OverlayState.insertUnchecked, OverlayState.put, husage, if_neg hthere]
  simp [Mount.put, OverlayState.insertUnchecked, OverlayState.put]

/-- Once the loop has put the target, putting it again goes through and changes nothing. -/
theorem createLoop_target {u : Unit} (hw : WalkedTo host p w) (hp : OrdinaryPath (p ++ names))
    (hne : names ≠ []) (hnone : m.view host (p ++ names) = none)
    (h : createLoop now w (key p) names m = .ok u m') :
    insertEntry (key (p ++ names)) (directoryEntry now) m' = .ok () m' := by
  induction names generalizing p w m with
  | nil => exact absurd rfl hne
  | cons name rest ih =>
    obtain ⟨hbase, hname, hp'⟩ := hp.split
    have hassoc : p ++ name :: rest = p ++ [name] ++ rest := by simp
    simp only [createLoop, extendKey_key hbase] at h
    obtain ⟨⟨next, create⟩, s₁, hcheck, h⟩ := bind_eq_ok.mp h
    obtain ⟨hstep, rfl⟩ := check_eq_ok.mp hcheck
    obtain ⟨hnext, hview⟩ := parentStep_eq_ok hw hname hstep
    rw [hassoc] at hnone ⊢
    rcases eq_or_ne rest [] with rfl | hrest
    · rw [List.append_nil] at hnone ⊢
      rw [hnone] at hview
      cases create with
      | false => cases hview
      | true =>
        obtain ⟨_, s₂, hinsert, h⟩ := bind_eq_ok.mp h
        obtain ⟨hlimit, rfl⟩ := insertEntry_eq_ok.mp hinsert
        obtain ⟨-, rfl⟩ := pure_eq_ok.mp h
        refine insertEntry_eq_ok.mpr ⟨?_, Mount.put_put.symm⟩
        rw [projectedUsage_put]
        exact hlimit
    · cases create with
      | false => exact ih hnext hp' hrest hnone h
      | true =>
        obtain ⟨_, s₂, hinsert, h⟩ := bind_eq_ok.mp h
        obtain ⟨-, rfl⟩ := insertEntry_eq_ok.mp hinsert
        refine ih hnext hp' hrest ?_ h
        rw [Mount.view_put_of_ne hp' (ordinaryPath_append.mp hp').1 (by simpa using hrest)]
        exact hnone

private theorem createOverlayParents_root {f : Unit → MountM Unit}
    (hf : ∀ u, f u = insertEntry [] (directoryEntry now)) :
    FailsClean (createOverlayParents host [] now >>= f) := by
  intro s e s' hfail
  have hsplit : split ([] : GoString) = [[]] := rfl
  have hkey : Mount.extendKey [] ([] : GoString) = [] := rfl
  simp only [createOverlayParents, hsplit, createLoop, hkey] at hfail
  rcases bind_eq_error.mp hfail with h | ⟨u, s₁, hloop, hlast⟩
  · rcases bind_eq_error.mp h with h | ⟨⟨next, create⟩, s₂, hcheck, h⟩
    · exact (check_eq_error.mp h).2
    rw [(check_eq_ok.mp hcheck).2] at h
    cases create with
    | false => exact absurd h pure_ne_error
    | true =>
      rcases bind_eq_error.mp h with h | ⟨_, _, -, h⟩
      · exact (insertEntry_eq_error.mp h).2.2
      · exact absurd h pure_ne_error
  · rw [hf] at hlast
    obtain ⟨hover, -, rfl⟩ := insertEntry_eq_error.mp hlast
    obtain ⟨⟨next, create⟩, s₂, hcheck, hloop⟩ := bind_eq_ok.mp hloop
    rw [(check_eq_ok.mp hcheck).2] at hloop
    cases create with
    | false => exact (pure_eq_ok.mp hloop).2.symm
    | true =>
      obtain ⟨_, s₃, hinsert, hloop⟩ := bind_eq_ok.mp hloop
      obtain ⟨hlimit, rfl⟩ := insertEntry_eq_ok.mp hinsert
      rw [← (pure_eq_ok.mp hloop).2, projectedUsage_put] at hover
      exact absurd hover hlimit

/-- **A failed `mkdir` leaves at most missing ancestors of its target.** -/
theorem overlayMkdir_eq_error (hhost : host.isDir = true) (hp : OrdinaryPath p)
    (hrel : resolveVirtualPath vpath m.root.virtualPath = .ok (key p)) {parents existOK : Bool}
    (h : overlayMkdir host (key p) parents existOK vpath now m = .error e m') :
    m' = m ∨ parents = true ∧ ∃ j < p.length, m.ClearFrom host [] (p.take j) ∧
      m' = m.addDirectories now (m.missingFrom host [] (p.take j)) := by
  unfold overlayMkdir at h
  rcases bind_eq_error.mp h with h | ⟨done, s₁, hcheck, h⟩
  · exact .inl (check_eq_error.mp h).2
  obtain ⟨hdone, rfl⟩ := check_eq_ok.mp hcheck
  have hview := mkdirTarget_eq_ok hhost hp hrel hdone
  cases done with
  | true => exact absurd h pure_ne_error
  | false =>
    cases parents with
    | false =>
      refine .inl (check_bind ?_ _ _ _ h)
      exact fun _ => failsClean_insertEntry _ _
    | true =>
      rcases eq_or_ne p [] with rfl | hne
      · exact .inl (createOverlayParents_root (fun _ => rfl) _ _ _ h)
      have hstart : WalkedTo host [] { current := host, exhausted := false } := walkedTo_start
      have hloop : ∀ s, createOverlayParents host (key p) now s =
          createLoop now { current := host, exhausted := false } (key []) p s := by
        intro s
        rw [createOverlayParents, split_key hp hne, key_nil]
      rcases bind_eq_error.mp h with h | ⟨_, s₂, hok, h⟩
      · rw [hloop] at h
        exact .inr ⟨rfl, createLoop_eq_error hstart hp h⟩
      · rw [hloop] at hok
        have hagain := createLoop_target hstart hp hne hview hok
        rw [List.nil_append] at hagain
        exact absurd (h.symm.trans hagain) (by simp)

/-! ## Every call -/

theorem overlayOnPath_of_resolve {f : GoString → MountM OsResult}
    (hrel : resolveVirtualPath vpath m.root.virtualPath = .ok rel) :
    overlayOnPath vpath f m = f rel m := by
  have hcheck : (check fun m : Mount => resolveVirtualPath vpath m.root.virtualPath) m =
      .ok rel m := check_eq_ok.mpr ⟨hrel, rfl⟩
  simp only [overlayOnPath, bind, EStateM.bind, hcheck]

theorem overlayExecute_exists (hhost : host.isDir = true) (hp : OrdinaryPath p)
    (hrel : resolveVirtualPath vpath m.root.virtualPath = .ok (key p)) :
    overlayExecute host (.exists vpath) now m = .ok (.bool (m.view host p).isSome) m := by
  refine (overlayOnPath_of_resolve hrel).trans (bind_eq_ok.mpr ?_)
  exact ⟨_, m, check_eq_ok.mpr ⟨overlayPredicate_exists hhost hp hrel, rfl⟩, rfl⟩

private theorem failsClean_look {α : Type} {g : GoString → Mount → Except MountError α}
    {result : α → OsResult} :
    FailsClean (overlayOnPath vpath fun rel => do
      let a ← check (g rel)
      pure (result a)) :=
  check_bind fun _ => check_bind fun _ => failsClean_pure

private theorem failsClean_change {α : Type} {x : MountM α} {result : α → OsResult}
    (hx : FailsClean x) : FailsClean (x >>= fun a => pure (result a)) :=
  hx.bind_of_total fun _ _ _ _ => pure_ne_error

/-- A call that fails changes nothing, but for a `mkdir` with `parents`, which may have made
the missing directories on the way to some ancestor of its target. -/
theorem overlayExecute_eq_error (hhost : host.isDir = true) {call : OsCall}
    (h : overlayExecute host call now m = .error e m') :
    m' = m ∨ ∃ path existOK target j, call = .mkdir path true existOK ∧ OrdinaryPath target ∧
      resolveVirtualPath path m.root.virtualPath = .ok (key target) ∧ j < target.length ∧
      m.ClearFrom host [] (target.take j) ∧
      m' = m.addDirectories now (m.missingFrom host [] (target.take j)) := by
  cases call with
  | resolve path | absolute path => exact absurd h pure_ne_error
  | «exists» path | isFile path | isDir path | isSymlink path | readText path | readBytes path
  | stat path | iterdir path => exact .inl (failsClean_look _ _ _ h)
  | writeText path text | writeBytes path data =>
    exact .inl (failsClean_change failsClean_overlayWrite _ _ _ h)
  | appendText path text | appendBytes path data =>
    exact .inl (failsClean_change failsClean_overlayAppend _ _ _ h)
  | rename path dst => exact .inl (failsClean_change failsClean_overlayRename _ _ _ h)
  | «open» path mode => exact .inl (failsClean_overlayOpen _ _ _ h)
  | unlink path =>
    exact .inl (check_bind (fun _ => failsClean_change failsClean_overlayUnlink) _ _ _ h)
  | rmdir path =>
    exact .inl (check_bind (fun _ => failsClean_change failsClean_overlayRmdir) _ _ _ h)
  | mkdir path parents existOK =>
    rcases bind_eq_error.mp h with h | ⟨rel, s₁, hresolve, h⟩
    · exact .inl (check_eq_error.mp h).2
    obtain ⟨hrel, rfl⟩ := check_eq_ok.mp hresolve
    obtain ⟨target, htarget, rfl⟩ := s₁.resolved hrel
    rcases bind_eq_error.mp h with h | ⟨_, _, -, h⟩
    · rcases overlayMkdir_eq_error hhost htarget hrel h with rfl | ⟨rfl, j, hj, hclear, hm'⟩
      · exact .inl rfl
      · exact .inr ⟨path, existOK, target, j, rfl, htarget, hrel, hj, hclear, hm'⟩
    · exact absurd h pure_ne_error

/-- **A call that fails leaves the mount as it was.**  Only `mkdir` with `parents` may have
put empty directories at ancestors of its target, all of them at paths at which `exists`
found nothing. -/
theorem overlayExecute_error_unchanged (hhost : host.isDir = true) {call : OsCall}
    (h : overlayExecute host call now m = .error e m') :
    m' = m ∨ ∃ path existOK target added, call = .mkdir path true existOK ∧
      resolveVirtualPath path m.root.virtualPath = .ok (key target) ∧
      m' = m.addDirectories now added ∧
      ∀ q ∈ added, q ≠ [] ∧ q <+: target ∧ q ≠ target ∧
        ∀ v t, resolveVirtualPath v m.root.virtualPath = .ok (key q) →
          overlayExecute host (.exists v) t m = .ok (.bool false) m := by
  rcases overlayExecute_eq_error hhost h with rfl | ⟨path, existOK, target, j, rfl, htarget, hrel,
    hj, -, rfl⟩
  · exact .inl rfl
  refine .inr ⟨path, existOK, target, _, rfl, hrel, rfl, ?_⟩
  intro q hq
  obtain ⟨hnone, _, hr, hpre, rfl⟩ := mem_missingFrom hq
  have hbefore : q <+: target := hpre.trans (List.take_prefix j target)
  refine ⟨hr, hbefore, ?_, ?_⟩
  · rintro rfl
    have hle := hpre.length_le
    rw [List.length_take] at hle
    omega
  · intro v t hv
    have hord : OrdinaryPath q := fun x hx => htarget x (hbefore.subset hx)
    rw [overlayExecute_exists hhost hord hv, hnone]
    rfl

/-- A host directory without entries. -/
def emptyHost : Node := .dir [] 0 {}

/-- `mkdir("/a/b", parents=True)` where the memory suffices for one directory only: `a`
stays, and nothing was visible there before. -/
theorem overlayExecute_error_unchanged_halfway : ∃ m m' : Mount, m' ≠ m ∧
      overlayExecute emptyHost (.mkdir (lit "/a/b") true false) 0 m = .error (.memoryLimit 310) m' ∧
      ∃ path existOK target added, OsCall.mkdir (lit "/a/b") true false = .mkdir path true existOK ∧
        resolveVirtualPath path m.root.virtualPath = .ok (key target) ∧
        m' = m.addDirectories 0 added ∧
        ∀ q ∈ added, q ≠ [] ∧ q <+: target ∧ q ≠ target ∧
          ∀ v t, resolveVirtualPath v m.root.virtualPath = .ok (key q) →
            overlayExecute emptyHost (.exists v) t m = .ok (.bool false) m := by
  have hrun : overlayExecute emptyHost (.mkdir (lit "/a/b") true false) 0
      (newMount (Root.open (lit "/")) none 310) = .error (.memoryLimit 310)
          ((newMount (Root.open (lit "/")) none 310).addDirectories 0 [[lit "a"]]) := rfl
  have hne : (newMount (Root.open (lit "/")) none 310).addDirectories 0 [[lit "a"]] ≠
      newMount (Root.open (lit "/")) none 310 := by
    intro h
    have : (1 : ℕ) = 0 := congrArg (fun m => m.overlay.keys.length) h
    cases this
  exact ⟨_, _, hne, hrun, (overlayExecute_error_unchanged rfl hrun).resolve_left hne⟩

end Montygo.MountFs
