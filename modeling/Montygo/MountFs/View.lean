import Montygo.MountFs.HostView
import Montygo.MountFs.Overlay

/-!
# The tree a mount shows

`Mount.view` is what a path of the mount shows, entry by entry: an overlay entry
decides for its own path, and a path without an entry shows the host tree.  The
looking calls only ever tell what the view has: this module proves it for the
predicates, for `stat` and for `read`, from the functions that resolve real paths.
-/

namespace Montygo.MountFs

open Go Value Outcome

/-- What stands at a path. -/
inductive Seen where
  /-- A regular file, with what the operating system refuses when it is opened. -/
  | file (content : Bytes) (refused : Option HostError)
  /-- A reference whose real file is not to be found. -/
  | lost
  | dir
  | special
  deriving DecidableEq, Repr

/-- What a visible host node shows. -/
def Node.seen : Node → Seen
  | .file content _ refused => .file content refused
  | .dir _ _ _ => .dir
  | .symlink _ | .special _ => .special

/-- What a reference to a real file shows. -/
def refSeen (host : Node) (relative : GoString) : Seen :=
  match host.visibleAt (split relative) with
  | some (.file content _ refused) => .file content refused
  | _ => .lost

/-- What an overlay entry shows. -/
def OverlayEntry.seen (host : Node) (entry : OverlayEntry) : Option Seen :=
  match entry.kind with
  | .file => some (.file entry.content none)
  | .realFileRef => some (refSeen host entry.relative)
  | .directory => some .dir
  | .deleted => none

attribute [local simp] OverlayEntry.seen

/-- What a path of the mount shows. -/
def Mount.view (m : Mount) (host : Node) (p : Path) : Option Seen :=
  match m.overlay.entries (key p) with
  | some entry => entry.seen host
  | none => (host.visibleAt p).map Node.seen

variable {m : Mount} {host node : Node} {p : Path} {vpath : GoString}

theorem view_of_entry {entry : OverlayEntry} (h : m.overlay.entries (key p) = some entry) :
    m.view host p = entry.seen host := by
  rw [Mount.view, h]

theorem view_of_none (h : m.overlay.entries (key p) = none) :
    m.view host p = (host.visibleAt p).map Node.seen := by
  rw [Mount.view, h]

theorem seen_eq_dir_iff {entry : OverlayEntry} :
    entry.seen host = some .dir ↔ entry.kind = .directory := by
  cases hkind : entry.kind with
  | file | directory | deleted => simp [hkind]
  | realFileRef =>
    simp only [OverlayEntry.seen, hkind, refSeen]
    split <;> simp

theorem Mount.resolved (m : Mount) {rel : GoString}
    (h : resolveVirtualPath vpath m.root.virtualPath = .ok rel) :
    ∃ p, OrdinaryPath p ∧ rel = key p := by
  obtain ⟨mount, hmount, hroot⟩ := m.root.normalized
  rw [hroot] at h
  exact resolveVirtualPath_eq_ok hmount h

/-! ## Real paths -/

theorem key_ne_dot (hp : OrdinaryPath p) : key p ≠ lit "." := by
  intro h
  have hdot : Segments.Proper slash [lit "."] := by
    intro name hname
    rw [List.mem_singleton.mp hname]
    decide
  have hpath : p = [lit "."] := Segments.join_injective hp.proper hdot (by
    rw [Segments.join_singleton]
    exact h)
  exact (hp (lit ".") (by simp [hpath])).ne_dot rfl

theorem rejectSymlinkChain_key (hp : OrdinaryPath p) : rejectSymlinkChain host (key p) vpath =
      chainLoop vpath { current := host, exhausted := false } p := by
  rcases eq_or_ne p [] with rfl | hne
  · rw [key_nil, rejectSymlinkChain, if_pos (.inl rfl), chainLoop]
  · rw [rejectSymlinkChain, if_neg (not_or.mpr ⟨(key_eq_nil hp).not.mpr hne, key_ne_dot hp⟩),
      split_key hp hne]

theorem rejectSymlinkChain_dirOp_key (hp : OrdinaryPath p) :
    rejectSymlinkChain host (dirOp (key p)) vpath =
      chainLoop vpath { current := host, exhausted := false } p := by
  rcases eq_or_ne p [] with rfl | hne
  · rfl
  · rw [dirOp, if_neg ((key_eq_nil hp).not.mpr hne), rejectSymlinkChain_key hp]

theorem resolveReal_eq (hp : OrdinaryPath p)
    (hrel : resolveVirtualPath vpath m.root.virtualPath = .ok (key p)) :
    m.resolveReal host vpath =
      (chainLoop vpath { current := host, exhausted := false } p).map fun _ => key p := by
  rw [Mount.resolveReal, hrel]
  show (do rejectSymlinkChain host (dirOp (key p)) vpath; pure (key p)) = _
  rw [rejectSymlinkChain_dirOp_key hp]
  cases chainLoop vpath { current := host, exhausted := false } p <;> rfl

/-- A real path that resolves is the key itself, and the host answers for it by one
descent. -/
theorem resolveReal_eq_ok (hhost : host.isDir = true) (hp : OrdinaryPath p)
    (hrel : resolveVirtualPath vpath m.root.virtualPath = .ok (key p)) {target : GoString}
    (h : m.resolveReal host vpath = .ok target) :
    target = key p ∧ stat host (dirOp (key p)) = host.descend p ∧
      lstat host (dirOp (key p)) = host.descend p ∧
      ∀ x, host.visibleAt p = some x ↔ host.descend p = .ok x := by
  rw [resolveReal_eq hp hrel] at h
  cases hchain : chainLoop vpath { current := host, exhausted := false } p with
  | error e => simp [hchain, Except.map] at h
  | ok u =>
    rw [hchain] at h
    have hlink := meetsLink_of_chainLoop hp hchain
    refine ⟨(Except.ok.inj h).symm, stat_dirOp_key hhost hp hlink,
      lstat_dirOp_key hhost hp hlink, ?_⟩
    intro x
    rw [visibleAt_eq_some_iff vpath hp, hchain]
    simp

theorem visibleAt_of_resolveReal_error (hp : OrdinaryPath p)
    (hrel : resolveVirtualPath vpath m.root.virtualPath = .ok (key p)) {e : MountError}
    (h : m.resolveReal host vpath = .error e) : host.visibleAt p = none := by
  rw [resolveReal_eq hp hrel] at h
  cases hchain : chainLoop vpath { current := host, exhausted := false } p with
  | ok u => simp [hchain, Except.map] at h
  | error e =>
    rw [Option.eq_none_iff_forall_ne_some]
    intro x hx
    rw [visibleAt_eq_some_iff vpath hp, hchain] at hx
    exact absurd hx.1 (by simp)

section

variable (hhost : host.isDir = true) (hp : OrdinaryPath p)
include hhost hp

theorem resolveRealPathState_missing
    (hrel : resolveVirtualPath vpath m.root.virtualPath = .ok (key p)) :
    m.resolveRealPathState host vpath .missing =
      .ok ((host.visibleAt p).map fun _ => dirOp (key p)) := by
  unfold Mount.resolveRealPathState
  cases hreal : m.resolveReal host vpath with
  | error e => simp [visibleAt_of_resolveReal_error hp hrel hreal]
  | ok target =>
    obtain ⟨rfl, hstat, -, hseen⟩ := resolveReal_eq_ok hhost hp hrel hreal
    simp only [hstat]
    cases hdescend : host.descend p with
    | ok x => simp [(hseen x).mpr hdescend]
    | error err => simp [visibleAt_of_descend_error hp hdescend]

theorem stat_of_visibleAt (h : host.visibleAt p = some node) :
    stat host (dirOp (key p)) = .ok node := by
  obtain ⟨hchain, hdescend⟩ := (visibleAt_eq_some_iff [] hp).mp h
  rw [stat_dirOp_key hhost hp (meetsLink_of_chainLoop hp hchain), hdescend]

theorem lstat_of_visibleAt (h : host.visibleAt p = some node) :
    lstat host (dirOp (key p)) = .ok node := by
  obtain ⟨hchain, hdescend⟩ := (visibleAt_eq_some_iff [] hp).mp h
  rw [lstat_dirOp_key hhost hp (meetsLink_of_chainLoop hp hchain), hdescend]

end

/-! ## The predicates -/

/-- `is_file`. -/
def Seen.isFile : Seen → Bool
  | .file _ _ | .lost => true
  | .dir | .special => false

/-- `is_dir`. -/
def Seen.isDir : Seen → Bool
  | .dir => true
  | .file _ _ | .lost | .special => false

section Predicates

variable (hhost : host.isDir = true) (hp : OrdinaryPath p)
  (hrel : resolveVirtualPath vpath m.root.virtualPath = .ok (key p))

include hhost hp hrel

private theorem overlayPredicate_view (holds : Seen → Bool) {byKind : EntryKind → Bool}
    {byHost : Node → GoString → Bool}
    (hkind : ∀ entry : OverlayEntry, byKind entry.kind = (entry.seen host).any holds)
    (hnode : ∀ node, stat host (dirOp (key p)) = .ok node →
      byHost host (dirOp (key p)) = holds node.seen) :
    overlayPredicate m host (key p) vpath byKind byHost = .ok ((m.view host p).any holds) := by
  unfold overlayPredicate
  cases hentry : m.overlay.entries (key p) with
  | some entry => simp [view_of_entry hentry, hkind]
  | none =>
    rw [view_of_none hentry, resolveRealPathState_missing hhost hp hrel]
    cases hseen : host.visibleAt p with
    | none => rfl
    | some node => simp [hnode node (stat_of_visibleAt hhost hp hseen)]

/-- **`exists` tells whether the view has something.** -/
theorem overlayPredicate_exists : overlayPredicate m host (key p) vpath (· ≠ .deleted) hostExists =
      .ok (m.view host p).isSome := by
  have hview : (m.view host p).isSome = (m.view host p).any fun _ => true := by
    cases m.view host p <;> rfl
  rw [hview]
  refine overlayPredicate_view hhost hp hrel (fun _ => true) ?_ ?_
  · intro entry
    cases hkind : entry.kind <;> simp [hkind]
  · intro node hstat
    simp [hostExists, hstat]

/-- **`is_file` tells whether the view has a file.** -/
theorem overlayPredicate_isFile :
    overlayPredicate m host (key p) vpath (fun k => k = .file ∨ k = .realFileRef) hostIsFile =
      .ok ((m.view host p).any Seen.isFile) := by
  refine overlayPredicate_view hhost hp hrel Seen.isFile ?_ ?_
  · intro entry
    cases hkind : entry.kind with
    | file | directory | deleted => simp [hkind, Seen.isFile]
    | realFileRef =>
      simp only [OverlayEntry.seen, hkind, Option.any_some, refSeen]
      split <;> simp [Seen.isFile]
  · intro node hstat
    cases node <;> simp [hostIsFile, hstat, Node.isRegular, Node.seen, Seen.isFile]

/-- **`is_dir` tells whether the view has a directory.** -/
theorem overlayPredicate_isDir : overlayPredicate m host (key p) vpath (· = .directory) hostIsDir =
      .ok ((m.view host p).any Seen.isDir) := by
  refine overlayPredicate_view hhost hp hrel Seen.isDir ?_ ?_
  · intro entry
    cases hkind : entry.kind with
    | file | directory | deleted => simp [hkind, Seen.isDir]
    | realFileRef =>
      simp only [OverlayEntry.seen, hkind, Option.any_some, refSeen]
      split <;> simp [Seen.isDir]
  · intro node hstat
    cases node <;> simp [hostIsDir, hstat, Node.isDir, Node.seen, Seen.isDir]

end Predicates

/-! ## Parents -/

theorem extendKey_key (hp : OrdinaryPath p) (name : GoString) :
    Mount.extendKey (key p) name = key (p ++ [name]) := by
  rcases eq_or_ne p [] with rfl | hne
  · rw [key_nil, Mount.extendKey, if_pos rfl, List.nil_append, key_singleton]
  · rw [Mount.extendKey, if_neg ((key_eq_nil hp).not.mpr hne), key_append hne (by simp),
      key_singleton]

/-- One round of `createOverlayParents`: a directory is put only where nothing shows, and
where none is put a directory shows already. -/
theorem parentStep_eq_ok {w next : ComponentWalk} {name : GoString} {create : Bool}
    (hw : WalkedTo host p w) (hname : Ordinary name)
    (h : parentStep m w (key (p ++ [name])) name vpath = .ok (next, create)) :
    WalkedTo host (p ++ [name]) next ∧
      m.view host (p ++ [name]) = if create then none else some .dir := by
  simp only [parentStep, bind_eq_ok] at h
  obtain ⟨⟨real, walked⟩, hstep, h⟩ := h
  obtain ⟨hnext, hshows⟩ := hw.step hname hstep
  cases hentry : m.overlay.entries (key (p ++ [name])) with
  | some entry =>
    rw [view_of_entry hentry]
    cases hkind : entry.kind <;> simp only [hentry, hkind, pure_eq_ok, reduceCtorEq] at h
    all_goals
      cases h
      exact ⟨hnext, by simp [hkind]⟩
  | none =>
    rw [view_of_none hentry]
    cases real <;> simp only [hentry, pure_eq_ok, reduceCtorEq] at h
    · cases h
      obtain ⟨node, hseen, hdir⟩ := hshows
      refine ⟨hnext, ?_⟩
      cases node <;> simp_all [Node.isDir, Node.seen]
    · cases h
      have hseen : host.visibleAt (p ++ [name]) = none := hshows
      exact ⟨hnext, by simp [hseen]⟩

/-- **Where `ensureParentExists` accepts, every directory on the way shows.** -/
theorem parentLoop_eq_ok {w : ComponentWalk} {names : Path} (hw : WalkedTo host p w)
    (hp : OrdinaryPath (p ++ names)) (h : m.parentLoop vpath w (key p) names = .ok ()) :
    ∀ r, r ≠ [] → r <+: names → m.view host (p ++ r) = some .dir := by
  induction names generalizing p w with
  | nil =>
    intro r hr hpre
    exact absurd (List.prefix_nil.mp hpre) hr
  | cons name rest ih =>
    obtain ⟨hbase, hname, hp'⟩ := hp.split
    rw [Mount.parentLoop, extendKey_key hbase] at h
    cases hstep : w.step name vpath with
    | error e => simp [hstep] at h
    | ok found =>
      obtain ⟨real, next⟩ := found
      obtain ⟨hnext, hshows⟩ := hw.step hname hstep
      simp only [hstep] at h
      -- The directory at this name shows, and the loop goes on below it.
      have hstop : m.view host (p ++ [name]) = some .dir ∧
          m.parentLoop vpath next (key (p ++ [name])) rest = .ok () := by
        cases hentry : m.overlay.entries (key (p ++ [name])) with
        | some entry =>
          rw [view_of_entry hentry]
          by_cases hkind : entry.kind = .directory
          · simp only [hentry, hkind, ne_eq, not_true_eq_false, if_false] at h
            exact ⟨by simp [hkind], h⟩
          · simp [hentry, hkind] at h
        | none =>
          rw [view_of_none hentry]
          cases real with
          | symlink | file | absent => simp [hentry] at h
          | dir =>
            simp only [hentry] at h
            obtain ⟨node, hseen, hdir⟩ := hshows
            refine ⟨?_, h⟩
            cases node <;> simp_all [Node.isDir, Node.seen]
      intro r hr hpre
      cases r with
      | nil => exact absurd rfl hr
      | cons first others =>
        obtain ⟨rfl, hothers⟩ := List.cons_prefix_cons.mp hpre
        rcases eq_or_ne others [] with rfl | hne
        · exact hstop.1
        · have := ih hnext hp' hstop.2 others hne hothers
          simpa using this

/-! ## Targets -/

theorem isSymlink_of_visibleAt (hhost : host.isDir = true) (h : host.visibleAt p = some node) :
    node.isSymlink = false := by
  induction p generalizing host with
  | nil =>
    cases h
    cases node <;> simp_all [Node.isDir, Node.isSymlink]
  | cons name rest ih =>
    simp only [Node.visibleAt] at h
    cases hchild : host.child name with
    | error err => simp [hchild] at h
    | ok next =>
      simp only [hchild] at h
      cases next with
      | symlink target => simp at h
      | file content mtime refused | special mtime =>
        simp only [Option.ite_none_right_eq_some] at h
        rw [← Option.some.inj h.2]
        rfl
      | dir children mtime access =>
        cases hroot : access.opens with
        | some refusal => simp [hroot] at h
        | none =>
          simp only [hroot] at h
          exact ih rfl h

/-- One `lstat` of a path that resolves tells what the host tree shows there. -/
theorem classifyTarget_shows (hhost : host.isDir = true) (hp : OrdinaryPath p)
    (hrel : resolveVirtualPath vpath m.root.virtualPath = .ok (key p)) {target v : GoString}
    {kind : RealTarget} (hreal : m.resolveReal host vpath = .ok target)
    (h : classifyTarget host (dirOp (key p)) v = .ok kind) : Shows (host.visibleAt p) kind := by
  obtain ⟨-, -, hlstat, hseen⟩ := resolveReal_eq_ok hhost hp hrel hreal
  rw [classifyTarget, hlstat] at h
  cases hdescend : host.descend p with
  | error err =>
    simp only [hdescend] at h
    split at h
    · cases h
      exact visibleAt_of_descend_error hp hdescend
    · cases h
  | ok node =>
    have hsome := (hseen node).mpr hdescend
    have hlink := isSymlink_of_visibleAt hhost hsome
    simp only [hdescend, hlink, Bool.false_eq_true, if_false] at h
    split at h
    · rename_i hdir
      cases h
      exact ⟨node, hsome, hdir⟩
    · rename_i hdir
      cases h
      exact ⟨node, hsome, by simpa using hdir, hlink⟩

theorem seen_of_isDir (h : node.isDir = true) : node.seen = .dir := by
  cases node <;> simp_all [Node.isDir, Node.seen]

/-- **What `mkdir` finds at its target is what shows there.** -/
theorem mkdirTarget_eq_ok (hhost : host.isDir = true) (hp : OrdinaryPath p)
    (hrel : resolveVirtualPath vpath m.root.virtualPath = .ok (key p)) {existOK done : Bool}
    (h : mkdirTarget host m (key p) existOK vpath = .ok done) :
    m.view host p = if done then some .dir else none := by
  unfold mkdirTarget at h
  cases hentry : m.overlay.entries (key p) with
  | some entry =>
    rw [view_of_entry hentry]
    cases hkind : entry.kind <;> simp only [hentry, hkind, reduceCtorEq] at h
    · split at h <;> cases h
      simp [hkind]
    · cases h
      simp [hkind]
  | none =>
    rw [view_of_none hentry]
    simp only [hentry, bind_eq_ok] at h
    obtain ⟨target, hreal, kind, hkind, h⟩ := h
    rw [(resolveReal_eq_ok hhost hp hrel hreal).1] at hkind
    have hshows := classifyTarget_shows hhost hp hrel hreal hkind
    cases kind with
    | file | symlink => cases h
    | dir =>
      obtain ⟨node, hseen, hdir⟩ := hshows
      simp only at h
      split at h <;> cases h
      simp [hseen, seen_of_isDir hdir]
    | absent =>
      cases h
      have hnone : host.visibleAt p = none := hshows
      simp [hnone]

/-! ## The keys of the overlay -/

/-- The keys of an overlay are the spellings of paths below the root. -/
structure Mount.Canonical (m : Mount) : Prop where
  sorted : m.overlay.Sorted
  path : ∀ k, m.overlay.entries k ≠ none → ∃ p, p ≠ [] ∧ OrdinaryPath p ∧ k = key p

theorem canonical_newMount (root : Root) (writeLimit : Option UInt64) (memLimit : UInt64) :
    (newMount root writeLimit memLimit).Canonical where
  sorted := OverlayState.sorted_new
  path _ hk := absurd rfl hk

/-- **The keys below a directory are those of the paths below it.** -/
theorem mem_prefixKeys (hm : m.Canonical) (hp : OrdinaryPath p) {k : GoString} :
    k ∈ m.overlay.prefixKeys (directoryPrefix (key p)) ↔
      ∃ r, r ≠ [] ∧ OrdinaryPath r ∧ k = key (p ++ r) ∧ m.overlay.entries k ≠ none := by
  rcases eq_or_ne p [] with rfl | hne
  · rw [key_nil, directoryPrefix, if_pos rfl, OverlayState.prefixKeys, if_pos rfl, hm.sorted.mem_iff]
    constructor
    · intro hentry
      obtain ⟨r, hr, hord, rfl⟩ := hm.path k hentry
      exact ⟨r, hr, hord, rfl, hentry⟩
    · rintro ⟨r, -, -, -, hentry⟩
      exact hentry
  · rw [directoryPrefix, if_neg ((key_eq_nil hp).not.mpr hne), lit_slash,
      OverlayState.prefixKeys_eq_filter hm.sorted.pairwise, List.mem_filter, hm.sorted.mem_iff, hasPrefix,
      List.isPrefixOf_iff_prefix]
    constructor
    · rintro ⟨hentry, hpre⟩
      obtain ⟨q, -, hq, rfl⟩ := hm.path k hentry
      obtain ⟨r, hr, rfl⟩ := (Segments.join_sep_prefix_iff hp.proper hq.proper hne).mp hpre
      exact ⟨r, hr, (ordinaryPath_append.mp hq).2, rfl, hentry⟩
    · rintro ⟨r, hr, -, rfl, hentry⟩
      refine ⟨hentry, ?_⟩
      rw [key_append_eq hne hr]
      exact List.prefix_append _ _

end Montygo.MountFs
