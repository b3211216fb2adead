import Montygo.MountFs.RenameView
import Montygo.Lib.FileTree

/-!
# An overlay mount refines a file tree

Over a plain host tree, what a mount shows is a file tree, and a call that succeeds is
a command on it.  `Refines` is the relation between the two: it holds the invariant
that makes the merge of overlay and host right, that every real path which an entry
hides has an entry of its own.  The calls that change one entry keep it by one lemma.
-/

namespace Montygo.MountFs

open Go Value Outcome

attribute [local simp] OverlayEntry.seen

/-- The trees that mounts are compared with. -/
abbrev Tree := FileTree.Tree GoString UInt8

/-- What an item of a tree shows. -/
def itemSeen : FileTree.Item UInt8 → Seen
  | .file content => .file content none
  | .dir => .dir

/-- The file tree a host directory is. -/
def Node.tree : Node → Tree
  | .file content _ _, [] => some (.file content)
  | .dir _ _ _, [] => some .dir
  | .dir children _ _, name :: rest =>
    match children.find? (·.1 = name) with
    | some child => child.2.tree rest
    | none => none
  | _, _ => none

variable {m m' : Mount} {host node : Node} {p q : Path} {vpath root : GoString} {now : Float64}
  {t : Tree} {e : OverlayEntry}

theorem Node.Plain.visibleAt_eq (h : node.Plain) :
    (node.visibleAt p).map Node.seen = (node.tree p).map itemSeen := by
  induction p generalizing node with
  | nil => cases h <;> rfl
  | cons name rest ih =>
    cases h with
    | file size => rfl
    | @dir children mtime names unique below =>
      cases hfind : children.find? (·.1 = name) with
      | none => simp [Node.visibleAt, Node.tree, Node.child, hfind]
      | some child =>
        have hchild := below child (List.mem_of_find?_eq_some hfind)
        have hih := ih hchild
        simp only [Node.visibleAt, Node.tree, Node.child, hfind]
        cases hnode : child.2 with
        | file content mtime refused =>
          rw [hnode] at hchild
          cases hchild
          cases rest <;> rfl
        | dir grandchildren mtime access =>
          rw [hnode] at hchild hih
          cases hchild
          exact hih
        | symlink | special =>
          rw [hnode] at hchild
          cases hchild

/-- A mount shows the tree `t`. -/
structure Refines (root : GoString) (host : Node) (m : Mount) (t : Tree) : Prop where
  root_eq : m.root.virtualPath = root
  canonical : m.Canonical
  covers : m.Covers host
  refs : m.RefsLead host
  tree : FileTree.WellFormed t
  ordinary : ∀ p, t p ≠ none → OrdinaryPath p
  view : ∀ p, OrdinaryPath p → m.view host p = (t p).map itemSeen

theorem itemSeen_injective : Function.Injective itemSeen := by
  intro a b h
  cases a <;> cases b <;> simp_all [itemSeen]

section Refines

variable (h : Refines root host m t)

include h

theorem Refines.view_eq_iff (hp : OrdinaryPath p) {x : Option (FileTree.Item UInt8)} :
    m.view host p = x.map itemSeen ↔ t p = x := by
  rw [h.view p hp]
  exact (Option.map_injective itemSeen_injective).eq_iff

theorem Refines.dir_iff (hp : OrdinaryPath p) : m.view host p = some .dir ↔ t p = some .dir :=
  h.view_eq_iff (x := some .dir) hp

theorem Refines.none_iff (hp : OrdinaryPath p) : m.view host p = none ↔ t p = none :=
  h.view_eq_iff (x := none) hp

theorem Refines.file_iff (hp : OrdinaryPath p) {content : Bytes} :
    m.view host p = some (.file content none) ↔ t p = some (.file content) :=
  h.view_eq_iff (x := some (.file content)) hp

end Refines

/-! ## One entry -/

/-- Every real path below `p` has an entry. -/
def Mount.Covered (m : Mount) (host : Node) (p : Path) : Prop :=
  ∀ q, q ≠ [] → OrdinaryPath (p ++ q) → host.visibleAt (p ++ q) ≠ none →
    m.overlay.entries (key (p ++ q)) ≠ none

theorem Mount.Covers.of_entry (h : m.Covers host) (hentry : m.overlay.entries (key p) ≠ none) :
    m.Covered host p := fun q _ hq hshown => h p q hq hentry hshown

/-- Nothing of the host is below a path that shows no directory, but what has entries. -/
theorem Mount.Covers.of_not_dir (h : m.Covers host) (hview : m.view host p ≠ some .dir) :
    m.Covered host p := by
  intro q hq hord hshown
  cases hentry : m.overlay.entries (key p) with
  | some entry => exact h p q hord (by simp [hentry]) hshown
  | none =>
    rw [view_of_none hentry] at hview
    rw [Node.visibleAt_append] at hshown
    have hsome : host.visibleAt p ≠ none := by
      intro hnone
      simp [hnone] at hshown
    obtain ⟨node, hnode⟩ := Option.ne_none_iff_exists'.mp hsome
    rw [hnode] at hview hshown
    have hdir : node.isDir = false := by
      by_contra hdir
      exact hview (by simp [seen_of_isDir (by simpa using hdir)])
    obtain ⟨name, rest, rfl⟩ := List.exists_cons_of_ne_nil hq
    exact absurd (by simp [Node.visibleAt, Node.child_of_not_isDir hdir]) hshown

/-- **One entry put at a path changes the tree at that path.** -/
theorem Refines.change (h : Refines root host m t) (m' : Mount) (hroot : m'.root = m.root)
    (hsorted : m'.overlay.Sorted) (hp : OrdinaryPath p) (hne : p ≠ [])
    (hentries : m'.overlay.entries = Function.update m.overlay.entries (key p) (some e))
    (href : e.kind ≠ .realFileRef) (hcovered : m.Covered host p)
    {x : Option (FileTree.Item UInt8)} (hseen : e.seen host = x.map itemSeen)
    (htree : FileTree.WellFormed (Function.update t p x)) :
    Refines root host m' (Function.update t p x) where
  root_eq := by rw [hroot, h.root_eq]
  canonical := by
    refine ⟨hsorted, fun k hk => ?_⟩
    by_cases hkey : k = key p
    · exact ⟨p, hne, hp, hkey⟩
    · rw [hentries, Function.update_of_ne hkey] at hk
      exact h.canonical.path k hk
  covers := by
    have hgrows : ∀ k, m.overlay.entries k ≠ none → m'.overlay.entries k ≠ none := by
      intro k hk
      rw [hentries]
      by_cases hkey : k = key p
      · simp [hkey]
      · rwa [Function.update_of_ne hkey]
    intro a q hord hentry hshown
    rcases eq_or_ne a p with rfl | ha
    · rcases eq_or_ne q [] with rfl | hq
      · simpa using hentry
      · exact hgrows _ (hcovered q hq hord hshown)
    · rw [hentries, Function.update_of_ne] at hentry
      · exact hgrows _ (h.covers a q hord hentry hshown)
      · exact fun hkey => ha ((key_inj (ordinaryPath_append.mp hord).1 hp).mp hkey)
  refs := by
    intro k entry hentry hkind
    by_cases hkey : k = key p
    · rw [hentries, hkey, Function.update_self] at hentry
      cases hentry
      exact absurd hkind href
    · rw [hentries, Function.update_of_ne hkey] at hentry
      exact h.refs k entry hentry hkind
  tree := htree
  ordinary := by
    intro a ha
    rcases eq_or_ne a p with rfl | hap
    · exact hp
    · rw [Function.update_of_ne hap] at ha
      exact h.ordinary a ha
  view := by
    intro a ha
    rcases eq_or_ne a p with rfl | hap
    · rw [view_of_entry (by rw [hentries, Function.update_self]), Function.update_self, hseen]
    have hkey : key a ≠ key p := fun hkey => hap ((key_inj ha hp).mp hkey)
    rw [Mount.view, hentries, Function.update_of_ne hkey, Function.update_of_ne hap]
    exact h.view a ha


theorem Refines.put (h : Refines root host m t) (hp : OrdinaryPath p) (hne : p ≠ [])
    (href : e.kind ≠ .realFileRef) (hcovered : m.Covered host p)
    {x : Option (FileTree.Item UInt8)} (hseen : e.seen host = x.map itemSeen)
    (htree : FileTree.WellFormed (Function.update t p x)) :
    Refines root host (m.put (key p) e) (Function.update t p x) :=
  h.change (m.put (key p) e) rfl h.canonical.sorted.insertUnchecked hp hne rfl href hcovered hseen
    htree

/-! ## Parents and targets -/

/-- Where `ensureParentExists` accepts, the directory that holds the path shows. -/
theorem ensureParentExists_eq_ok (hp : OrdinaryPath p) (hne : p ≠ [])
    (h : m.ensureParentExists host (key p) vpath = .ok ()) :
    ∃ q name, p = q ++ [name] ∧ (q ≠ [] → m.view host q = some .dir) := by
  obtain ⟨q, name, rfl⟩ := (List.eq_nil_or_concat' p).resolve_left hne
  refine ⟨q, name, rfl, fun hq => ?_⟩
  obtain ⟨hqord, hname⟩ := ordinaryPath_append.mp hp
  have hindex : lastIndexByte (key (q ++ [name])) slash = some (key q).length := by
    rw [key_snoc hq]
    exact lastIndexByte_append (hname name (by simp)).no_slash
  rw [Mount.ensureParentExists, hindex] at h
  have htake : (key (q ++ [name])).take (key q).length = key q := by
    rw [key_snoc hq, List.take_left]
  simp only [htake, split_key hqord hq] at h
  rw [← key_nil] at h
  have hloop := parentLoop_eq_ok walkedTo_start (by simpa using hqord) h q hq List.prefix_rfl
  simpa using hloop

/-- Where `rejectDirectoryTarget` accepts, no directory shows. -/
theorem rejectDirectoryTarget_eq_ok (hhost : host.isDir = true) (hp : OrdinaryPath p)
    (hrel : resolveVirtualPath vpath m.root.virtualPath = .ok (key p))
    (h : m.rejectDirectoryTarget host (key p) vpath = .ok ()) : m.view host p ≠ some .dir := by
  unfold Mount.rejectDirectoryTarget at h
  cases hentry : m.overlay.entries (key p) with
  | some entry =>
    rw [view_of_entry hentry]
    simp only [hentry] at h
    split at h
    · cases h
    · rename_i hkind
      exact mt seen_eq_dir_iff.mp hkind
  | none =>
    rw [view_of_none hentry]
    simp only [hentry, bind_eq_ok] at h
    obtain ⟨target, hreal, kind, hkind, h⟩ := h
    rw [(resolveReal_eq_ok hhost hp hrel hreal).1] at hkind
    have hshows := classifyTarget_shows hhost hp hrel hreal hkind
    cases kind with
    | dir | symlink => cases h
    | absent =>
      have hnone : host.visibleAt p = none := hshows
      simp [hnone]
    | file =>
      obtain ⟨node, hnode, hdir, -⟩ := hshows
      rw [hnode]
      cases node <;> simp_all [Node.seen, Node.isDir]

section Targets

variable (h : Refines root host m t) (hhost : host.isDir = true)

include h

theorem Refines.hasParent (hp : OrdinaryPath p) (hne : p ≠ [])
    (hparent : m.ensureParentExists host (key p) vpath = .ok ()) : FileTree.HasParent t p := by
  obtain ⟨q, name, rfl, hview⟩ := ensureParentExists_eq_ok hp hne hparent
  refine ⟨q, name, rfl, ?_⟩
  rcases eq_or_ne q [] with rfl | hq
  · exact h.tree.root
  · exact (h.dir_iff (ordinaryPath_append.mp hp).1).mp (hview hq)

theorem Refines.ne_nil_of_not_dir (hdir : t p ≠ some .dir) : p ≠ [] := by
  rintro rfl
  exact hdir h.tree.root

end Targets


/-! ## Writing -/

section Calls

variable (h : Refines root host m t) (hhost : host.isDir = true) (hplain : host.Plain)

/-- A call on one path did `c` to the tree, and `c` may succeed there. -/
def DoesTo (root : GoString) (host : Node) (m m' : Mount) (t : Tree) (vpath : GoString)
    (c : Path → FileTree.Command GoString UInt8) : Prop :=
  ∃ p, OrdinaryPath p ∧ resolveVirtualPath vpath m.root.virtualPath = .ok (key p) ∧
    FileTree.Allows t (c p) ∧ Refines root host m' (FileTree.apply t (c p))

include h

theorem Refines.putFile (m' : Mount) (hhost : host.isDir = true) (hp : OrdinaryPath p)
    (hrel : resolveVirtualPath vpath m.root.virtualPath = .ok (key p))
    (hparent : m.ensureParentExists host (key p) vpath = .ok ())
    (htarget : m.rejectDirectoryTarget host (key p) vpath = .ok ()) (hkind : e.kind = .file)
    (hroot : m'.root = m.root) (hsorted : m'.overlay.Sorted)
    (hentries : m'.overlay.entries = Function.update m.overlay.entries (key p) (some e)) :
    FileTree.HasParent t p ∧ t p ≠ some .dir ∧
      Refines root host m' (Function.update t p (some (.file e.content))) := by
  have hnotDir := rejectDirectoryTarget_eq_ok hhost hp hrel htarget
  have hdir : t p ≠ some .dir := mt (h.dir_iff hp).mpr hnotDir
  have hne := h.ne_nil_of_not_dir hdir
  have hhas := h.hasParent hp hne hparent
  refine ⟨hhas, hdir, h.change m' hroot hsorted hp hne hentries (by simp [hkind])
    (h.covers.of_not_dir hnotDir) ?_ (h.tree.update hhas (.inr fun q => h.tree.below hdir))⟩
  simp [hkind, itemSeen]

theorem Refines.write {data : Bytes} {result n : ℕ} (hhost : host.isDir = true)
    (hcall : overlayWrite host vpath data result now m = .ok n m') :
    DoesTo root host m m' t vpath (.write · data) := by
  obtain ⟨rel, s₁, hcheck, hcall⟩ := Fallible.bind_eq_ok.mp hcall
  obtain ⟨hchecks, rfl⟩ := Fallible.check_eq_ok.mp hcheck
  simp only [bind_eq_ok, pure_eq_ok] at hchecks
  obtain ⟨_, -, rel, hrel, _, hparent, _, htarget, _, -, rfl⟩ := hchecks
  obtain ⟨_, s₂, hinsert, hcall⟩ := Fallible.bind_eq_ok.mp hcall
  obtain ⟨_, s₃, hcommit, hcall⟩ := Fallible.bind_eq_ok.mp hcall
  obtain ⟨-, rfl⟩ := Fallible.pure_eq_ok.mp hcall
  obtain ⟨-, rfl⟩ := insertEntry_eq_ok.mp hinsert
  obtain ⟨p, hp, rfl⟩ := s₁.resolved hrel
  obtain ⟨hhas, hdir, hafter⟩ := h.putFile s₃ (e := fileEntry data now) hhost hp hrel hparent
    htarget rfl (by rw [commitBytes_root hcommit]; rfl)
    (by rw [commitBytes_overlay hcommit]; exact h.canonical.sorted.insertUnchecked)
    (by rw [commitBytes_overlay hcommit]; rfl)
  exact ⟨p, hp, hrel, ⟨hhas, hdir⟩, hafter⟩

omit h in
theorem resolveRealPathState_propagate (hhost : host.isDir = true) (hp : OrdinaryPath p)
    (hrel : resolveVirtualPath vpath m.root.virtualPath = .ok (key p)) {real : Option GoString}
    (hok : m.resolveRealPathState host vpath .propagate = .ok real) :
    real = (host.visibleAt p).map fun _ => dirOp (key p) := by
  unfold Mount.resolveRealPathState at hok
  cases hreal : m.resolveReal host vpath with
  | error err => simp [hreal] at hok
  | ok target =>
    obtain ⟨rfl, hstat, -, hseen⟩ := resolveReal_eq_ok hhost hp hrel hreal
    simp only [hreal, hstat] at hok
    cases hdescend : host.descend p with
    | ok node =>
      rw [hdescend] at hok
      rw [(hseen node).mpr hdescend, ← Except.ok.inj hok]
      rfl
    | error err =>
      simp only [hdescend, reduceCtorEq, or_false] at hok
      rw [visibleAt_of_descend_error hp hdescend]
      split at hok
      · exact (Except.ok.inj hok).symm
      · cases hok

theorem Refines.existingFileBytes {budget : MemoryBudget} {content : Bytes}
    (hhost : host.isDir = true) (hplain : host.Plain) (hp : OrdinaryPath p)
    (hrel : resolveVirtualPath vpath m.root.virtualPath = .ok (key p))
    (hok : m.existingFileBytes host (key p) vpath budget = .ok content) :
    content = FileTree.content t p := by
  have hview := h.view p hp
  have hfile : ∀ found, m.view host p = some (.file found none) → found = FileTree.content t p := by
    intro found hfound
    rw [FileTree.content, (h.file_iff hp).mp hfound]
  have hnone : m.view host p = none → [] = FileTree.content t p := by
    intro hnone
    rw [FileTree.content, (h.none_iff hp).mp hnone]
  unfold Mount.existingFileBytes at hok
  cases hentry : m.overlay.entries (key p) with
  | none =>
    rw [view_of_none hentry] at hfile hnone
    simp only [hentry, bind_eq_ok] at hok
    obtain ⟨real, hreal, hok⟩ := hok
    rw [resolveRealPathState_propagate hhost hp hrel hreal] at hok
    cases hshown : host.visibleAt p with
    | none =>
      simp only [hshown, Option.map_none, pure_eq_ok] at hok
      rw [← hok]
      exact hnone (by rw [hshown]; rfl)
    | some node =>
      rw [hshown] at hok
      have hread := (readFileLimited_plain vpath budget (stat_of_visibleAt hhost hp hshown)
        (hplain.visibleAt hshown)).of_ok hok
      exact hfile content (by rw [hshown, Option.map_some, hread])
  | some entry =>
    rw [view_of_entry hentry] at hfile hnone
    cases hkind : entry.kind with
    | file =>
      simp only [hentry, hkind, bind_eq_ok, pure_eq_ok] at hok
      obtain ⟨_, -, rfl⟩ := hok
      exact hfile entry.content (by simp [hkind])
    | realFileRef =>
      obtain ⟨found, mtime, hfound, hpath, hstat, hseen, -⟩ :=
        ref_resolves hhost hplain h.refs hentry hkind vpath
      simp only [hentry, hkind, hpath] at hok
      have hread := (readFileLimited_plain vpath budget hstat hfound).of_ok hok
      refine hfile content ?_
      rw [hseen]
      exact congrArg some hread
    | directory => simp [hentry, hkind] at hok
    | deleted =>
      simp only [hentry, hkind, Except.ok.injEq] at hok
      rw [← hok]
      exact hnone (by simp [hkind])

theorem Refines.append {data : Bytes} {u : Unit} (hhost : host.isDir = true) (hplain : host.Plain)
    (hcall : overlayAppend host vpath data now m = .ok u m') :
    DoesTo root host m m' t vpath (.append · data) := by
  obtain ⟨⟨rel, existingLen, charged⟩, s₁, hcheck, hcall⟩ := Fallible.bind_eq_ok.mp hcall
  obtain ⟨hchecks, rfl⟩ := Fallible.check_eq_ok.mp hcheck
  simp only [bind_eq_ok, pure_eq_ok] at hchecks
  obtain ⟨_, hrel, _, hparent, _, htarget, _, -, _, -, hpair⟩ := hchecks
  cases hpair
  obtain ⟨p, hp, rfl⟩ := s₁.resolved hrel
  obtain ⟨appended, s₂, happend, hcall⟩ := Fallible.bind_eq_ok.mp hcall
  cases appended with
  | true =>
    obtain ⟨entry, hentry, hkind, -, rfl⟩ := appendEntry_true happend
    have hcontent : FileTree.content t p = entry.content := by
      have hview : s₁.view host p = some (.file entry.content none) := by
        rw [view_of_entry hentry]
        simp [hkind]
      rw [FileTree.content, (h.file_iff hp).mp hview]
    obtain ⟨hhas, hdir, hafter⟩ := h.putFile m'
      (e := { entry with content := entry.content ++ data, mtime := now }) hhost hp hrel hparent
      htarget hkind (by rw [commitBytes_root hcall])
      (by
        rw [commitBytes_overlay hcall]
        exact h.canonical.sorted.replace (by simp [hentry]) _ _)
      (by
        rw [commitBytes_overlay hcall])
    refine ⟨p, hp, hrel, ⟨hhas, hdir⟩, ?_⟩
    rw [FileTree.apply, hcontent]
    exact hafter
  | false =>
    obtain rfl := appendEntry_false happend
    obtain ⟨content, s₃, hcontent, hcall⟩ := Fallible.bind_eq_ok.mp hcall
    obtain ⟨hpulled, rfl⟩ := Fallible.check_eq_ok.mp hcontent
    obtain ⟨_, s₄, hinsert, hcall⟩ := Fallible.bind_eq_ok.mp hcall
    obtain ⟨-, rfl⟩ := insertEntry_eq_ok.mp hinsert
    simp only [pulledContent, bind_eq_ok, pure_eq_ok] at hpulled
    obtain ⟨_, -, _, -, _, -, _, -, existing, hexisting, rfl⟩ := hpulled
    obtain ⟨hhas, hdir, hafter⟩ := h.putFile m'
      (e := fileEntry (existing ++ data) now) hhost hp hrel hparent htarget
      rfl (by rw [commitBytes_root hcall]; rfl)
      (by
        rw [commitBytes_overlay hcall]; exact h.canonical.sorted.insertUnchecked)
      (by
        rw [commitBytes_overlay hcall]; rfl)
    refine ⟨p, hp, hrel, ⟨hhas, hdir⟩, ?_⟩
    rw [FileTree.apply, ← h.existingFileBytes hhost hplain hp hrel hexisting]
    exact hafter

omit h in
theorem view_of_real_file (hplain : host.Plain) (hentry : m.overlay.entries (key p) = none)
    (hshown : host.visibleAt p = some node) (hdir : node.isDir = false) :
    ∃ content, m.view host p = some (.file content none) := by
  rw [view_of_none hentry, hshown]
  cases hplain.visibleAt hshown with
  | file size => exact ⟨_, rfl⟩
  | dir names unique below => cases hdir

theorem Refines.entry_file (hhost : host.isDir = true) (hplain : host.Plain)
    (hentry : m.overlay.entries (key p) = some e) (hkind : e.kind = .file ∨ e.kind = .realFileRef) :
    ∃ content, m.view host p = some (.file content none) := by
  rw [view_of_entry hentry]
  rcases hkind with hkind | hkind
  · exact ⟨e.content, by simp [hkind]⟩
  · obtain ⟨content, _, -, -, -, hseen, -⟩ := ref_resolves hhost hplain h.refs hentry hkind []
    exact ⟨content, hseen⟩

theorem Refines.touch {u : Unit} (hhost : host.isDir = true) (hplain : host.Plain)
    (hcall : ensureAppendTargetExists host vpath now m = .ok u m') :
    DoesTo root host m m' t vpath .touch := by
  obtain ⟨⟨rel, create⟩, s₁, hcheck, hcall⟩ := Fallible.bind_eq_ok.mp hcall
  obtain ⟨hchecks, rfl⟩ := Fallible.check_eq_ok.mp hcheck
  obtain ⟨_, hrel, hchecks⟩ := bind_eq_ok.mp hchecks
  obtain ⟨p, hp, rfl⟩ := s₁.resolved hrel
  have hfound : rel = key p ∧ if create then
      s₁.ensureParentExists host (key p) vpath = .ok () ∧ s₁.view host p = none
      else ∃ content, s₁.view host p = some (.file content none) := by
    cases hentry : s₁.overlay.entries (key p) with
    | some entry =>
      cases hkind : entry.kind with
      | file | realFileRef =>
        simp only [hentry, hkind, pure_eq_ok] at hchecks
        cases hchecks
        refine ⟨rfl, ?_⟩
        simpa using h.entry_file hhost hplain hentry (by simp [hkind])
      | directory => simp [hentry, hkind] at hchecks
      | deleted =>
        simp only [hentry, hkind, bind_eq_ok, pure_eq_ok] at hchecks
        obtain ⟨_, hparent, hpair⟩ := hchecks
        cases hpair
        refine ⟨rfl, hparent, ?_⟩
        rw [view_of_entry hentry]
        simp [hkind]
    | none =>
      simp only [hentry, bind_eq_ok] at hchecks
      obtain ⟨target, hreal, kind, hkind, hchecks⟩ := hchecks
      rw [(resolveReal_eq_ok hhost hp hrel hreal).1] at hkind
      have hshows := classifyTarget_shows hhost hp hrel hreal hkind
      cases kind with
      | dir | symlink => cases hchecks
      | file =>
        simp only [bind_eq_ok, pure_eq_ok] at hchecks
        obtain ⟨_, -, hpair⟩ := hchecks
        cases hpair
        obtain ⟨node, hnode, hdir, -⟩ := hshows
        refine ⟨rfl, ?_⟩
        simpa using view_of_real_file hplain hentry hnode hdir
      | absent =>
        simp only [bind_eq_ok, pure_eq_ok] at hchecks
        obtain ⟨_, hparent, hpair⟩ := hchecks
        cases hpair
        have hnone : host.visibleAt p = none := hshows
        refine ⟨rfl, hparent, ?_⟩
        rw [view_of_none hentry, hnone]
        rfl
  obtain ⟨rfl, hfound⟩ := hfound
  cases create with
  | false =>
    obtain ⟨content, hview⟩ := hfound
    obtain ⟨-, rfl⟩ := Fallible.pure_eq_ok.mp hcall
    have hfile := (h.file_iff hp).mp hview
    have hdir : t p ≠ some .dir := by simp [hfile]
    refine ⟨p, hp, hrel, ⟨h.tree.hasParent (h.ne_nil_of_not_dir hdir) (by simp [hfile]), hdir⟩, ?_⟩
    have hsame : FileTree.apply t (.touch p) = t := by
      rw [FileTree.apply, FileTree.content, hfile]
      simp only
      rw [← hfile, Function.update_eq_self]
    rw [hsame]
    exact h
  | true =>
    obtain ⟨hparent, hview⟩ := hfound
    obtain ⟨-, rfl⟩ := insertEntry_eq_ok.mp hcall
    have hnone := (h.none_iff hp).mp hview
    have hdir : t p ≠ some .dir := by simp [hnone]
    have hne := h.ne_nil_of_not_dir hdir
    have hhas := h.hasParent hp hne hparent
    refine ⟨p, hp, hrel, ⟨hhas, hdir⟩, ?_⟩
    rw [FileTree.apply, FileTree.content, hnone]
    exact h.put hp hne (by simp [fileEntry]) (h.covers.of_not_dir (by simp [hview])) rfl
      (h.tree.update hhas (.inr fun q => h.tree.below hdir))

/-- `open` for reading finds a file. -/
theorem Refines.openForReading (hhost : host.isDir = true) (hplain : host.Plain)
    (hok : openForReading host m vpath = .ok ()) : DoesTo root host m m t vpath .read := by
  obtain ⟨_, hrel, hok⟩ := bind_eq_ok.mp hok
  obtain ⟨p, hp, rfl⟩ := m.resolved hrel
  have hfile : ∃ content, m.view host p = some (.file content none) := by
    cases hentry : m.overlay.entries (key p) with
    | some entry =>
      cases hkind : entry.kind with
      | directory | deleted => simp [hentry, hkind] at hok
      | file | realFileRef => exact h.entry_file hhost hplain hentry (by simp [hkind])
    | none =>
      simp only [hentry, bind_eq_ok] at hok
      obtain ⟨real, hreal, hok⟩ := hok
      rw [resolveRealPathState_propagate hhost hp hrel hreal] at hok
      cases hshown : host.visibleAt p with
      | none => simp [hshown] at hok
      | some node =>
        simp only [hshown, Option.map_some, hostIsDir, stat_of_visibleAt hhost hp hshown] at hok
        refine view_of_real_file hplain hentry hshown ?_
        cases hdir : node.isDir with
        | false => rfl
        | true => simp [hdir] at hok
  obtain ⟨content, hview⟩ := hfile
  exact ⟨p, hp, hrel, ⟨content, (h.file_iff hp).mp hview⟩, h⟩

/-! ## Removing -/

theorem Refines.unlink {u : Unit} (hhost : host.isDir = true) (hplain : host.Plain)
    (hp : OrdinaryPath p) (hrel : resolveVirtualPath vpath m.root.virtualPath = .ok (key p))
    (hcall : overlayUnlink host (key p) vpath m = .ok u m') :
    FileTree.Allows t (.unlink p) ∧ Refines root host m' (FileTree.apply t (.unlink p)) := by
  obtain ⟨_, s₁, hcheck, hinsert⟩ := Fallible.bind_eq_ok.mp hcall
  obtain ⟨hok, rfl⟩ := Fallible.check_eq_ok.mp hcheck
  obtain ⟨-, rfl⟩ := insertEntry_eq_ok.mp hinsert
  have hfile : ∃ content, s₁.view host p = some (.file content none) := by
    unfold unlinkTarget at hok
    cases hentry : s₁.overlay.entries (key p) with
    | some entry =>
      cases hkind : entry.kind with
      | directory | deleted => simp [hentry, hkind] at hok
      | file | realFileRef => exact h.entry_file hhost hplain hentry (by simp [hkind])
    | none =>
      simp only [hentry, bind_eq_ok] at hok
      obtain ⟨_, -, target, hreal, kind, hkind, hok⟩ := hok
      rw [(resolveReal_eq_ok hhost hp hrel hreal).1] at hkind
      have hshows := classifyTarget_shows hhost hp hrel hreal hkind
      cases kind with
      | dir | symlink | absent => cases hok
      | file =>
        obtain ⟨node, hnode, hdir, -⟩ := hshows
        exact view_of_real_file hplain hentry hnode hdir
  obtain ⟨content, hview⟩ := hfile
  have hallows : FileTree.Allows t (.unlink p) := ⟨content, (h.file_iff hp).mp hview⟩
  have hne : p ≠ [] := h.ne_nil_of_not_dir (by rw [(h.file_iff hp).mp hview]; simp)
  exact ⟨hallows, h.put hp hne (by simp [deletedEntry]) (h.covers.of_not_dir (by simp [hview])) rfl
    (h.tree.apply hallows)⟩

end Calls


/-! ## Empty directories -/

section Empty

variable (h : Refines root host m t)

omit h in
theorem directoryPrefix_append (hp : OrdinaryPath p) (name : GoString) :
    directoryPrefix (key p) ++ name = key (p ++ [name]) := by
  rcases eq_or_ne p [] with rfl | hne
  · simp [directoryPrefix]
  · rw [directoryPrefix, if_neg ((key_eq_nil hp).not.mpr hne), key_snoc hne, lit_slash]
    simp

include h

theorem Refines.covered_of_real (hhost : host.isDir = true) (hplain : host.Plain)
    (hp : OrdinaryPath p) (hshown : host.visibleAt p = some node)
    (hvisible : m.realDirectoryHasVisibleChildren host (key p) (dirOp (key p)) vpath = .ok false) :
    m.Covered host p := by
  intro q hq hord hbelow
  obtain ⟨name, rest, rfl⟩ := List.exists_cons_of_ne_nil hq
  have hsplit : p ++ name :: rest = p ++ [name] ++ rest := by simp
  rw [hsplit] at hord hbelow ⊢
  have hname : host.visibleAt (p ++ [name]) ≠ none := by
    intro hnone
    rw [Node.visibleAt_append, hnone] at hbelow
    exact hbelow rfl
  refine h.covers (p ++ [name]) rest hord ?_ hbelow
  rw [Node.visibleAt_append, hshown, Option.bind_some] at hname
  have hnode := hplain.visibleAt hshown
  cases hnode with
  | file size => simp [Node.visibleAt, Node.child] at hname
  | @dir children mtime names unique below =>
    have hmem := (mem_names_iff (.dir names unique below)).mpr hname
    obtain ⟨child, hchild, rfl⟩ := List.mem_map.mp hmem
    simp only [Mount.realDirectoryHasVisibleChildren, openDir, stat_of_visibleAt hhost hp hshown,
      Except.ok.injEq, List.any_eq_false] at hvisible
    have hentry := hvisible child hchild
    rw [lossyUTF8_of_validString (names child hchild).2, directoryPrefix_append hp] at hentry
    intro hnone
    simp [hnone] at hentry

theorem Refines.empty (hp : OrdinaryPath p) (hcovered : m.Covered host p)
    (hnone : m.overlayDirectoryHasChildren (key p) = false) (name : GoString) :
    t (p ++ [name]) = none := by
  by_contra hthere
  have hord := h.ordinary _ hthere
  have hview := mt (h.none_iff hord).mp hthere
  rw [Mount.overlayDirectoryHasChildren, List.any_eq_false] at hnone
  rcases view_ne_none_iff.mp hview with hentry | ⟨hentry, hshown⟩
  · have hmem : key (p ++ [name]) ∈ m.overlay.prefixKeys (directoryPrefix (key p)) := by
      refine (mem_prefixKeys h.canonical hp).mpr
        ⟨[name], by simp, (ordinaryPath_append.mp hord).2, rfl, ?_⟩
      intro hnone
      simp [hnone] at hentry
    refine hnone _ hmem ?_
    have hne : key (p ++ [name]) ≠ key p := by
      rw [Ne, key_inj hord hp]
      simp
    rw [Bool.and_eq_true]
    exact ⟨by simpa using hne, hentry⟩
  · exact hcovered [name] (by simp) hord hshown hentry

theorem Refines.rmdir {u : Unit} (hhost : host.isDir = true) (hplain : host.Plain)
    (hp : OrdinaryPath p) (hrel : resolveVirtualPath vpath m.root.virtualPath = .ok (key p))
    (hcall : overlayRmdir host (key p) vpath m = .ok u m') :
    FileTree.Allows t (.rmdir p) ∧ Refines root host m' (FileTree.apply t (.rmdir p)) := by
  obtain ⟨_, s₁, hcheck, hinsert⟩ := Fallible.bind_eq_ok.mp hcall
  obtain ⟨hok, rfl⟩ := Fallible.check_eq_ok.mp hcheck
  obtain ⟨-, rfl⟩ := insertEntry_eq_ok.mp hinsert
  have hfound : p ≠ [] ∧ s₁.view host p = some .dir ∧ s₁.Covered host p ∧
      s₁.overlayDirectoryHasChildren (key p) = false := by
    unfold rmdirTarget at hok
    split at hok
    · cases hok
    rename_i hne
    refine ⟨(key_eq_nil hp).not.mp hne, ?_⟩
    cases hentry : s₁.overlay.entries (key p) with
    | some entry =>
      rw [view_of_entry hentry, seen_eq_dir_iff]
      cases hkind : entry.kind with
      | file | realFileRef | deleted => simp [hentry, hkind] at hok
      | directory =>
        simp only [hentry, hkind] at hok
        split at hok
        · cases hok
        · rename_i hchildren
          exact ⟨rfl, h.covers.of_entry (by simp [hentry]), by simpa using hchildren⟩
    | none =>
      rw [view_of_none hentry]
      simp only [hentry, bind_eq_ok] at hok
      obtain ⟨_, -, target, hreal, hok⟩ := hok
      obtain ⟨rfl, hstat, -, hseen⟩ := resolveReal_eq_ok hhost hp hrel hreal
      cases hdescend : host.descend p with
      | error err =>
        rw [hdescend] at hstat
        simp [hostIsDir, hostExists, hstat] at hok
      | ok node =>
        rw [hdescend] at hstat
        have hshown := (hseen node).mpr hdescend
        cases hdir : node.isDir with
        | false => simp [hostIsDir, hostExists, hstat, hdir] at hok
        | true =>
          simp only [hostIsDir, hstat, hdir, Bool.not_true, Bool.false_eq_true, if_false,
            bind_eq_ok] at hok
          obtain ⟨visible, hvisible, hok⟩ := hok
          split at hok
          · cases hok
          rename_i hnone
          rw [Bool.or_eq_true, not_or, Bool.not_eq_true, Bool.not_eq_true] at hnone
          rw [hnone.1] at hvisible
          exact ⟨by rw [hshown, Option.map_some, seen_of_isDir hdir],
            h.covered_of_real hhost hplain hp hshown hvisible, hnone.2⟩
  obtain ⟨hne, hview, hcovered, hchildren⟩ := hfound
  have hallows : FileTree.Allows t (.rmdir p) :=
    ⟨hne, (h.dir_iff hp).mp hview, h.empty hp hcovered hchildren⟩
  exact ⟨hallows, h.put hp hne (by simp [deletedEntry]) hcovered rfl (h.tree.apply hallows)⟩

end Empty


/-! ## Making directories -/

/-- `mkdir` accepts what is there only with `existOK`. -/
theorem mkdirTarget_true {rel : GoString} {existOK : Bool}
    (h : mkdirTarget host m rel existOK vpath = .ok true) : existOK = true := by
  cases existOK with
  | true => rfl
  | false =>
    unfold mkdirTarget at h
    cases hentry : m.overlay.entries rel with
    | some entry => cases hkind : entry.kind <;> simp [hentry, hkind] at h
    | none =>
      simp only [hentry, bind_eq_ok] at h
      obtain ⟨_, -, kind, -, h⟩ := h
      cases kind <;> simp at h

theorem missingFrom_append {names more : List GoString} : m.missingFrom host p (names ++ more) =
      m.missingFrom host p names ++ m.missingFrom host (p ++ names) more := by
  induction names generalizing p with
  | nil => simp [Mount.missingFrom]
  | cons name rest ih => simp [Mount.missingFrom, ih]

section Mkdir

variable (h : Refines root host m t)

include h

theorem Refines.clearTo (hp : OrdinaryPath p) (hclear : m.ClearFrom host [] p) :
    FileTree.ClearTo t p := by
  intro q hpre
  rcases eq_or_ne q [] with rfl | hq
  · exact .inr h.tree.root
  · have hord : OrdinaryPath q := fun x hx => hp x (hpre.subset hx)
    exact (hclear q hq hpre).imp (h.none_iff hord).mp (h.dir_iff hord).mp

theorem Refines.makeDirs (hp : OrdinaryPath p) (hclear : m.ClearFrom host [] p) :
    Refines root host (m.addDirectories now (m.missingFrom host [] p)) (FileTree.makeDirs t p) := by
  induction p using List.reverseRecOn with
  | nil =>
    rw [h.tree.makeDirs_eq (by simp [h.tree.root])]
    exact h
  | append_singleton q name ih =>
    have hq : OrdinaryPath q := (ordinaryPath_append.mp hp).1
    have hclearq : m.ClearFrom host [] q := fun r hr hpre =>
      hclear r hr (hpre.trans (List.prefix_append _ _))
    have hih := ih hq hclearq
    rw [FileTree.makeDirs_snoc, missingFrom_append, List.nil_append]
    have hbelow : ¬ q ++ [name] <+: q := by
      intro hpre
      have hle := hpre.length_le
      rw [List.length_append, List.length_singleton] at hle
      omega
    have hlast := hclear (q ++ [name]) (by simp) List.prefix_rfl
    rw [List.nil_append] at hlast
    rcases hlast with hnone | hdir
    · have hfree : t (q ++ [name]) = none := (h.none_iff hp).mp hnone
      have hfree' : FileTree.makeDirs t q (q ++ [name]) = none := by
        rw [FileTree.makeDirs, if_neg hbelow, hfree]
      have hmissing : m.missingFrom host q [name] = [q ++ [name]] := by
        rw [Mount.missingFrom, if_pos hnone]
        rfl
      have hparent : FileTree.HasParent (FileTree.makeDirs t q) (q ++ [name]) := by
        refine ⟨q, name, rfl, ?_⟩
        rw [FileTree.makeDirs, if_pos List.prefix_rfl]
        rcases h.clearTo hq hclearq q List.prefix_rfl with htq | htq <;> simp [htq]
      rw [hfree, hmissing, Mount.addDirectories, List.foldl_append]
      refine hih.put hp (by simp) (by simp [directoryEntry]) ?_ rfl
        (hih.tree.update hparent (.inl rfl))
      refine hih.covers.of_not_dir (mt (hih.dir_iff hp).mp ?_)
      simp [hfree']
    · have hthere : t (q ++ [name]) = some .dir := (h.dir_iff hp).mp hdir
      have hmissing : m.missingFrom host q [name] = [] := by
        rw [Mount.missingFrom, if_neg (by simp [hdir])]
        rfl
      have hsame : FileTree.makeDirs t q (q ++ [name]) = some .dir := by
        rw [FileTree.makeDirs, if_neg hbelow, hthere]
      rw [hmissing, List.append_nil, hthere, Option.getD_some, ← hsame, Function.update_eq_self]
      exact hih

theorem Refines.mkdir {u : Unit} {parents existOK : Bool} (hhost : host.isDir = true)
    (hp : OrdinaryPath p) (hrel : resolveVirtualPath vpath m.root.virtualPath = .ok (key p))
    (hcall : overlayMkdir host (key p) parents existOK vpath now m = .ok u m') :
    FileTree.Allows t (.mkdir p parents existOK) ∧
      Refines root host m' (FileTree.apply t (.mkdir p parents existOK)) := by
  obtain ⟨done, s₁, hcheck, hrest⟩ := Fallible.bind_eq_ok.mp hcall
  obtain ⟨htarget, rfl⟩ := Fallible.check_eq_ok.mp hcheck
  have hview := mkdirTarget_eq_ok hhost hp hrel htarget
  cases done with
  | true =>
    obtain ⟨-, rfl⟩ := Fallible.pure_eq_ok.mp hrest
    have hdir := (h.dir_iff hp).mp hview
    have hsame : FileTree.apply t (.mkdir p parents existOK) = t := by
      cases parents with
      | true => exact h.tree.makeDirs_eq (by simp [hdir])
      | false =>
        rw [FileTree.apply, if_neg (by simp), ← hdir, Function.update_eq_self]
    rw [hsame]
    exact ⟨.inl ⟨mkdirTarget_true htarget, hdir⟩, h⟩
  | false =>
    have hnone := (h.none_iff hp).mp hview
    have hne : p ≠ [] := h.ne_nil_of_not_dir (by simp [hnone])
    cases parents with
    | false =>
      obtain ⟨_, s₂, hcheck, hinsert⟩ := Fallible.bind_eq_ok.mp hrest
      obtain ⟨hparent, rfl⟩ := Fallible.check_eq_ok.mp hcheck
      obtain ⟨-, rfl⟩ := insertEntry_eq_ok.mp hinsert
      have hhas := h.hasParent hp hne hparent
      exact ⟨.inr ⟨hnone, hhas⟩, h.put hp hne (by simp [directoryEntry])
        (h.covers.of_not_dir (by rw [hview]; simp)) rfl (h.tree.update hhas (.inl rfl))⟩
    | true =>
      obtain ⟨_, s₂, hloop, hinsert⟩ := Fallible.bind_eq_ok.mp hrest
      rw [createOverlayParents, split_key hp hne, ← key_nil] at hloop
      obtain ⟨hclear, hs₂⟩ := createLoop_eq_ok walkedTo_start (by simpa using hp) hloop
      have hagain := createLoop_target walkedTo_start (by simpa using hp) hne hview hloop
      rw [List.nil_append] at hagain
      have hm' : m' = s₂ := by
        have := hinsert.symm.trans hagain
        cases this
        rfl
      rw [hm', hs₂]
      exact ⟨.inr ⟨hnone, h.clearTo hp hclear⟩, h.makeDirs hp hclear⟩

end Mkdir

end Montygo.MountFs
