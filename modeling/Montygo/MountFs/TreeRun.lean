import Montygo.MountFs.RenameRefinement

/-!
# Runs of an overlay mount are runs of a file tree

The calls of a mount as commands on the tree it shows.  In every run over a plain host,
whatever the calls and their paths are, the looking calls see a file tree that starts as
the host tree and is changed by the commands of the calls that succeed, and by nothing
else but the ancestors that a failed `mkdir` with `parents` has made.  The host is a
parameter of every call and no call returns one: the mount does not write to it.
-/

namespace Montygo.MountFs

open Go Value Fallible Transition

/-! ## Calls as commands -/

/-- The path a mount-relative key spells. -/
def pathOf (rel : GoString) : Path := if rel = [] then [] else split rel

/-- The path of a call below the mount root. -/
def targetOf (root vpath : GoString) : Option Path :=
  match resolveVirtualPath vpath root with
  | .ok rel => some (pathOf rel)
  | .error _ => none

/-- What a call asks of the tree; nothing when its path does not resolve. -/
def OsCall.command (root : GoString) : OsCall → Option (FileTree.Command GoString UInt8)
  | .exists _ | .isFile _ | .isDir _ | .isSymlink _ | .readText _ | .readBytes _ | .stat _
  | .iterdir _ | .resolve _ | .absolute _ => some .keep
  | .writeText path content | .writeBytes path content =>
    (targetOf root path).map (.write · content)
  | .appendText path content | .appendBytes path content =>
    (targetOf root path).map (.append · content)
  | .open path mode =>
    match mode.action with
    | .read => (targetOf root path).map .read
    | .write => (targetOf root path).map (.write · [])
    | .append => (targetOf root path).map .touch
  | .mkdir path parents existOK => (targetOf root path).map (.mkdir · parents existOK)
  | .unlink path => (targetOf root path).map .unlink
  | .rmdir path => (targetOf root path).map .rmdir
  | .rename path dst =>
    match targetOf root path, targetOf root dst with
    | some src, some dst => some (.rename src dst)
    | _, _ => none

variable {m m' : Mount} {host : Node} {p : Path} {vpath root : GoString} {now : Float64} {t : Tree}

theorem pathOf_key (hp : OrdinaryPath p) : pathOf (key p) = p := by
  rcases eq_or_ne p [] with rfl | hne
  · rfl
  · rw [pathOf, if_neg ((key_eq_nil hp).not.mpr hne), split_key hp hne]

theorem targetOf_eq (hp : OrdinaryPath p) (hrel : resolveVirtualPath vpath root = .ok (key p)) :
    targetOf root vpath = some p := by
  simp only [targetOf, hrel, pathOf_key hp]

theorem DoesTo.command (h : Refines root host m t) {c : Path → FileTree.Command GoString UInt8}
    (hdoes : DoesTo root host m m' t vpath c) :
    ∃ cmd, (targetOf root vpath).map c = some cmd ∧ FileTree.Allows t cmd ∧
      Refines root host m' (FileTree.apply t cmd) := by
  obtain ⟨p, hp, hrel, hallows, hafter⟩ := hdoes
  rw [h.root_eq] at hrel
  exact ⟨c p, by rw [targetOf_eq hp hrel]; rfl, hallows, hafter⟩

variable {α : Type} {g : GoString → Mount → Except MountError α} {result : α → OsResult}
  {r : OsResult}

private theorem ok_look (h : (overlayOnPath vpath fun rel => do
      let a ← check (g rel)
      pure (result a)) m = .ok r m') : m' = m := by
  obtain ⟨_, s₁, hresolve, hlook⟩ := bind_eq_ok.mp h
  obtain ⟨_, s₂, hcheck, hpure⟩ := bind_eq_ok.mp hlook
  rw [← (pure_eq_ok.mp hpure).2, (check_eq_ok.mp hcheck).2, (check_eq_ok.mp hresolve).2]

private theorem ok_onPath {f : GoString → MountM Unit} (h : (overlayOnPath vpath fun rel => do
      f rel
      pure .none) m = .ok r m') :
    ∃ p u, OrdinaryPath p ∧ resolveVirtualPath vpath m.root.virtualPath = .ok (key p) ∧
      f (key p) m = .ok u m' := by
  obtain ⟨rel, s₁, hresolve, hrest⟩ := bind_eq_ok.mp h
  obtain ⟨hrel, rfl⟩ := check_eq_ok.mp hresolve
  obtain ⟨u, s₂, hf, hpure⟩ := bind_eq_ok.mp hrest
  obtain ⟨-, rfl⟩ := pure_eq_ok.mp hpure
  obtain ⟨p, hp, rfl⟩ := s₁.resolved hrel
  exact ⟨p, u, hp, hrel, hf⟩

private theorem ok_result {x : MountM α} (h : (x >>= fun a => pure (result a)) m = .ok r m') :
    ∃ a, x m = .ok a m' := by
  obtain ⟨a, s₁, hx, hpure⟩ := bind_eq_ok.mp h
  obtain ⟨-, rfl⟩ := pure_eq_ok.mp hpure
  exact ⟨a, hx⟩

section Step

variable (h : Refines root host m t) (hhost : host.isDir = true) (hplain : host.Plain)

include h hhost hplain

/-- **A call that succeeds is a command that the tree allows.** -/
theorem Refines.succeeds {call : OsCall} {r : OsResult}
    (hcall : overlayExecute host call now m = .ok r m') :
    ∃ c, call.command root = some c ∧ FileTree.Allows t c ∧
      Refines root host m' (FileTree.apply t c) := by
  cases call with
  | resolve path | absolute path =>
    obtain ⟨-, rfl⟩ := pure_eq_ok.mp hcall
    exact ⟨.keep, rfl, trivial, h⟩
  | «exists» path | isFile path | isDir path | isSymlink path | readText path | readBytes path
  | stat path | iterdir path =>
    rw [ok_look hcall]
    exact ⟨.keep, rfl, trivial, h⟩
  | writeText path content | writeBytes path content =>
    obtain ⟨_, hwrite⟩ := ok_result hcall
    exact (h.write hhost hwrite).command h
  | appendText path content | appendBytes path content =>
    obtain ⟨_, happend⟩ := ok_result hcall
    exact (h.append hhost hplain happend).command h
  | «open» path mode =>
    have hopen : overlayOpen host path mode now m = .ok r m' := hcall
    unfold overlayOpen at hopen
    simp only [OsCall.command]
    cases hmode : mode.action <;> rw [hmode] at hopen
    · obtain ⟨_, hread⟩ := ok_result hopen
      obtain ⟨hread, rfl⟩ := check_eq_ok.mp hread
      exact (h.openForReading hhost hplain hread).command h
    · obtain ⟨_, s₁, hwrite, hpure⟩ := bind_eq_ok.mp hopen
      obtain ⟨-, rfl⟩ := pure_eq_ok.mp hpure
      exact (h.write hhost hwrite).command h
    · obtain ⟨_, htouch⟩ := ok_result hopen
      exact (h.touch hhost hplain htouch).command h
  | mkdir path parents existOK =>
    obtain ⟨p, _, hp, hrel, hmkdir⟩ := ok_onPath hcall
    exact DoesTo.command (c := (.mkdir · parents existOK)) h
      ⟨p, hp, hrel, h.mkdir hhost hp hrel hmkdir⟩
  | unlink path =>
    obtain ⟨p, _, hp, hrel, hunlink⟩ := ok_onPath hcall
    exact DoesTo.command h ⟨p, hp, hrel, h.unlink hhost hplain hp hrel hunlink⟩
  | rmdir path =>
    obtain ⟨p, _, hp, hrel, hrmdir⟩ := ok_onPath hcall
    exact DoesTo.command h ⟨p, hp, hrel, h.rmdir hhost hplain hp hrel hrmdir⟩
  | rename path dst =>
    obtain ⟨_, hrename⟩ := ok_result hcall
    obtain ⟨src, dst', hsrc, hdst, hsrcRel, hdstRel, hallows, hafter⟩ :=
      h.rename hhost hplain hrename
    rw [h.root_eq] at hsrcRel hdstRel
    refine ⟨.rename src dst', ?_, hallows, hafter⟩
    rw [OsCall.command, targetOf_eq hsrc hsrcRel, targetOf_eq hdst hdstRel]

end Step

/-- A call that fails leaves the tree, or has made ancestors of the target of a `mkdir`. -/
theorem Refines.fails (h : Refines root host m t) (hhost : host.isDir = true) {call : OsCall}
    {e : MountError} (hcall : overlayExecute host call now m = .error e m') :
    ∃ t', FileTree.Step t (call.command root, false) t' ∧ Refines root host m' t' := by
  rcases overlayExecute_eq_error hhost hcall with rfl | ⟨path, existOK, target, j, rfl, htarget,
    hrel, hj, hclear, rfl⟩
  · exact ⟨t, .fails, h⟩
  have hbefore : OrdinaryPath (target.take j) := fun x hx => htarget x (List.mem_of_mem_take hx)
  have hne : target.take j ≠ target := by
    intro heq
    have := congrArg List.length heq
    rw [List.length_take] at this
    omega
  rw [h.root_eq] at hrel
  refine ⟨_, ?_, h.makeDirs hbefore hclear⟩
  rw [OsCall.command, targetOf_eq htarget hrel]
  exact .halfway (List.take_prefix j target) hne (h.clearTo hbefore hclear)

/-! ## The first tree -/

theorem Node.Plain.ordinary {node : Node} (h : node.Plain) (hthere : node.tree p ≠ none) :
    OrdinaryPath p := by
  induction p generalizing node with
  | nil => simp [OrdinaryPath]
  | cons name rest ih =>
    cases h with
    | file size => exact absurd rfl hthere
    | @dir children mtime names unique below =>
      cases hfind : children.find? (·.1 = name) with
      | none => simp [Node.tree, hfind] at hthere
      | some child =>
        have hmem := List.mem_of_find?_eq_some hfind
        have hname : child.1 = name := by simpa using List.find?_some hfind
        simp only [Node.tree, hfind] at hthere
        intro x hx
        rcases List.mem_cons.mp hx with rfl | hx
        · rw [← hname]
          exact (names child hmem).1
        · exact ih (below child hmem) hthere x hx

theorem refines_newMount (hhost : host.isDir = true) (hplain : host.Plain) (root : Root)
    (writeLimit : Option UInt64) (memLimit : UInt64) :
    Refines root.virtualPath host (newMount root writeLimit memLimit) host.tree := by
  have hview : ∀ p, (newMount root writeLimit memLimit).view host p =
      (host.tree p).map itemSeen := by
    intro p
    rw [view_of_none rfl, hplain.visibleAt_eq]
  have hroot : host.tree [] = some .dir := by
    cases hplain with
    | file size => cases hhost
    | dir names unique below => rfl
  refine ⟨rfl, canonical_newMount _ _ _, fun _ _ _ hentry _ => absurd rfl hentry, ?_,
    ⟨hroot, ?_⟩, fun p => hplain.ordinary, fun p _ => hview p⟩
  · intro k entry hentry
    cases hentry
  · intro p name hthere
    have hbelow : host.visibleAt (p ++ [name]) ≠ none := by
      intro hnone
      have heq := hplain.visibleAt_eq (p := p ++ [name])
      rw [hnone] at heq
      exact hthere (Option.map_eq_none_iff.mp heq.symm)
    rw [Node.visibleAt_append] at hbelow
    obtain ⟨node, hnode⟩ := Option.ne_none_iff_exists'.mp (mt (congrArg (Option.bind · _)) hbelow)
    rw [hnode] at hbelow
    have hdir : node.isDir = true := by
      by_contra hfile
      refine hbelow ?_
      simp [Node.visibleAt, Node.child_of_not_isDir (by simpa using hfile)]
    have heq := hplain.visibleAt_eq (p := p)
    rw [hnode, Option.map_some, seen_of_isDir hdir] at heq
    exact Option.map_injective itemSeen_injective heq.symm

/-! ## What the looking calls see -/

/-- A looking call leaves the mount as it is.  What it returns is `right`, and unless a limit
stopped it it fails only when `missing`. -/
def Answers (result : EStateM.Result MountError Mount OsResult) (m : Mount)
    (right : OsResult → Prop) (missing : Prop) : Prop :=
  match result with
  | .ok r m' => m' = m ∧ right r
  | .error e m' => m' = m ∧ (e.isLimit = true ∨ missing)

/-- The looking calls see the tree `t`. -/
structure Mount.LooksLike (m : Mount) (host : Node) (t : Tree) : Prop where
  exists_eq : ∀ vpath p now, targetOf m.root.virtualPath vpath = some p →
    overlayExecute host (.exists vpath) now m = .ok (.bool (t p).isSome) m
  isFile_eq : ∀ vpath p now, targetOf m.root.virtualPath vpath = some p →
    overlayExecute host (.isFile vpath) now m = .ok (.bool ((t p).any FileTree.Item.isFile)) m
  isDir_eq : ∀ vpath p now, targetOf m.root.virtualPath vpath = some p →
    overlayExecute host (.isDir vpath) now m = .ok (.bool (decide (t p = some .dir))) m
  readBytes : ∀ vpath p now, targetOf m.root.virtualPath vpath = some p →
    Answers (overlayExecute host (.readBytes vpath) now m) m
      (fun r => ∃ content, t p = some (.file content) ∧ r = .bytes content)
      (∀ content, t p ≠ some (.file content))
  readText : ∀ vpath p now, targetOf m.root.virtualPath vpath = some p →
    Answers (overlayExecute host (.readText vpath) now m) m
      (fun r => ∃ content, t p = some (.file content) ∧ r = .text content)
      (∀ content, t p = some (.file content) → validString content = false)
  stat : ∀ vpath p now, targetOf m.root.virtualPath vpath = some p →
    Answers (overlayExecute host (.stat vpath) now m) m
      (fun r => (∃ content mtime, t p = some (.file content) ∧
          r = .stat (fileStat content.length mtime)) ∨
        ∃ mtime, t p = some .dir ∧ r = .stat (dirStat mtime))
      (t p = none)
  iterdir : ∀ vpath p now, targetOf m.root.virtualPath vpath = some p →
    Answers (overlayExecute host (.iterdir vpath) now m) m
      (fun r => t p = some .dir ∧ ∃ names : List GoString,
        r = .paths (names.map (formatChildPath vpath)) ∧ names.Nodup ∧
        ∀ name, name ∈ names ↔ t (p ++ [name]) ≠ none)
      (t p ≠ some .dir)

theorem targetOf_eq_some (h : targetOf m.root.virtualPath vpath = some p) :
    OrdinaryPath p ∧ resolveVirtualPath vpath m.root.virtualPath = .ok (key p) := by
  unfold targetOf at h
  split at h
  · rename_i rel hrel
    obtain ⟨q, hq, rfl⟩ := m.resolved hrel
    rw [pathOf_key hq] at h
    cases h
    exact ⟨hq, hrel⟩
  · cases h

private theorem answers_look (hrel : resolveVirtualPath vpath m.root.virtualPath = .ok (key p))
    {right : OsResult → Prop} {missing : Prop}
    (htells : Tells (g (key p) m) (fun a => right (result a)) missing) :
    Answers ((overlayOnPath vpath fun rel => do
      let a ← check (g rel)
      pure (result a)) m) m right missing := by
  rw [overlayOnPath_of_resolve hrel]
  cases hlook : g (key p) m with
  | ok a =>
    rw [hlook] at htells
    simp only [bind, EStateM.bind, check, hlook, Answers]
    exact ⟨rfl, htells⟩
  | error e =>
    rw [hlook] at htells
    simp only [bind, EStateM.bind, check, hlook, Answers]
    exact ⟨trivial, htells⟩

private theorem look_eq_ok {a : α}
    (hrel : resolveVirtualPath vpath m.root.virtualPath = .ok (key p)) (h : g (key p) m = .ok a) :
    (overlayOnPath vpath fun rel => do
      let a ← check (g rel)
      pure (result a)) m = .ok (result a) m := by
  rw [overlayOnPath_of_resolve hrel]
  simp only [bind, EStateM.bind, check, h, pure, EStateM.pure]

/-- **A mount that refines a tree looks like it.** -/
theorem Refines.looksLike (h : Refines root host m t) (hhost : host.isDir = true)
    (hplain : host.Plain) : m.LooksLike host t where
  exists_eq := by
    intro vpath p now htarget
    obtain ⟨hp, hrel⟩ := targetOf_eq_some htarget
    rw [overlayExecute_exists hhost hp hrel, h.view p hp, Option.isSome_map]
  isFile_eq := by
    intro vpath p now htarget
    obtain ⟨hp, hrel⟩ := targetOf_eq_some htarget
    have hview : (m.view host p).any Seen.isFile = (t p).any FileTree.Item.isFile := by
      rw [h.view p hp]
      cases t p with
      | none => rfl
      | some x => cases x <;> rfl
    rw [← hview]
    exact look_eq_ok hrel (overlayPredicate_isFile hhost hp hrel)
  isDir_eq := by
    intro vpath p now htarget
    obtain ⟨hp, hrel⟩ := targetOf_eq_some htarget
    have hview : (m.view host p).any Seen.isDir = decide (t p = some .dir) := by
      rw [h.view p hp]
      cases t p with
      | none => rfl
      | some x => cases x <;> rfl
    rw [← hview]
    exact look_eq_ok hrel (overlayPredicate_isDir hhost hp hrel)
  readBytes := by
    intro vpath p now htarget
    obtain ⟨hp, hrel⟩ := targetOf_eq_some htarget
    refine answers_look hrel ((overlayRead_view hhost hplain h.refs hp hrel).mono ?_ ?_)
    · intro content hview
      exact ⟨content, (h.file_iff hp).mp hview, rfl⟩
    · intro hnot content hfile
      exact hnot content ((h.file_iff hp).mpr hfile)
  readText := by
    intro vpath p now htarget
    obtain ⟨hp, hrel⟩ := targetOf_eq_some htarget
    refine answers_look hrel ?_
    have hread := overlayRead_view hhost hplain h.refs hp hrel
    cases hok : overlayRead m host (key p) vpath with
    | error e =>
      rw [hok] at hread
      refine hread.imp_right fun hnot content hfile => ?_
      exact absurd ((h.file_iff hp).mpr hfile) (hnot content)
    | ok content =>
      have hfile := (h.file_iff hp).mp (hread.of_ok hok)
      show Tells (bytesToUTF8 content) _ _
      unfold bytesToUTF8
      simp only
      split
      · exact ⟨content, hfile, rfl⟩
      rename_i hinvalid
      refine tells_error (.inr fun other hother => ?_)
      rw [hfile] at hother
      cases hother
      by_contra hvalid
      rw [utf8Check_of_validString (by simpa using hvalid)] at hinvalid
      exact hinvalid rfl
  stat := by
    intro vpath p now htarget
    obtain ⟨hp, hrel⟩ := targetOf_eq_some htarget
    refine answers_look hrel ((overlayStat_view hhost hplain h.refs hp hrel).mono ?_ ?_)
    · rintro s (⟨content, mtime, hview, rfl⟩ | ⟨mtime, hview, rfl⟩)
      · exact .inl ⟨content, mtime, (h.file_iff hp).mp hview, rfl⟩
      · exact .inr ⟨mtime, (h.dir_iff hp).mp hview, rfl⟩
    · exact (h.none_iff hp).mp
  iterdir := by
    intro vpath p now htarget
    obtain ⟨hp, hrel⟩ := targetOf_eq_some htarget
    refine answers_look hrel ((overlayIterdir_view hhost hplain h.canonical h.covers hp hrel).mono
      ?_ ?_)
    · rintro paths ⟨hview, names, rfl, hnodup, hnames⟩
      refine ⟨(h.dir_iff hp).mp hview, names, rfl, hnodup, fun name => ?_⟩
      have hord : ∀ name, Ordinary name → OrdinaryPath (p ++ [name]) := fun name hname =>
        ordinaryPath_append.mpr ⟨hp, by simpa [OrdinaryPath] using hname⟩
      rw [hnames]
      constructor
      · rintro ⟨hname, hshown⟩
        exact mt (h.none_iff (hord name hname)).mpr hshown
      · intro hthere
        have hname := (ordinaryPath_append.mp (h.ordinary _ hthere)).2 name (by simp)
        exact ⟨hname, mt (h.none_iff (hord name hname)).mp hthere⟩
    · exact mt (h.dir_iff hp).mpr

/-! ## Runs -/

/-- One call on the mount, and whether it succeeded. -/
def MountStep (host : Node) (m : Mount) (label : OsCall × Bool) (m' : Mount) : Prop :=
  ∃ now, succeeded (overlayExecute host label.1 now m) = label.2 ∧
    final (overlayExecute host label.1 now m) = m'

/-- The step of the tree for one call. -/
def TreeStep (root : GoString) (t : Tree) (label : OsCall × Bool) (t' : Tree) : Prop :=
  FileTree.Step t (label.1.command root, label.2) t'

/-- **One call keeps the refinement**, by a step of the tree. -/
theorem Refines.step (h : Refines root host m t) (hhost : host.isDir = true)
    (hplain : host.Plain) {label : OsCall × Bool} (hstep : MountStep host m label m') :
    ∃ t', TreeStep root t label t' ∧ Refines root host m' t' := by
  obtain ⟨call, ok⟩ := label
  obtain ⟨now, hok, hfinal⟩ := hstep
  simp only at hok hfinal
  cases hcall : overlayExecute host call now m with
  | ok r next =>
    rw [hcall] at hok hfinal
    cases hok
    cases hfinal
    obtain ⟨c, hc, hallows, hafter⟩ := h.succeeds hhost hplain hcall
    refine ⟨_, ?_, hafter⟩
    rw [TreeStep, hc]
    exact .succeeds hallows
  | error e next =>
    rw [hcall] at hok hfinal
    cases hok
    cases hfinal
    exact h.fails hhost hcall

/-- **Every run of an overlay mount is a run of a file tree.**  The tree starts as the host
tree and takes the command of each call that succeeds; before the first and after each call
the looking calls see it. -/
theorem overlay_run_follows_tree (hhost : host.isDir = true) (hplain : host.Plain) (root : Root)
    (writeLimit : Option UInt64) (memLimit : UInt64) {labels : List (OsCall × Bool)}
    (hrun : Runs (MountStep host) (newMount root writeLimit memLimit) labels m) :
    ∃ t, Matched (MountStep host) (TreeStep root.virtualPath) (fun m t => m.LooksLike host t)
      (newMount root writeLimit memLimit) host.tree labels m t := by
  obtain ⟨t, hmatched⟩ : ∃ t, Matched (MountStep host) (TreeStep root.virtualPath)
      (Refines root.virtualPath host) (newMount root writeLimit memLimit) host.tree labels m t :=
    hrun.simulate (fun _ _ _ _ hR hstep => hR.step hhost hplain hstep)
      (refines_newMount hhost hplain root writeLimit memLimit)
  exact ⟨t, hmatched.mono fun _ _ hR => hR.looksLike hhost hplain⟩

/-- A host file is written over and moved with the directories around it; its neighbour is no longer
found at its old path, and is removed at its new one. -/
theorem overlay_run_follows_tree_filledHost :
    ∃ m t, Matched (MountStep filledHost) (TreeStep (Root.open (lit "/")).virtualPath)
      (fun m t => m.LooksLike filledHost t) (newMount (Root.open (lit "/")) none 100000)
      filledHost.tree
      [(.writeBytes (lit "/d/s/g") [1], true), (.rename (lit "/d") (lit "/e"), true),
        (.unlink (lit "/d/f"), false), (.unlink (lit "/e/f"), true)] m t := by
  refine ⟨_, overlay_run_follows_tree rfl filledHost_plain _ _ _
    (.cons ⟨0, ?_, rfl⟩ (.cons ⟨0, ?_, rfl⟩ (.cons ⟨0, ?_, rfl⟩ (.cons ⟨0, ?_, rfl⟩ (.nil _)))))⟩ <;>
  decide

theorem plain_emptyHost : emptyHost.Plain :=
  .dir (fun _ h => absurd h List.not_mem_nil) List.nodup_nil (fun _ h => absurd h List.not_mem_nil)

/-- `mkdir("/a/b", parents=True)` where the memory suffices for one directory only: the call
fails, and yet `/a` is seen afterwards. -/
theorem failed_mkdir_changes_tree : emptyHost.Plain ∧ ∃ m,
      MountStep emptyHost (newMount (Root.open (lit "/")) none 310)
        (.mkdir (lit "/a/b") true false, false) m ∧
      overlayExecute emptyHost (.exists (lit "/a")) 0 m = .ok (.bool true) m ∧
      ¬ m.LooksLike emptyHost emptyHost.tree := by
  refine ⟨plain_emptyHost, _, ⟨0, rfl, rfl⟩, rfl, fun hlooks => ?_⟩
  have hseen := hlooks.exists_eq (lit "/a") [lit "a"] 0 (by decide)
  have hfalse : (OsResult.bool true) = .bool (emptyHost.tree [lit "a"]).isSome :=
    (EStateM.Result.ok.inj hseen).1
  exact absurd hfalse (by decide)

end Montygo.MountFs
