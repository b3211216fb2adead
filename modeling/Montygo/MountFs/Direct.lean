import Montygo.MountFs.Exception
import Montygo.MountFs.TreeRun
import Montygo.MountFs.WayOpen

/-!
# A read-only mount, and an overlay over the same tree

A read-only mount hands the looking calls to its host directory; an overlay mount that nothing
has been written to looks through an empty overlay at the same directory.  Over a tree of readable
directories and regular files both give the same answers, but for one call: `iterdir` of a path
that leads through a file.  There the overlay asks only whether the path exists, and the errno that
tells a missing name from a file in the way is lost.
-/

namespace Montygo.MountFs

open Go Value Outcome Wire

/-! ## The read-only mount -/

def fullBudget (limit : UInt64) : MemoryBudget := { available := limit, limit := limit }

/-- The memory `hostIterdir` and `overlayIterdir` count for the names of a host directory. -/
def namesUsage (names : List GoString) (usage : UInt64) : UInt64 :=
  names.foldl
    (fun usage name => satAdd (satAdd usage (UInt64.ofNat name.length)) listingEntryMemoryUsage)
    usage

/-- The loop of `hostIterdir` over the names. -/
def childPaths (vpath : GoString) (budget : MemoryBudget) :
    List GoString → UInt64 → Except MountError (List GoString)
  | [], _ => .ok []
  | name :: names, usage => do
    let path := formatChildPath vpath name
    let usage := satAdd (satAdd usage (UInt64.ofNat path.length)) listingEntryMemoryUsage
    budget.check usage
    let rest ← childPaths vpath budget names usage
    pure (path :: rest)

def hostIterdir (dir : Node) (rel vpath : GoString) (budget : MemoryBudget) :
    Except MountError (List GoString) := do
  let names ← hostListVisibleDirEntryNames dir rel vpath budget.halved
  childPaths vpath budget names (namesUsage names 0)

/-- The checks of `directOpen` for reading. -/
def directOpenChecks (dir : Node) (op path : GoString) : Except MountError Unit :=
  match stat dir op with
  | .error err => .error (mapIo err path)
  | .ok _ => rejectNonRegular dir op path

/-- A call of `directExecute` on a path that resolves in the mount. -/
def directOnPath {α : Type} (root : Root) (path : GoString)
    (f : GoString → Except MountError α) (result : α → OsResult) : Except MountError OsResult := do
  let rel ← resolveVirtualPath path root.virtualPath
  let a ← f (dirOp rel)
  pure (result a)

/-- `execute` of a mount in read-only mode.  A write call is refused before `directExecute`, so
only its other calls are reached. -/
def readOnlyExecute (root : Root) (memLimit : UInt64) (host : Node) :
    OsCall → Except MountError OsResult
  | .exists path => directOnPath root path (fun op => .ok (hostExists host op)) .bool
  | .isFile path => directOnPath root path (fun op => .ok (hostIsFile host op)) .bool
  | .isDir path => directOnPath root path (fun op => .ok (hostIsDir host op)) .bool
  | .isSymlink path => directOnPath root path (fun op => .ok (hostIsSymlink host op)) .bool
  | .resolve path | .absolute path => .ok (.path (normalizeVirtualPath path))
  | .readText path =>
    directOnPath root path
      (fun op => readFileLimited host op path (fullBudget memLimit) >>= bytesToUTF8) .text
  | .readBytes path =>
    directOnPath root path (fun op => readFileLimited host op path (fullBudget memLimit)) .bytes
  | .iterdir path =>
    directOnPath root path (fun op => hostIterdir host op path (fullBudget memLimit)) .paths
  | .stat path => directOnPath root path (fun op => hostStat host op path) .stat
  | .open path mode =>
    match mode.action with
    | .read =>
      directOnPath root path (fun op => directOpenChecks host op path)
        fun _ => .fileHandle (normalizeVirtualPath path) mode
    | .write | .append => .error (.readOnly path)
  | .writeText path _ | .appendText path _ | .writeBytes path _ | .appendBytes path _
  | .mkdir path _ _ | .unlink path | .rmdir path | .rename path _ => .error (.readOnly path)

/-! ## Answers -/

/-- What a call returns, without the mount it leaves. -/
def returned (r : EStateM.Result MountError Mount OsResult) : Except MountError OsResult :=
  match r with
  | .ok a _ => .ok a
  | .error e _ => .error e

section Answers

variable (stringRepr : GoString → GoString) (formatBytesPretty : UInt64 → GoString)

/-- What the sandbox gets: the value, or the exception of the error. -/
def reply {α : Type} (r : Except MountError α) : Except RaisedException α :=
  r.mapError (MountError.exception stringRepr formatBytesPretty)

/-- What a mount with a fresh overlay answers. -/
def overlayAnswer (host : Node) (root : Root) (writeLimit : Option UInt64) (memLimit : UInt64)
    (call : OsCall) (now : Float64) : Except RaisedException OsResult :=
  reply stringRepr formatBytesPretty
    (returned (overlayExecute host call now (newMount root writeLimit memLimit)))

/-- What a read-only mount answers. -/
def readOnlyAnswer (host : Node) (root : Root) (memLimit : UInt64) (call : OsCall) :
    Except RaisedException OsResult :=
  reply stringRepr formatBytesPretty (readOnlyExecute root memLimit host call)

end Answers

/-- The calls that look at a file or a directory, `open` for reading among them. -/
def OsCall.looks : OsCall → Bool
  | .exists _ | .isFile _ | .isDir _ | .isSymlink _ | .readText _ | .readBytes _ | .stat _
  | .iterdir _ => true
  | .open _ mode => mode.action = .read
  | _ => false

/-- The call lists a path that leads through a file. -/
def OsCall.listsThroughFile (host : Node) (root : Root) : OsCall → Bool
  | .iterdir path => (targetOf root.virtualPath path).any host.crossesFile
  | _ => false

/-! ## Looking through a fresh overlay -/

variable {host : Node} {root : Root} {writeLimit : Option UInt64} {memLimit : UInt64}
  {p : Path} {vpath : GoString} {now : Float64}

section Fresh

variable (hhost : host.isDir = true) (hreadable : host.Readable) (hp : OrdinaryPath p)
  (hrel : resolveVirtualPath vpath root.virtualPath = .ok (key p))

theorem availableMemory_newMount :
    (newMount root writeLimit memLimit).availableMemory = .ok (fullBudget memLimit) := by
  simp [Mount.availableMemory, newMount, newOverlayState, fullBudget]

theorem newMount_entries {k : GoString} :
    (newMount root writeLimit memLimit).overlay.entries k = none := rfl

include hhost hreadable hp

theorem stat_cases : (∃ node, stat host (dirOp (key p)) = .ok node ∧ node.Readable ∧
      host.crossesFile p = false) ∨
    (∃ err, stat host (dirOp (key p)) = .error err ∧ isMissing err = true ∧
      host.crossesFile p = false) ∨
    (stat host (dirOp (key p)) = .error .enotdir ∧ host.crossesFile p = true) := by
  rw [stat_dirOp_key hhost hp (hreadable.linkFree p)]
  cases hcross : host.crossesFile p with
  | true => exact .inr (.inr ⟨Node.descend_of_crossesFile hcross, rfl⟩)
  | false =>
    cases hdescend : host.descend p with
    | ok node => exact .inl ⟨node, rfl, hreadable.descend hdescend, rfl⟩
    | error err =>
      exact .inr (.inl ⟨err, rfl,
        Node.isMissing_of_descend (hreadable.refuses hhost) hcross hdescend, rfl⟩)

theorem hostIsSymlink_readable : hostIsSymlink host (dirOp (key p)) = false := by
  rw [hostIsSymlink, lstat_dirOp_key hhost hp (hreadable.linkFree p)]
  cases hdescend : host.descend p with
  | ok node => exact (hreadable.descend hdescend).isSymlink
  | error err => rfl

include hrel

theorem resolveReal_newMount :
    (newMount root writeLimit memLimit).resolveReal host vpath = .ok (key p) :=
  resolveReal_of_refuses hreadable.linkFree hp hrel (hreadable.refuses hhost)

theorem overlayPredicate_newMount {byKind : EntryKind → Bool} {byHost : Node → GoString → Bool}
    (hmissing : ∀ op err, stat host op = .error err → byHost host op = false) :
    overlayPredicate (newMount root writeLimit memLimit) host (key p) vpath byKind byHost =
      .ok (byHost host (dirOp (key p))) := by
  simp only [overlayPredicate, newMount_entries, Mount.resolveRealPathState,
    resolveReal_newMount hhost hreadable hp hrel]
  cases hstat : stat host (dirOp (key p)) with
  | ok node => rfl
  | error err => simp [hmissing _ err hstat]

theorem overlayIsSymlink_newMount :
    overlayIsSymlink (newMount root writeLimit memLimit) host (key p) vpath =
      hostIsSymlink host (dirOp (key p)) := by
  have hroot : resolveVirtualPath vpath (newMount root writeLimit memLimit).root.virtualPath =
    .ok (key p) := hrel
  simp only [overlayIsSymlink, newMount_entries, hroot, hostIsSymlink_readable hhost hreadable hp]
  split <;> rfl

theorem overlayRead_newMount : overlayRead (newMount root writeLimit memLimit) host (key p) vpath =
      readFileLimited host (dirOp (key p)) vpath (fullBudget memLimit) := by
  simp only [overlayRead, newMount_entries, resolveReal_newMount hhost hreadable hp hrel,
    availableMemory_newMount]
  rfl

theorem overlayStat_newMount : overlayStat (newMount root writeLimit memLimit) host (key p) vpath =
      hostStat host (dirOp (key p)) vpath := by
  simp only [overlayStat, newMount_entries, resolveReal_newMount hhost hreadable hp hrel]
  rfl

/-- The checks of `open` raise the same exception. -/
theorem openForReading_newMount {stringRepr : GoString → GoString}
    {formatBytesPretty : UInt64 → GoString} :
    reply stringRepr formatBytesPretty
        (openForReading host (newMount root writeLimit memLimit) vpath) =
      reply stringRepr formatBytesPretty (directOpenChecks host (dirOp (key p)) vpath) := by
  have hroot : resolveVirtualPath vpath (newMount root writeLimit memLimit).root.virtualPath =
    .ok (key p) := hrel
  have hreal : (newMount root writeLimit memLimit).resolveReal host vpath = .ok (key p) :=
    resolveReal_newMount hhost hreadable hp hrel
  simp only [openForReading, hroot, bind, Except.bind, newMount_entries, Mount.resolveRealPathState, hreal,
    directOpenChecks, rejectNonRegular, hostIsDir]
  rcases stat_cases hhost hreadable hp with ⟨node, hstat, hnode, -⟩ | ⟨err, hstat, hmissing, -⟩ |
    ⟨hstat, -⟩
  · cases hnode with
    | file => simp [hstat, Node.isDir, Node.isRegular, pure, Except.pure]
    | dir below => simp [hstat, Node.isDir]
  · simp [hstat, hmissing, reply, Except.mapError, MountError.exception_of_isMissing hmissing]
  · simp [hstat]

end Fresh

/-! ## Listing -/

theorem listHostNames_unseen {budget : MemoryBudget} (names done : List GoString)
    (usage : UInt64) :
    (do let all ← listHostNames vpath budget names ⟨[], done, usage⟩
        pure all.entries) =
      (done ++ ·) <$> childPaths vpath budget names usage := by
  induction names generalizing done usage with
  | nil => simp [listHostNames, childPaths, ok_bind, pure, Except.pure, Functor.map, Except.map]
  | cons name names ih =>
    simp only [listHostNames, childPaths, List.not_mem_nil, if_false]
    cases budget.check (satAdd (satAdd usage (UInt64.ofNat (formatChildPath vpath name).length))
        listingEntryMemoryUsage) with
    | error e => rfl
    | ok u =>
      simp only [ok_bind]
      rw [ih]
      cases childPaths vpath budget names (satAdd (satAdd usage
          (UInt64.ofNat (formatChildPath vpath name).length)) listingEntryMemoryUsage) with
      | error e => rfl
      | ok rest => simp [ok_bind, Functor.map, Except.map, pure, Except.pure]

theorem overlayIterdir_of_dir {rel op : GoString}
    (hmerge : iterdirHost (newMount root writeLimit memLimit) host rel vpath = .ok (some op)) :
    overlayIterdir (newMount root writeLimit memLimit) host rel vpath =
      hostIterdir host op vpath (fullBudget memLimit) := by
  have hkeys : (newMount root writeLimit memLimit).overlay.prefixKeys (directoryPrefix rel) = [] := by
    simp [OverlayState.prefixKeys, newMount, newOverlayState, SortedKeys.range]
  have hshrink : (fullBudget memLimit).shrink 0 = .ok (fullBudget memLimit) := by
    simp [MemoryBudget.shrink, fullBudget]
  simp only [overlayIterdir, hmerge, availableMemory_newMount, hkeys, listOverlayKeys, hshrink,
    ok_bind, hostIterdir]
  cases hostListVisibleDirEntryNames host op vpath (fullBudget memLimit).halved with
  | error e => rfl
  | ok names =>
    simp only [ok_bind]
    exact (listHostNames_unseen names [] (namesUsage names 0)).trans (id_map _)

section Iterdir

variable {stringRepr : GoString → GoString} {formatBytesPretty : UInt64 → GoString}
  (hhost : host.isDir = true) (hreadable : host.Readable) (hp : OrdinaryPath p)
  (hrel : resolveVirtualPath vpath root.virtualPath = .ok (key p))

include hhost hreadable hp hrel

variable (writeLimit memLimit) in
theorem iterdirHost_newMount : iterdirHost (newMount root writeLimit memLimit) host (key p) vpath =
      match stat host (dirOp (key p)) with
      | .ok node =>
        if node.isDir then .ok (some (dirOp (key p))) else .error (notADirectory vpath)
      | .error _ => .error (notFound vpath) := by
  simp only [iterdirHost, newMount_entries, resolveReal_newMount hhost hreadable hp hrel, ok_bind]
  cases hstat : stat host (dirOp (key p)) with
  | ok node =>
    simp only [hostIsDir, hostExists, hstat]
    cases node.isDir <;> rfl
  | error err =>
    simp only [hostIsDir, hostExists, hstat]
    rfl

theorem iterdir_newMount_iff : reply stringRepr formatBytesPretty
        (overlayIterdir (newMount root writeLimit memLimit) host (key p) vpath) =
      reply stringRepr formatBytesPretty
        (hostIterdir host (dirOp (key p)) vpath (fullBudget memLimit)) ↔
      host.crossesFile p = false := by
  have hmerge := iterdirHost_newMount writeLimit memLimit hhost hreadable hp hrel
  have hfails : ∀ e, iterdirHost (newMount root writeLimit memLimit) host (key p) vpath = .error e →
      overlayIterdir (newMount root writeLimit memLimit) host (key p) vpath = .error e := by
    intro e he
    rw [overlayIterdir, he]
    rfl
  have hlist : ∀ err, stat host (dirOp (key p)) = .error err →
      hostIterdir host (dirOp (key p)) vpath (fullBudget memLimit) = .error (mapIo err vpath) := by
    intro err hstat
    simp only [hostIterdir, hostListVisibleDirEntryNames, hstat]
    rfl
  rcases stat_cases hhost hreadable hp with ⟨node, hstat, hnode, hcross⟩ |
    ⟨err, hstat, hmissing, hcross⟩ | ⟨hstat, hcross⟩
  · refine iff_of_true ?_ hcross
    rw [hstat] at hmerge
    cases hnode with
    | dir below => rw [overlayIterdir_of_dir hmerge]
    | file =>
      rw [hfails _ hmerge]
      simp only [hostIterdir, hostListVisibleDirEntryNames, hstat, openDir]
      rfl
  · refine iff_of_true ?_ hcross
    rw [hstat] at hmerge
    rw [hfails _ hmerge, hlist err hstat]
    exact congrArg Except.error (MountError.exception_of_isMissing hmissing).symm
  · rw [hcross]
    refine iff_of_false (fun h => ?_) (by decide)
    rw [hstat] at hmerge
    rw [hfails _ hmerge, hlist _ hstat] at h
    exact MountError.exception_notFound_ne (Except.error.inj h)

end Iterdir

/-! ## The two mounts -/

section Mounts

variable {stringRepr : GoString → GoString} {formatBytesPretty : UInt64 → GoString}

theorem answer_result {α : Type} (x : Except MountError α) (result : α → OsResult) :
    reply stringRepr formatBytesPretty (do let a ← x; pure (result a)) =
      result <$> reply stringRepr formatBytesPretty x := by
  cases x <;> rfl

theorem map_paths_inj {x y : Except RaisedException (List GoString)} :
    OsResult.paths <$> x = OsResult.paths <$> y ↔ x = y := by
  cases x <;> cases y <;> simp [Functor.map, Except.map]

variable {α : Type} {g : GoString → Mount → Except MountError α} {result : α → OsResult}

theorem returned_look {m : Mount} : returned ((overlayOnPath vpath fun rel => do
        let a ← Fallible.check (g rel)
        pure (result a)) m) =
      (do let rel ← resolveVirtualPath vpath m.root.virtualPath
          let a ← g rel m
          pure (result a)) := by
  cases hrel : resolveVirtualPath vpath m.root.virtualPath with
  | error e => simp [overlayOnPath, Fallible.check, hrel, bind, EStateM.bind, Except.bind, returned]
  | ok rel =>
    rw [overlayOnPath_of_resolve hrel, ok_bind]
    simp only [bind, EStateM.bind, Fallible.check]
    cases g rel m <;> rfl

/-- A fresh overlay answers a looking call as the host does, if it does on every path that
resolves. -/
theorem answer_look {f : GoString → Except MountError α}
    (h : ∀ p, OrdinaryPath p → resolveVirtualPath vpath root.virtualPath = .ok (key p) →
      g (key p) (newMount root writeLimit memLimit) = f (dirOp (key p))) :
    reply stringRepr formatBytesPretty (returned ((overlayOnPath vpath fun rel => do
        let a ← Fallible.check (g rel)
        pure (result a)) (newMount root writeLimit memLimit))) =
      reply stringRepr formatBytesPretty (directOnPath root vpath f result) := by
  have hroot : (newMount root writeLimit memLimit).root = root := rfl
  rw [returned_look, directOnPath, hroot]
  cases hrel : resolveVirtualPath vpath root.virtualPath with
  | error e => rfl
  | ok rel =>
    obtain ⟨p, hp, rfl⟩ := (newMount root writeLimit memLimit).resolved hrel
    rw [ok_bind, ok_bind, h p hp hrel]

variable (hhost : host.isDir = true) (hreadable : host.Readable) {path : GoString}

include hhost hreadable

theorem answer_iterdir_iff :
    overlayAnswer stringRepr formatBytesPretty host root writeLimit memLimit (.iterdir path) now =
      readOnlyAnswer stringRepr formatBytesPretty host root memLimit (.iterdir path) ↔
      (OsCall.iterdir path).listsThroughFile host root = false := by
  rw [overlayAnswer, readOnlyAnswer, overlayExecute, readOnlyExecute, returned_look, directOnPath,
    OsCall.listsThroughFile]
  cases hrel : resolveVirtualPath path root.virtualPath with
  | error e =>
    have hroot : resolveVirtualPath path (newMount root writeLimit memLimit).root.virtualPath =
      .error e := hrel
    simp only [hroot, targetOf, hrel]
    exact iff_of_true rfl rfl
  | ok rel =>
    obtain ⟨p, hp, rfl⟩ := (newMount root writeLimit memLimit).resolved hrel
    have hroot : resolveVirtualPath path (newMount root writeLimit memLimit).root.virtualPath =
      .ok (key p) := hrel
    have htarget : targetOf root.virtualPath path = some p := by
      simp only [targetOf, hrel, pathOf_key hp]
    rw [hroot, ok_bind, ok_bind, answer_result, answer_result, htarget, Option.any_some,
      map_paths_inj]
    exact iterdir_newMount_iff hhost hreadable hp hrel

/-- The calls of `overlayExecute` that only look raise what a read-only mount raises. -/
theorem answer_eq_of_looks {call : OsCall} (hcall : call.looks = true)
    (hiterdir : ∀ path, call ≠ .iterdir path) :
    overlayAnswer stringRepr formatBytesPretty host root writeLimit memLimit call now =
      readOnlyAnswer stringRepr formatBytesPretty host root memLimit call := by
  have hmissing : ∀ op err, stat host op = .error err →
      hostExists host op = false ∧ hostIsFile host op = false ∧ hostIsDir host op = false := by
    intro op err hstat
    simp [hostExists, hostIsFile, hostIsDir, hstat]
  unfold overlayAnswer readOnlyAnswer overlayExecute readOnlyExecute
  cases call with
  | «exists» path =>
    apply answer_look
    intro p hp hrel
    exact overlayPredicate_newMount hhost hreadable hp hrel fun op err h => (hmissing op err h).1
  | isFile path =>
    apply answer_look
    intro p hp hrel
    exact overlayPredicate_newMount hhost hreadable hp hrel fun op err h => (hmissing op err h).2.1
  | isDir path =>
    apply answer_look
    intro p hp hrel
    exact overlayPredicate_newMount hhost hreadable hp hrel fun op err h => (hmissing op err h).2.2
  | isSymlink path =>
    apply answer_look
    intro p hp hrel
    exact congrArg Except.ok (overlayIsSymlink_newMount hhost hreadable hp hrel)
  | readText path =>
    apply answer_look
    intro p hp hrel
    simp only [overlayRead_newMount hhost hreadable hp hrel]
  | readBytes path =>
    apply answer_look
    intro p hp hrel
    exact overlayRead_newMount hhost hreadable hp hrel
  | stat path =>
    apply answer_look
    intro p hp hrel
    exact overlayStat_newMount hhost hreadable hp hrel
  | iterdir path => exact absurd rfl (hiterdir path)
  | «open» path mode =>
    have hread : mode.action = .read := by simpa [OsCall.looks] using hcall
    have hreturned : returned (overlayOpen host path mode now (newMount root writeLimit memLimit)) =
        (do let _ ← openForReading host (newMount root writeLimit memLimit) path
            pure (.fileHandle (normalizeVirtualPath path) mode)) := by
      simp only [overlayOpen, hread, bind, EStateM.bind, Fallible.check]
      cases openForReading host (newMount root writeLimit memLimit) path <;> rfl
    simp only [hreturned, hread, directOnPath]
    cases hrel : resolveVirtualPath path root.virtualPath with
    | error e =>
      have hopen : openForReading host (newMount root writeLimit memLimit) path = .error e := by
        have hroot : resolveVirtualPath path
          (newMount root writeLimit memLimit).root.virtualPath = .error e := hrel
        rw [openForReading, hroot]
        rfl
      rw [hopen]
      rfl
    | ok rel =>
      obtain ⟨p, hp, rfl⟩ := (newMount root writeLimit memLimit).resolved hrel
      rw [ok_bind, answer_result, answer_result, openForReading_newMount hhost hreadable hp hrel]
  | resolve | absolute | unlink | rmdir | writeText | appendText | writeBytes | appendBytes | mkdir
  | rename => cases hcall

end Mounts

/-- **A fresh overlay answers every looking call as a read-only mount does, but for an `iterdir`
of a path that leads through a file.** -/
theorem fresh_overlay_answers_iff (stringRepr : GoString → GoString)
    (formatBytesPretty : UInt64 → GoString) (hhost : host.isDir = true)
    (hreadable : host.Readable) (root : Root) (writeLimit : Option UInt64) (memLimit : UInt64)
    (now : Float64) {call : OsCall} (hcall : call.looks = true) :
    overlayAnswer stringRepr formatBytesPretty host root writeLimit memLimit call now =
      readOnlyAnswer stringRepr formatBytesPretty host root memLimit call ↔
      call.listsThroughFile host root = false := by
  by_cases hiterdir : ∃ path, call = .iterdir path
  · obtain ⟨path, rfl⟩ := hiterdir
    exact answer_iterdir_iff hhost hreadable
  · have hother : ∀ path, call ≠ .iterdir path := fun path h => hiterdir ⟨path, h⟩
    have hlists : call.listsThroughFile host root = false := by
      cases call with
      | iterdir path => exact absurd rfl (hother path)
      | _ => rfl
    exact iff_of_true (answer_eq_of_looks hhost hreadable hcall hother) hlists

/-- A directory with one file. -/
def fileHost : Node := .dir [(lit "f", .file [1] 0 none)] 0 {}

theorem readable_fileHost : fileHost.Readable := .dir (List.forall_mem_singleton.mpr .file)

/-- Both mounts list the root of `fileHost`. -/
theorem fresh_overlay_answers_root :
    overlayAnswer id (fun _ => []) fileHost (Root.open (lit "/mnt")) none 1000
        (.iterdir (lit "/mnt")) 0 =
      readOnlyAnswer id (fun _ => []) fileHost (Root.open (lit "/mnt")) 1000
        (.iterdir (lit "/mnt")) :=
  (fresh_overlay_answers_iff id (fun _ => []) rfl readable_fileHost (Root.open (lit "/mnt")) none
    1000 0 rfl).mpr (by decide)

/-- Listing `f/a`, where `f` is a file: the overlay says that there is no such path, the host that
`f` is no directory. -/
theorem iterdir_through_file : fileHost.Readable ∧
      overlayAnswer id (fun _ => []) fileHost (Root.open (lit "/mnt")) none 1000
          (.iterdir (lit "/mnt/f/a")) 0 =
        .error (newException (lit "FileNotFoundError")
          (lit "[Errno 2] No such file or directory: /mnt/f/a")) ∧
      readOnlyAnswer id (fun _ => []) fileHost (Root.open (lit "/mnt")) 1000
          (.iterdir (lit "/mnt/f/a")) =
        .error (newException (lit "NotADirectoryError")
          (lit "[Errno 20] Not a directory: /mnt/f/a")) :=
  ⟨readable_fileHost, rfl, rfl⟩

end Montygo.MountFs
