import Montygo.MountFs.Mount

/-!
# The calls of an overlay mount

Each call of `overlayExecute` as a computation over the mount: its checks read
the mount and the host tree, its updates change the overlay or the counted write
bytes.  `now` is what `currentTimestamp` returns during the call.
-/

namespace Montygo.MountFs

open Go Value Fallible

/-- A canonical `open` mode: `r`, `w` or `a`, with or without `b`. -/
inductive FileAction where
  | read
  | write
  | append
  deriving DecidableEq, Repr

structure FileMode where
  action : FileAction
  binary : Bool
  deriving DecidableEq, Repr

/-- The filesystem calls (`wire.OsCall` with `IsFS`). -/
inductive OsCall where
  | exists (path : GoString)
  | isFile (path : GoString)
  | isDir (path : GoString)
  | isSymlink (path : GoString)
  | readText (path : GoString)
  | readBytes (path : GoString)
  | stat (path : GoString)
  | iterdir (path : GoString)
  | resolve (path : GoString)
  | absolute (path : GoString)
  | unlink (path : GoString)
  | rmdir (path : GoString)
  | writeText (path text : GoString)
  | appendText (path text : GoString)
  | writeBytes (path : GoString) (data : Bytes)
  | appendBytes (path : GoString) (data : Bytes)
  | open (path : GoString) (mode : FileMode)
  | mkdir (path : GoString) (parents existOK : Bool)
  | rename (path dst : GoString)
  deriving DecidableEq, Repr

/-- The value a call returns. -/
inductive OsResult where
  | none
  | bool (b : Bool)
  | int (n : ℕ)
  | bytes (content : Bytes)
  | text (content : GoString)
  | path (p : GoString)
  | paths (ps : List GoString)
  | stat (s : StatResult)
  | fileHandle (path : GoString) (mode : FileMode)
  deriving DecidableEq, Repr

/-- Computations over a mount. -/
abbrev MountM := EStateM MountError Mount

/-! ## Changes of the mount -/

/-- `m.overlay.insert`, under the mount's memory limit. -/
def insertEntry (rel : GoString) (entry : OverlayEntry) : MountM Unit :=
  update fun m =>
    match m.overlay.insert rel entry m.memLimit with
    | .error e => .error e
    | .ok overlay => .ok ((), { m with overlay := overlay })

/-- `m.overlay.appendFile`, under the mount's memory limit. -/
def appendEntry (rel : GoString) (data : Bytes) (now : Float64) : MountM Bool :=
  update fun m =>
    match m.overlay.appendFile rel data now m.memLimit with
    | .error e => .error e
    | .ok (appended, overlay) => .ok (appended, { m with overlay := overlay })

/-- `m.commitWriteBytes`. -/
def commitBytes (n : UInt64) : MountM Unit := update fun m => .ok ((), m.commitWriteBytes n)

/-! ## Looking -/

section Looking

variable (m : Mount) (host : Node)

def overlayPredicate (rel vpath : GoString) (byKind : EntryKind → Bool)
    (byHost : Node → GoString → Bool) : Except MountError Bool :=
  match m.overlay.entries rel with
  | some entry => .ok (byKind entry.kind)
  | none =>
    match m.resolveRealPathState host vpath .missing with
    | .error e => .error e
    | .ok none => .ok false
    | .ok (some real) => .ok (byHost host real)

def overlayIsSymlink (rel vpath : GoString) : Bool :=
  match m.overlay.entries rel with
  | some _ => false
  | none =>
    match resolveVirtualPath vpath m.root.virtualPath with
    | .error _ => false
    | .ok target =>
      let op := dirOp target
      let parent :=
        match lastIndexByte op slash with
        | some i => op.take i
        | none => []
      match rejectSymlinkChain host parent vpath with
      | .error _ => false
      | .ok () => hostIsSymlink host op

def overlayRead (rel vpath : GoString) : Except MountError Bytes :=
  match m.overlay.entries rel with
  | none => do
    let target ← m.resolveReal host vpath
    let budget ← m.availableMemory
    readFileLimited host (dirOp target) vpath budget
  | some entry =>
    match entry.kind with
    | .file => do
      let budget ← m.availableMemory
      budget.check (UInt64.ofNat entry.content.length)
      pure entry.content
    | .realFileRef => do
      let ref ← Mount.checkedRefPath host entry vpath
      let budget ← m.availableMemory
      readFileLimited host ref vpath budget
    | .directory => .error (isADirectory vpath)
    | .deleted => .error (notFound vpath)

def overlayStat (rel vpath : GoString) : Except MountError StatResult :=
  match m.overlay.entries rel with
  | none => do
    let target ← m.resolveReal host vpath
    hostStat host (dirOp target) vpath
  | some entry =>
    match entry.kind with
    | .file => .ok (fileStat entry.content.length entry.mtime)
    | .realFileRef => do
      let _ ← Mount.checkedRefPath host entry vpath
      pure (fileStat entry.size entry.mtime)
    | .directory => .ok (dirStat entry.mtime)
    | .deleted => .error (notFound vpath)

/-- What `overlayIterdir` keeps while it lists: the names of overlay children, the
listed paths and the memory they use. -/
structure Listing where
  seen : List GoString
  entries : List GoString
  usage : UInt64

/-- The loop of `overlayIterdir` over the overlay's keys. -/
def listOverlayKeys (prefixLen : ℕ) (vpath : GoString) (budget : MemoryBudget) :
    List GoString → Listing → Except MountError Listing
  | [], l => .ok l
  | key :: keys, l =>
    let rest := key.drop prefixLen
    if rest = [] ∨ slash ∈ rest then listOverlayKeys prefixLen vpath budget keys l
    else do
      let usage := satAdd (satAdd l.usage (satMul (UInt64.ofNat rest.length) 2))
        listingEntryMemoryUsage
      budget.check usage
      let seen := rest :: l.seen
      if (m.overlay.entries key).any (·.kind ≠ .deleted) then
        let child := formatChildPath vpath rest
        let usage := satAdd (satAdd usage (UInt64.ofNat child.length)) listingEntryMemoryUsage
        budget.check usage
        listOverlayKeys prefixLen vpath budget keys
          { seen := seen, entries := l.entries ++ [child], usage := usage }
      else
        listOverlayKeys prefixLen vpath budget keys { l with seen := seen, usage := usage }

/-- The loop of `overlayIterdir` over the names of the host directory. -/
def listHostNames (vpath : GoString) (budget : MemoryBudget) :
    List GoString → Listing → Except MountError Listing
  | [], l => .ok l
  | name :: names, l =>
    if name ∈ l.seen then listHostNames vpath budget names l
    else do
      let child := formatChildPath vpath name
      let usage := satAdd (satAdd l.usage (UInt64.ofNat child.length)) listingEntryMemoryUsage
      budget.check usage
      listHostNames vpath budget names { l with entries := l.entries ++ [child], usage := usage }

/-- The host directory whose entries `overlayIterdir` merges, if any. -/
def iterdirHost (rel vpath : GoString) : Except MountError (Option GoString) :=
  match m.overlay.entries rel with
  | some entry =>
    match entry.kind with
    | .file | .realFileRef => .error (notADirectory vpath)
    | .deleted => .error (notFound vpath)
    | .directory => .ok none
  | none => do
    let target ← m.resolveReal host vpath
    if hostIsDir host (dirOp target) then pure (some (dirOp target))
    else if !hostExists host (dirOp target) then .error (notFound vpath)
    else .error (notADirectory vpath)

def overlayIterdir (rel vpath : GoString) : Except MountError (List GoString) := do
  let merge ← iterdirHost m host rel vpath
  let pre := directoryPrefix rel
  let budget ← m.availableMemory
  let own ← listOverlayKeys m pre.length vpath budget (m.overlay.prefixKeys pre)
    { seen := [], entries := [], usage := 0 }
  match merge with
  | none => pure own.entries
  | some hostDir => do
    let remaining ← budget.shrink own.usage
    let names ← hostListVisibleDirEntryNames host hostDir vpath remaining.halved
    let usage := names.foldl
      (fun usage name => satAdd (satAdd usage (UInt64.ofNat name.length)) listingEntryMemoryUsage)
      own.usage
    let all ← listHostNames vpath budget names { own with usage := usage }
    pure all.entries

end Looking

/-! ## Writing and appending -/

section Changing

variable (host : Node)

def overlayWrite (vpath : GoString) (data : Bytes) (result : ℕ) (now : Float64) : MountM ℕ := do
  let n := UInt64.ofNat data.length
  let rel ← check fun m => do
    m.checkWriteLimit n
    let rel ← resolveVirtualPath vpath m.root.virtualPath
    m.ensureParentExists host rel vpath
    m.rejectDirectoryTarget host rel vpath
    m.overlay.checkFileReplacement rel n m.memLimit
    pure rel
  insertEntry rel (fileEntry data now)
  commitBytes n
  pure result

/-- The bytes `overlayAppend` charges: a file that is pulled from the host for the first
time is charged as a whole. -/
def appendCharge (m : Mount) (rel : GoString) (existingLen n : UInt64) : UInt64 :=
  let targetIsOverlayFile := (m.overlay.entries rel).any (·.kind = .file)
  if m.writeLimit.isSome ∧ targetIsOverlayFile = false then satAdd existingLen n else n

/-- The checks and the read of `overlayAppend` for a file that is not in the overlay yet. -/
def pulledContent (m : Mount) (rel vpath : GoString) (existingLen n : UInt64) (data : Bytes) :
    Except MountError Bytes := do
  let finalLen := satAdd existingLen n
  m.overlay.checkFileReplacement rel finalLen m.memLimit
  let budget ← m.availableMemory
  budget.check finalLen
  let shrunk ← budget.shrink n
  let content ← m.existingFileBytes host rel vpath shrunk
  pure (content ++ data)

def overlayAppend (vpath : GoString) (data : Bytes) (now : Float64) : MountM Unit := do
  let n := UInt64.ofNat data.length
  let (rel, existingLen, charged) ← check fun m => do
    let rel ← resolveVirtualPath vpath m.root.virtualPath
    m.ensureParentExists host rel vpath
    m.rejectDirectoryTarget host rel vpath
    let existingLen ← m.existingFileLen host rel vpath
    let charged := appendCharge m rel existingLen n
    m.checkWriteLimit charged
    pure (rel, existingLen, charged)
  let appended ← appendEntry rel data now
  if !appended then do
    let content ← check fun m => pulledContent host m rel vpath existingLen n data
    insertEntry rel (fileEntry content now)
  commitBytes charged

/-- `ensureAppendTargetExists` creates a missing target without pulling real content. -/
def ensureAppendTargetExists (vpath : GoString) (now : Float64) : MountM Unit := do
  let (rel, create) ← check fun m => do
    let rel ← resolveVirtualPath vpath m.root.virtualPath
    match m.overlay.entries rel with
    | some entry =>
      match entry.kind with
      | .file | .realFileRef => pure (rel, false)
      | .directory => .error (isADirectory vpath)
      | .deleted => do
        m.ensureParentExists host rel vpath
        pure (rel, true)
    | none => do
      let target ← m.resolveReal host vpath
      let kind ← classifyTarget host (dirOp target) vpath
      match kind with
      | .dir => .error (isADirectory vpath)
      | .symlink => .error (.pathEscape vpath)
      | .file => do
        m.ensureParentExists host rel vpath
        pure (rel, false)
      | .absent => do
        m.ensureParentExists host rel vpath
        pure (rel, true)
  if create then insertEntry rel (fileEntry [] now)

/-- The checks of `overlayOpen` for reading. -/
def openForReading (m : Mount) (path : GoString) : Except MountError Unit := do
  let rel ← resolveVirtualPath path m.root.virtualPath
  match m.overlay.entries rel with
  | some entry =>
    match entry.kind with
    | .directory => .error (isADirectory path)
    | .deleted => .error (notFound path)
    | .file | .realFileRef => pure ()
  | none => do
    match ← m.resolveRealPathState host path .propagate with
    | none => .error (notFound path)
    | some real => if hostIsDir host real then .error (isADirectory path) else pure ()

def overlayOpen (path : GoString) (mode : FileMode) (now : Float64) : MountM OsResult := do
  match mode.action with
  | .read => check fun m => openForReading host m path
  | .write => do
    let _ ← overlayWrite host path [] 0 now
  | .append => ensureAppendTargetExists host path now
  pure (.fileHandle (normalizeVirtualPath path) mode)

/-! ## Directories -/

/-- What `overlayMkdir` finds at its target: `true` when there is nothing left to do. -/
def mkdirTarget (m : Mount) (rel : GoString) (existOK : Bool) (vpath : GoString) :
    Except MountError Bool :=
  match m.overlay.entries rel with
  | some entry =>
    match entry.kind with
    | .directory => if existOK then .ok true else .error (fileExists vpath)
    | .file | .realFileRef => .error (fileExists vpath)
    | .deleted => .ok false
  | none => do
    let target ← m.resolveReal host vpath
    let kind ← classifyTarget host (dirOp target) vpath
    match kind with
    | .dir => if existOK then pure true else .error (fileExists vpath)
    | .file => .error (fileExists vpath)
    | .symlink => .error (.pathEscape vpath)
    | .absent => pure false

/-- What one round of `createOverlayParents` finds: the next walk, and whether a directory
has to be put at `current`. -/
def parentStep (m : Mount) (w : ComponentWalk) (current component currentVpath : GoString) :
    Except MountError (ComponentWalk × Bool) := do
  let (real, next) ← w.step component currentVpath
  match m.overlay.entries current with
  | some entry =>
    match entry.kind with
    | .file | .realFileRef => .error (notADirectory currentVpath)
    | .deleted => pure (next, true)
    | .directory => pure (next, false)
  | none =>
    match real with
    | .dir => pure (next, false)
    | .symlink => .error (.pathEscape currentVpath)
    | .file => .error (notADirectory currentVpath)
    | .absent => pure (next, true)

/-- The loop of `createOverlayParents`. -/
def createLoop (now : Float64) : ComponentWalk → GoString → List GoString → MountM Unit
  | _, _, [] => pure ()
  | w, current, component :: rest => do
    let current := Mount.extendKey current component
    let (next, create) ← check fun m =>
      parentStep m w current component (formatChildPath m.root.virtualPath current)
    if create then insertEntry current (directoryEntry now)
    createLoop now next current rest

/-- `createOverlayParents`: the last component is the target itself. -/
def createOverlayParents (rel : GoString) (now : Float64) : MountM Unit :=
  createLoop now { current := host, exhausted := false } [] (split rel)

def overlayMkdir (rel : GoString) (parents existOK : Bool) (vpath : GoString) (now : Float64) :
    MountM Unit := do
  let done ← check fun m => mkdirTarget host m rel existOK vpath
  if !done then do
    if parents then createOverlayParents host rel now
    else check fun m => m.ensureParentExists host rel vpath
    insertEntry rel (directoryEntry now)

/-- The checks of `overlayUnlink`. -/
def unlinkTarget (m : Mount) (rel vpath : GoString) : Except MountError Unit :=
  match m.overlay.entries rel with
  | some entry =>
    match entry.kind with
    | .file | .realFileRef => .ok ()
    | .directory => .error (isADirectory vpath)
    | .deleted => .error (notFound vpath)
  | none => do
    m.ensureParentExists host rel vpath
    let target ← m.resolveReal host vpath
    let kind ← classifyTarget host (dirOp target) vpath
    match kind with
    | .file => pure ()
    | .dir => .error (isADirectory vpath)
    | .symlink => .error (.pathEscape vpath)
    | .absent => .error (notFound vpath)

def overlayUnlink (rel vpath : GoString) : MountM Unit := do
  check fun m => unlinkTarget host m rel vpath
  insertEntry rel deletedEntry

/-- The checks of `overlayRmdir`. -/
def rmdirTarget (m : Mount) (rel vpath : GoString) : Except MountError Unit :=
  if rel = [] then .error (.pathEscape vpath)
  else
    match m.overlay.entries rel with
    | some entry =>
      match entry.kind with
      | .directory =>
        if m.overlayDirectoryHasChildren rel then .error (directoryNotEmpty vpath) else .ok ()
      | .file | .realFileRef => .error (notADirectory vpath)
      | .deleted => .error (notFound vpath)
    | none => do
      m.ensureParentExists host rel vpath
      let target ← m.resolveReal host vpath
      let op := dirOp target
      if !hostIsDir host op then
        if hostExists host op then .error (notADirectory vpath) else .error (notFound vpath)
      else
        let visible ← m.realDirectoryHasVisibleChildren host rel op vpath
        if visible || m.overlayDirectoryHasChildren rel then .error (directoryNotEmpty vpath)
        else pure ()

def overlayRmdir (rel vpath : GoString) : MountM Unit := do
  check fun m => rmdirTarget host m rel vpath
  insertEntry rel deletedEntry

end Changing

end Montygo.MountFs
