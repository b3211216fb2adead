import Montygo.MountFs.OverlayState
import Montygo.Lib.Fallible

/-!
# An overlay mount

The state of a mount in overlay mode, and the functions that look at the host
tree and the overlay without changing either: the component walk that refuses
symbolic links, the resolution of real paths, and the checks of parents and
targets.  Each function takes the host tree `host` that the mount's `os.Root` has
open; a mount never writes to it in overlay mode.
-/

namespace Montygo.MountFs

open Go Value

/-- `Root`: its virtual path is normalized when it is opened. -/
structure Root where
  virtualPath : GoString
  normalized : ∃ p, OrdinaryPath p ∧ virtualPath = absolute p

/-- The virtual path `OpenRoot` records. -/
def Root.open (virtualPath : GoString) : Root where
  virtualPath := normalizeVirtualPath virtualPath
  normalized := exists_normalizeVirtualPath virtualPath

/-- `mount` in overlay mode. -/
structure Mount where
  root : Root
  writeUsed : UInt64
  writeLimit : Option UInt64
  memLimit : UInt64
  overlay : OverlayState

/-- The mount `NewTable` builds from an overlay spec. -/
def newMount (root : Root) (writeLimit : Option UInt64) (memLimit : UInt64) : Mount where
  root := root
  writeUsed := 0
  writeLimit := writeLimit
  memLimit := memLimit
  overlay := newOverlayState

/-! ## The component walk -/

inductive RealTarget where
  | dir
  | file
  | symlink
  | absent
  deriving DecidableEq, Repr

/-- `classifyTarget`: one lstat, so a refused symlink leaks nothing about its target. -/
def classifyTarget (dir : Node) (rel vpath : GoString) : Except MountError RealTarget :=
  match lstat dir rel with
  | .error err => if isMissing err then .ok .absent else .error (mapIo err vpath)
  | .ok node =>
    if node.isSymlink then .ok .symlink
    else if node.isDir then .ok .dir
    else .ok .file

/-- `componentWalk`: the directory reached so far. -/
structure ComponentWalk where
  current : Node
  exhausted : Bool

def ComponentWalk.step (w : ComponentWalk) (component vpath : GoString) :
    Except MountError (RealTarget × ComponentWalk) :=
  if w.exhausted then .ok (.absent, w)
  else
    match classifyTarget w.current component vpath with
    | .error e => .error e
    | .ok target =>
      if target ≠ .dir then .ok (target, { w with exhausted := true })
      else
        match openRoot w.current component with
        | .error err =>
          if isMissing err then .ok (.absent, { w with exhausted := true })
          else .error (mapIo err vpath)
        | .ok next => .ok (target, { w with current := next })

/-- The loop of `rejectSymlinkChain`. -/
def chainLoop (vpath : GoString) : ComponentWalk → List GoString → Except MountError Unit
  | _, [] => .ok ()
  | w, component :: rest =>
    match w.step component vpath with
    | .error e => .error e
    | .ok (.symlink, _) => .error (.pathEscape vpath)
    | .ok (.absent, _) | .ok (.file, _) => .ok ()
    | .ok (.dir, next) => chainLoop vpath next rest

def rejectSymlinkChain (dir : Node) (rel vpath : GoString) : Except MountError Unit :=
  if rel = [] ∨ rel = lit "." then .ok ()
  else chainLoop vpath { current := dir, exhausted := false } (split rel)

def directoryPrefix (rel : GoString) : GoString := if rel = [] then [] else rel ++ lit "/"

inductive LookupFailure where
  | missing
  | propagate
  deriving DecidableEq, Repr

namespace Mount

variable (m : Mount) (host : Node)

def resolveReal (vpath : GoString) : Except MountError GoString := do
  let rel ← resolveVirtualPath vpath m.root.virtualPath
  rejectSymlinkChain host (dirOp rel) vpath
  pure rel

def checkedRefPath (ref : OverlayEntry) (vpath : GoString) : Except MountError GoString := do
  rejectSymlinkChain host ref.relative vpath
  pure ref.relative

def availableMemory : Except MountError MemoryBudget :=
  if m.overlay.usage > m.memLimit then .error (.memoryLimit m.memLimit)
  else .ok { available := m.memLimit - m.overlay.usage, limit := m.memLimit }

/-- `resolveRealPathState`: the spelling for the host when the real path is present. -/
def resolveRealPathState (vpath : GoString) (onFailure : LookupFailure) :
    Except MountError (Option GoString) :=
  match m.resolveReal host vpath with
  | .error e => if onFailure = .missing then .ok none else .error e
  | .ok target =>
    match stat host (dirOp target) with
    | .ok _ => .ok (some (dirOp target))
    | .error err =>
      if isMissing err ∨ onFailure = .missing then .ok none else .error (mapIo err vpath)

def checkWriteLimit (n : UInt64) : Except MountError Unit :=
  match m.writeLimit with
  | none => .ok ()
  | some limit => if satAdd m.writeUsed n > limit then .error (.writeLimit limit) else .ok ()

def commitWriteBytes (n : UInt64) : Mount :=
  match m.writeLimit with
  | none => m
  | some _ => { m with writeUsed := satAdd m.writeUsed n }

/-! ## Checks of parents and targets -/

/-- The next `current` key of a loop over components. -/
def extendKey (current component : GoString) : GoString :=
  if current = [] then component else current ++ slash :: component

/-- The loop of `ensureParentExists`. -/
def parentLoop (vpath : GoString) :
    ComponentWalk → GoString → List GoString → Except MountError Unit
  | _, _, [] => .ok ()
  | w, current, component :: rest =>
    match w.step component vpath with
    | .error e => .error e
    | .ok (real, next) =>
      match m.overlay.entries (extendKey current component) with
      | some entry =>
        if entry.kind ≠ .directory then .error (notFound vpath)
        else parentLoop vpath next (extendKey current component) rest
      | none =>
        match real with
        | .dir => parentLoop vpath next (extendKey current component) rest
        | .symlink => .error (.pathEscape vpath)
        | .file | .absent => .error (notFound vpath)

def ensureParentExists (rel vpath : GoString) : Except MountError Unit :=
  match lastIndexByte rel slash with
  | none => .ok ()
  | some i => m.parentLoop vpath { current := host, exhausted := false } [] (split (rel.take i))

/-- `rejectDirectoryTarget` refuses writes over directories and over any symlink. -/
def rejectDirectoryTarget (rel vpath : GoString) : Except MountError Unit :=
  match m.overlay.entries rel with
  | some entry => if entry.kind = .directory then .error (isADirectory vpath) else .ok ()
  | none => do
    let target ← m.resolveReal host vpath
    let kind ← classifyTarget host (dirOp target) vpath
    match kind with
    | .dir => .error (isADirectory vpath)
    | .symlink => .error (.pathEscape vpath)
    | .file | .absent => pure ()

def hostFileLen (rel vpath : GoString) : Except MountError UInt64 :=
  match stat host rel with
  | .error err => .error (mapIo err vpath)
  | .ok node => .ok (UInt64.ofNat node.size)

def existingFileLen (rel vpath : GoString) : Except MountError UInt64 :=
  match m.overlay.entries rel with
  | none => do
    match ← m.resolveRealPathState host vpath .propagate with
    | none => pure 0
    | some real => hostFileLen host real vpath
  | some entry =>
    match entry.kind with
    | .file => .ok (UInt64.ofNat entry.content.length)
    | .realFileRef => do
      let ref ← checkedRefPath host entry vpath
      hostFileLen host ref vpath
    | .directory => .error (isADirectory vpath)
    | .deleted => .ok 0

def existingFileBytes (rel vpath : GoString) (budget : MemoryBudget) : Except MountError Bytes :=
  match m.overlay.entries rel with
  | none => do
    match ← m.resolveRealPathState host vpath .propagate with
    | none => pure []
    | some real => readFileLimited host real vpath budget
  | some entry =>
    match entry.kind with
    | .file => do
      budget.check (UInt64.ofNat entry.content.length)
      pure entry.content
    | .realFileRef => do
      let ref ← checkedRefPath host entry vpath
      readFileLimited host ref vpath budget
    | .directory => .error (isADirectory vpath)
    | .deleted => .ok []

def overlayDirectoryHasChildren (rel : GoString) : Bool :=
  (m.overlay.prefixKeys (directoryPrefix rel)).any fun key =>
    key ≠ rel && (m.overlay.entries key).any (·.kind ≠ .deleted)

/-- `realDirectoryHasVisibleChildren`: an error while reading ends the listing quietly. -/
def realDirectoryHasVisibleChildren (rel op vpath : GoString) : Except MountError Bool :=
  match openDir host op with
  | .error err => .error (mapIo err vpath)
  | .ok f =>
    .ok (f.entries.any fun entry =>
      match m.overlay.entries (directoryPrefix rel ++ lossyUTF8 entry.1) with
      | none => true
      | some child => child.kind ≠ .deleted)

end Mount

end Montygo.MountFs
