import Montygo.MountFs.Overlay

/-!
# Rename and the dispatch of overlay calls

`overlayRename` first plans: it checks both paths, captures the entries to move
from the overlay and from the host directory below the source, and projects the
memory of the whole batch.  Only then it commits.  The plan is a value here, so
that the part that reads and the part that changes are separate definitions.
-/

namespace Montygo.MountFs

open Go Value Fallible

variable (m : Mount) (host : Node)

def rejectRenameTypeMismatch (dstRel : GoString) (srcIsDir : Bool) (dstV : GoString) :
    Except MountError Unit :=
  let (known, dstIsDir) : Bool × Bool :=
    match m.overlay.entries dstRel with
    | some entry =>
      match entry.kind with
      | .directory => (true, true)
      | .file | .realFileRef => (true, false)
      | .deleted => (false, false)
    | none =>
      match resolveVirtualPath dstV m.root.virtualPath with
      | .error _ => (false, false)
      | .ok target =>
        if hostIsDir host (dirOp target) then (true, true)
        else if hostExists host (dirOp target) then (true, false)
        else (false, false)
  if known && dstIsDir && !srcIsDir then .error (isADirectory dstV)
  else if known && !dstIsDir && srcIsDir then .error (notADirectory dstV)
  else .ok ()

/-- Whether `rejectRenameOntoNonemptyDir` has a directory to look into. -/
def renameOntoDir (dstRel dstV : GoString) : Bool :=
  match m.overlay.entries dstRel with
  | some entry => entry.kind = .directory
  | none =>
    match resolveVirtualPath dstV m.root.virtualPath with
    | .error _ => false
    | .ok target => hostIsDir host (dirOp target)

def rejectRenameOntoNonemptyDir (dstRel dstV : GoString) : Except MountError Unit :=
  if !renameOntoDir m host dstRel dstV then .ok ()
  else if m.overlayDirectoryHasChildren dstRel then .error (directoryNotEmpty dstV)
  else
    match resolveVirtualPath dstV m.root.virtualPath with
    | .error _ => .ok ()
    | .ok target =>
      if hostIsDir host (dirOp target) then do
        let visible ← m.realDirectoryHasVisibleChildren host dstRel (dirOp target) dstV
        if visible then .error (directoryNotEmpty dstV) else pure ()
      else .ok ()

/-! ## Capturing the real tree below the source -/

/-- A directory `collectRealDescendants` still has to read. -/
structure Pending where
  rel : GoString
  pre : GoString
  deriving DecidableEq, Repr

/-- A captured real descendant: its key and the entry it moves as. -/
structure RealMove where
  oldKey : GoString
  entry : OverlayEntry
  deriving DecidableEq, Repr

/-- What `collectRealDescendants` keeps while it walks. -/
structure Collected where
  usage : UInt64
  result : List RealMove
  dirs : List Pending

/-- The callback of `collectRealDescendants` on one entry of `current`. -/
def collectEntry (handled : List GoString) (vpath : GoString) (budget : MemoryBudget)
    (now : Float64) (current : Pending) (c : Collected) (entry : GoString × Node) :
    Except MountError Collected :=
  let (name, node) := entry
  if !validString name then
    .error (.io .invalidData (lit "directory contains an entry with a non-UTF-8 name") vpath)
  else
    let key := current.pre ++ name
    if key ∈ handled ∨ m.overlay.entries key ≠ none then .ok c
    else if node.isSymlink then .error (.pathEscape vpath)
    else
      let childRel := joinMountRelative current.rel name
      if node.isRegular then
        match fileRefFromRelative host childRel with
        | none => .ok c
        | some ref => do
          let usage := satAdd (satAdd (satAdd c.usage (UInt64.ofNat key.length))
            (UInt64.ofNat ref.relative.length)) realDescendantMemoryUsage
          budget.check usage
          pure { c with usage := usage, result := c.result ++ [{ oldKey := key, entry := ref }] }
      else if node.isDir then do
        let usage := satAdd (satAdd (satAdd c.usage (satMul (UInt64.ofNat key.length) 2))
          (UInt64.ofNat childRel.length)) realDescendantMemoryUsage
        budget.check usage
        pure {
          usage := usage
          result := c.result ++
            [{ oldKey := key, entry := directoryEntry (hostDirMtime host childRel now) }]
          dirs := { rel := childRel, pre := key ++ lit "/" } :: c.dirs }
      else .ok c

/-- The loop of `collectRealDescendants`: the directory pushed last is read next.  Every
round reads a directory of the host tree that no other round reads, so the number of
nodes bounds the rounds. -/
def collectLoop (handled : List GoString) (vpath : GoString) (budget : MemoryBudget)
    (now : Float64) : ℕ → Collected → Except MountError (List RealMove)
  | fuel, c =>
    match c.dirs with
    | [] => .ok c.result
    | current :: dirs =>
      match fuel with
      | 0 => .error (.io .other (lit "the walk does not end") vpath)
      | fuel + 1 =>
        match openDir host current.rel with
        | .error err => .error (mapIo err vpath)
        | .ok f =>
          match eachDirEntry f vpath
              (collectEntry m host handled vpath budget now current)
              { c with dirs := dirs } with
          | .error e => .error e
          | .ok c' => collectLoop handled vpath budget now fuel c'

def collectRealDescendants (rootRel pre : GoString) (handled : List GoString) (vpath : GoString)
    (budget : MemoryBudget) (now : Float64) : Except MountError (List RealMove) :=
  collectLoop m host handled vpath budget now host.nodes {
    usage := satAdd (UInt64.ofNat rootRel.length) (UInt64.ofNat pre.length)
    result := []
    dirs := [{ rel := rootRel, pre := pre }] }

/-- The errors of the capture that `overlayRename` returns; any other one it drops, with
everything captured so far. -/
def isReported : MountError → Bool
  | .memoryLimit _ | .pathEscape _ => true
  | .io kind _ _ => kind = .invalidData
  | _ => false

/-! ## The plan -/

/-- What a rename is going to do. -/
structure RenamePlan where
  srcRel : GoString
  dstRel : GoString
  /-- The source's entry, from the overlay or made for the real source. -/
  source : OverlayEntry
  /-- Old and new key of the overlay entries below the source. -/
  overlayMoves : List (GoString × GoString)
  /-- New key of the captured real descendants. -/
  realMoves : List (RealMove × GoString)
  deriving DecidableEq, Repr

/-- Whether the source is a directory; a deleted source is refused. -/
def renameSrcIsDir (srcRel srcV : GoString) : Except MountError Bool :=
  match m.overlay.entries srcRel with
  | some entry =>
    if entry.kind = .deleted then .error (notFound srcV) else .ok (entry.kind = .directory)
  | none => do
    let target ← m.resolveReal host srcV
    pure (hostIsDir host (dirOp target))

/-- The entry the source moves as: its overlay entry, or one made for the real source. -/
def renameSource (srcRel srcV : GoString) (now : Float64) : Except MountError OverlayEntry :=
  match m.overlay.entries srcRel with
  | some entry => .ok entry
  | none => do
    let target ← m.resolveReal host srcV
    let op := dirOp target
    let kind ← classifyTarget host op srcV
    match kind with
    | .file =>
      match fileRefFromRelative host op with
      | none => .error (notFound srcV)
      | some ref => pure ref
    | .dir => pure (directoryEntry (hostDirMtime host op now))
    | .symlink => .error (.pathEscape srcV)
    | .absent => .error (notFound srcV)

/-- The memory the plan for the overlay children takes. -/
def planUsage (srcPrefix dstPrefix : GoString) (childKeys : List GoString) : UInt64 :=
  childKeys.foldl (fun usage key =>
    let suffix := UInt64.ofNat key.length - UInt64.ofNat srcPrefix.length
    satAdd (satAdd (satAdd usage (satMul (UInt64.ofNat key.length) 2))
      (satAdd (UInt64.ofNat dstPrefix.length) suffix)) entryMemoryUsage) 0

/-- The real descendants below the source, as the rename takes them along. -/
def renameRealMoves (srcV srcPrefix : GoString) (handled : List GoString)
    (remaining : MemoryBudget) (now : Float64) : Except MountError (List RealMove) :=
  match m.resolveReal host srcV with
  | .error _ => .ok []
  | .ok target =>
    if hostIsDir host (dirOp target) then
      match collectRealDescendants m host (dirOp target) srcPrefix handled srcV remaining now with
      | .ok children => .ok children
      | .error e => if isReported e then .error e else .ok []
    else .ok []

/-- The moves below the source; only a directory has any. -/
def renameMoves (srcIsDir : Bool) (srcRel dstRel srcV : GoString) (now : Float64) :
    Except MountError (List (GoString × GoString) × List (RealMove × GoString)) :=
  if !srcIsDir then .ok ([], [])
  else do
    let srcPrefix := srcRel ++ lit "/"
    let dstPrefix := dstRel ++ lit "/"
    let childKeys := m.overlay.prefixKeys srcPrefix
    let available ← m.availableMemory
    let remaining ← available.shrink (planUsage srcPrefix dstPrefix childKeys)
    let children ← renameRealMoves m host srcV srcPrefix childKeys remaining now
    pure (childKeys.map fun key => (key, dstPrefix ++ key.drop srcPrefix.length),
      children.map fun child => (child, dstPrefix ++ trimPrefix child.oldKey srcPrefix))

/-- A destination without an entry has to resolve on the host. -/
def rejectUnresolvedDst (dstRel dstV : GoString) : Except MountError Unit :=
  match m.overlay.entries dstRel with
  | some _ => .ok ()
  | none => (m.resolveReal host dstV).map fun _ => ()

/-- The checks for a source directory: the destination is empty and not below it. -/
def rejectRenameOfDir (srcIsDir : Bool) (srcRel dstRel srcV dstV : GoString) :
    Except MountError Unit :=
  if !srcIsDir then .ok ()
  else do
    rejectRenameOntoNonemptyDir m host dstRel dstV
    if hasPrefix dstRel (srcRel ++ lit "/") then
      .error (.io .invalidInput (lit "Invalid argument") srcV)
    else pure ()

/-- The mount root is neither source nor destination. -/
def rejectRenameOfRoot (srcRel dstRel srcV dstV : GoString) : Except MountError Unit :=
  if srcRel = [] then .error (.pathEscape srcV)
  else if dstRel = [] then .error (.pathEscape dstV)
  else .ok ()

/-- The checks and the plan of `overlayRename`. -/
def renamePlan (srcV dstV : GoString) (now : Float64) : Except MountError RenamePlan := do
  let srcRel ← resolveVirtualPath srcV m.root.virtualPath
  let dstRel ← resolveVirtualPath dstV m.root.virtualPath
  rejectRenameOfRoot srcRel dstRel srcV dstV
  m.ensureParentExists host dstRel dstV
  rejectUnresolvedDst m host dstRel dstV
  m.ensureParentExists host srcRel srcV
  let srcIsDir ← renameSrcIsDir m host srcRel srcV
  rejectRenameTypeMismatch m host dstRel srcIsDir dstV
  rejectRenameOfDir m host srcIsDir srcRel dstRel srcV dstV
  let source ← renameSource m host srcRel srcV now
  let moves ← renameMoves m host srcIsDir srcRel dstRel srcV now
  pure {
    srcRel := srcRel
    dstRel := dstRel
    source := source
    overlayMoves := moves.1
    realMoves := moves.2 }

/-! ## The commit -/

/-- The replacements that `checkReplacements` projects as one update. -/
def RenamePlan.batch (plan : RenamePlan) (st : OverlayState) : List (GoString × OverlayEntry) :=
  [(plan.srcRel, deletedEntry), (plan.dstRel, plan.source)] ++
    plan.overlayMoves.flatMap (fun move =>
      [(move.1, deletedEntry), (move.2, (st.entries move.1).getD deletedEntry)]) ++
    plan.realMoves.flatMap (fun move => [(move.1.oldKey, deletedEntry), (move.2, move.1.entry)])

/-- A move with the entry it carries: old key, new key, entry. -/
abbrev Descendant := GoString × GoString × OverlayEntry

/-- Takes the overlay entries below the source out, one after another. -/
def removeMoves : List (GoString × GoString) → OverlayState → List Descendant × OverlayState
  | [], st => ([], st)
  | (oldKey, newKey) :: rest, st =>
    let (entry, st) := st.remove oldKey
    let (moves, st) := removeMoves rest st
    ((oldKey, newKey, entry.getD deletedEntry) :: moves, st)

/-- Puts a deletion under the old and the entry under the new key of each move. -/
def insertMoves (st : OverlayState) (moves : List Descendant) : OverlayState :=
  moves.foldl (fun st move =>
    (st.insertUnchecked move.1 deletedEntry).insertUnchecked move.2.1 move.2.2) st

/-- The commit of `overlayRename`. -/
def RenamePlan.commit (plan : RenamePlan) (st : OverlayState) : OverlayState :=
  let (removed, st) := st.remove plan.srcRel
  let entry := removed.getD plan.source
  let (moved, st) := removeMoves plan.overlayMoves st
  let descendants := moved ++ plan.realMoves.map fun move => (move.1.oldKey, move.2, move.1.entry)
  let st := st.insertUnchecked plan.srcRel deletedEntry
  let st := st.insertUnchecked plan.dstRel entry
  insertMoves st descendants

def overlayRename (srcV dstV : GoString) (now : Float64) : MountM Unit := do
  let plan ← check fun m => do
    let plan ← renamePlan m host srcV dstV now
    m.overlay.checkReplacements (plan.batch m.overlay) m.memLimit
    pure plan
  update fun m => .ok ((), { m with overlay := plan.commit m.overlay })

/-! ## Dispatch -/

/-- The calls that resolve their path first. -/
def overlayOnPath (path : GoString) (f : GoString → MountM OsResult) : MountM OsResult := do
  let rel ← check fun m => resolveVirtualPath path m.root.virtualPath
  f rel

def overlayExecute (call : OsCall) (now : Float64) : MountM OsResult :=
  match call with
  | .resolve path | .absolute path => pure (.path (normalizeVirtualPath path))
  | .writeText path text => do
    let n ← overlayWrite host path text (runeCount text) now
    pure (.int n)
  | .writeBytes path data => do
    let n ← overlayWrite host path data data.length now
    pure (.int n)
  | .appendText path text => do
    overlayAppend host path text now
    pure (.int (runeCount text))
  | .appendBytes path data => do
    overlayAppend host path data now
    pure (.int data.length)
  | .rename path dst => do
    overlayRename host path dst now
    pure .none
  | .open path mode => overlayOpen host path mode now
  | .exists path => overlayOnPath path fun rel => do
    let b ← check fun m => overlayPredicate m host rel path (· ≠ .deleted) hostExists
    pure (.bool b)
  | .isFile path => overlayOnPath path fun rel => do
    let b ← check fun m =>
      overlayPredicate m host rel path (fun k => k = .file ∨ k = .realFileRef) hostIsFile
    pure (.bool b)
  | .isDir path => overlayOnPath path fun rel => do
    let b ← check fun m => overlayPredicate m host rel path (· = .directory) hostIsDir
    pure (.bool b)
  | .isSymlink path => overlayOnPath path fun rel => do
    let b ← check fun m => .ok (overlayIsSymlink m host rel path)
    pure (.bool b)
  | .readText path => overlayOnPath path fun rel => do
    let text ← check fun m => do
      let content ← overlayRead m host rel path
      bytesToUTF8 content
    pure (.text text)
  | .readBytes path => overlayOnPath path fun rel => do
    let content ← check fun m => overlayRead m host rel path
    pure (.bytes content)
  | .mkdir path parents existOK => overlayOnPath path fun rel => do
    overlayMkdir host rel parents existOK path now
    pure .none
  | .unlink path => overlayOnPath path fun rel => do
    overlayUnlink host rel path
    pure .none
  | .rmdir path => overlayOnPath path fun rel => do
    overlayRmdir host rel path
    pure .none
  | .iterdir path => overlayOnPath path fun rel => do
    let paths ← check fun m => overlayIterdir m host rel path
    pure (.paths paths)
  | .stat path => overlayOnPath path fun rel => do
    let s ← check fun m => overlayStat m host rel path
    pure (.stat s)

end Montygo.MountFs
