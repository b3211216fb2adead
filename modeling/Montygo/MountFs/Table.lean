import Montygo.MountFs.Overlay

/-!
# The mount table

A table routes a call to one of its mounts by the path of the call.  Mounts are kept with the
longest virtual path first, so that the first one that covers a path is the closest.  `dispatch` is
`Table.handle` up to the call of the mount itself.
-/

namespace Montygo.MountFs

open Go Value

/-! ## Paths that are too long -/

def pathMax : ℕ := 4096
def nameMax : ℕ := 255
def depthMax : ℕ := 64
def errorPathEdge : ℕ := 20

/-- The loop of `isOverlong`, over what stands between the slashes. -/
def overlongFrom : ℕ → List GoString → Bool
  | _, [] => false
  | count, comp :: rest =>
    if count = depthMax then true
    else if nameMax < comp.length then true
    else overlongFrom (count + 1) rest

def isOverlong (path : GoString) : Bool :=
  if pathMax < path.length then true else overlongFrom 0 (split path)

/-- Where the runes of a string start, as `range` gives them; a byte that starts no rune counts as
one. -/
def runeStarts (path : GoString) : List ℕ :=
  ((runeLens path.length path).map (max 1)).scanl (· + ·) 0 |>.dropLast

def elideMiddle (path : GoString) : Option GoString :=
  let starts := runeStarts path
  let n := starts.length
  if n < 2 * errorPathEdge + 1 then none
  else
    some (path.take (starts.getD errorPathEdge 0) ++ lit "…" ++
      path.drop (starts.getD (n - errorPathEdge) 0))

def rejectOverlongPath (path : GoString) : Except MountError Unit :=
  if isOverlong path then
    .error (.io .invalidFilename (lit "File name too long") ((elideMiddle path).getD path))
  else .ok ()

/-! ## Calls -/

/-- `call.Path`. -/
def OsCall.primary : OsCall → GoString
  | .exists path | .isFile path | .isDir path | .isSymlink path | .readText path | .readBytes path
  | .stat path | .iterdir path | .resolve path | .absolute path | .unlink path | .rmdir path
  | .writeText path _ | .appendText path _ | .writeBytes path _ | .appendBytes path _
  | .open path _ | .mkdir path _ _ | .rename path _ => path

def OsCall.isExistenceCheck : OsCall → Bool
  | .exists _ | .isFile _ | .isDir _ | .isSymlink _ => true
  | _ => false

def OsCall.nullMessage (call : OsCall) (dst : Bool) : GoString :=
  match call with
  | .mkdir _ _ _ => lit "mkdir: embedded null character in path"
  | .unlink _ => lit "unlink: embedded null character in path"
  | .rmdir _ => lit "rmdir: embedded null character in path"
  | .stat _ => lit "stat: embedded null character in path"
  | .iterdir _ => lit "scandir: embedded null character in path"
  | .resolve _ => lit "lstat: embedded null character in path"
  | .rename _ _ =>
    if dst then lit "rename: embedded null character in dst"
    else lit "rename: embedded null character in src"
  | _ => lit "embedded null byte"

/-! ## The table -/

inductive Mode where
  | readOnly
  | readWrite
  | overlay
  deriving DecidableEq

structure Spec where
  root : Root
  mode : Mode
  writeBytesLimit : Option UInt64
  memoryUsageLimit : UInt64

/-- `Table`: a mount is known by the spec it was built from. -/
structure Table where
  mounts : List Spec := []
  firstPath : Option GoString := none

/-- `push`: behind the mounts with a longer virtual path. -/
def Table.push (t : Table) (m : Spec) : Table :=
  let longer : Spec → Bool := fun other => m.root.virtualPath.length < other.root.virtualPath.length
  { t with mounts := t.mounts.takeWhile longer ++ m :: t.mounts.dropWhile longer }

def newTable (specs : List Spec) : Table :=
  specs.foldl Table.push { firstPath := specs.head?.map (·.root.virtualPath) }

def pathMatchesMount (normalized mountVirtual : GoString) : Bool :=
  if mountVirtual = lit "/" ∨ normalized = mountVirtual then true
  else hasPrefix normalized mountVirtual && mountVirtual.length < normalized.length &&
    normalized[mountVirtual.length]? == some slash

/-- `findMount`; no mount is `-1`. -/
def Table.findMount (t : Table) (vpath : GoString) : Option ℕ :=
  let normalized := normalizeVirtualPath vpath
  t.mounts.findIdx? fun m => pathMatchesMount normalized m.root.virtualPath

/-- What a table does with a call. -/
inductive Dispatch where
  | unhandled
  /-- An existence check of a path that cannot exist. -/
  | absent
  | rejected (e : MountError)
  /-- The mount at this index executes the call. -/
  | executes (index : ℕ)

def Table.route (t : Table) (call : OsCall) : Dispatch :=
  let src := t.findMount call.primary
  match call with
  | .rename path dst =>
    match rejectOverlongPath dst with
    | .error e => .rejected e
    | .ok () =>
      if containsNullByte dst then .rejected (.value (call.nullMessage true))
      else
        match src, t.findMount dst with
        | none, none => .unhandled
        | some i, some j => if i = j then .executes i else .rejected (.crossMount path dst)
        | _, _ => .rejected (.crossMount path dst)
  | _ =>
    match src with
    | none => .unhandled
    | some i => .executes i

/-- `handle`, up to `execute`. -/
def Table.dispatch (t : Table) (call : OsCall) : Dispatch :=
  let rejection :=
    match rejectOverlongPath call.primary with
    | .error e => some e
    | .ok () =>
      if containsNullByte call.primary then some (.value (call.nullMessage false)) else none
  match rejection with
  | some e => if call.isExistenceCheck then .absent else .rejected e
  | none => t.route call

end Montygo.MountFs
