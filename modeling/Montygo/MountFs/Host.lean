import Montygo.MountFs.Memory
import Montygo.MountFs.Utf8
import Montygo.Lib.Outcome

/-!
# The host directory

A mount reads its host directory through an `os.Root`.  `Node` is the tree the
root opens: regular files, directories, symbolic links and special files (FIFOs,
sockets, devices), with what the operating system may refuse for each.  The
operations of `os.Root` follow its documentation: a path is resolved inside the
root, symbolic links are followed as long as they stay inside, and a link that
leads out is refused.

On top of them stand the host functions of the mount, as the source has them.
-/

namespace Montygo.MountFs

open Go Outcome

/-- A refusal to open a directory that is there: any error but that it is missing. -/
abbrev Refusal := { err : HostError // isMissing err = false }

/-- What the operating system refuses on a directory. -/
structure DirAccess where
  /-- Looking up a name in it. -/
  lookup : Option HostError := none
  /-- Opening it, as a root of its own or to read its entries: both open it for reading. -/
  opens : Option Refusal := none
  /-- Reading its entries, after that many of them. -/
  readDir : Option (ℕ × HostError) := none
  deriving DecidableEq, Repr

/-- A host file tree. -/
inductive Node where
  | file (content : Bytes) (mtime : Float64) (openFile : Option HostError)
  | dir (children : List (GoString × Node)) (mtime : Float64) (access : DirAccess)
  | symlink (target : GoString)
  | special (mtime : Float64)

namespace Node

def isDir : Node → Bool
  | .dir _ _ _ => true
  | .file _ _ _ | .symlink _ | .special _ => false

def isRegular : Node → Bool
  | .file _ _ _ => true
  | .dir _ _ _ | .symlink _ | .special _ => false

/-- The symbolic link bit of the mode. -/
def isSymlink : Node → Bool
  | .symlink _ => true
  | .file _ _ _ | .dir _ _ _ | .special _ => false

/-- `Size()`. -/
def size : Node → ℕ
  | .file content _ _ => content.length
  | .dir _ _ _ => 4096
  | .symlink target => target.length
  | .special _ => 0

/-- `mtimeSecs`. -/
def mtime : Node → Float64
  | .file _ mtime _ => mtime
  | .dir _ mtime _ => mtime
  | .symlink _ => 0
  | .special mtime => mtime

mutual

/-- The number of nodes of a tree. -/
def nodes : Node → ℕ
  | .dir children _ _ => 1 + nodesList children
  | .file _ _ _ | .symlink _ | .special _ => 1

/-- The number of nodes below a directory. -/
def nodesList : List (GoString × Node) → ℕ
  | [] => 0
  | child :: rest => nodesPair child + nodesList rest

/-- The number of nodes of one child. -/
def nodesPair : GoString × Node → ℕ
  | (_, node) => nodes node

end

/-- The result of looking up one name in an open directory. -/
def child (n : Node) (name : GoString) : Except HostError Node :=
  match n with
  | .dir children _ access =>
    match access.lookup with
    | some err => .error err
    | none =>
      match children.find? (·.1 = name) with
      | some entry => .ok entry.2
      | none => .error .enoent
  | .file _ _ _ | .symlink _ | .special _ => .error .enotdir

end Node

/-! ## Resolution inside a root -/

/-- The symbolic links `os.Root` follows in one resolution. -/
def rootMaxSymlinks : ℕ := 8

/-- Resolves the names one after another from `cur`, whose ancestors are `up`.
`onLink` continues at a symbolic link that has to be followed: every link but a last
one, and the last one too when `follow` is set. -/
def resolveFrom (onLink : Node → List Node → GoString → List GoString → Except HostError Node)
    (follow : Bool) : Node → List Node → List GoString → Except HostError Node
  | cur, _, [] => .ok cur
  | cur, up, name :: rest =>
    if !cur.isDir then .error .enotdir
    else if name = [] ∨ name = lit "." then resolveFrom onLink follow cur up rest
    else if name = lit ".." then
      match up with
      | [] => .error .escapes
      | parent :: above => resolveFrom onLink follow parent above rest
    else
      match cur.child name with
      | .error err => .error err
      | .ok next =>
        match next with
        | .symlink target =>
          if rest = [] ∧ follow = false then .ok next else onLink cur up target rest
        | _ => resolveFrom onLink follow next (cur :: up) rest

/-- Resolves the names with at most `links` symbolic links on the way.  An absolute link
leads out of the root. -/
def resolve (follow : Bool) : ℕ → Node → List Node → List GoString → Except HostError Node
  | 0 =>
    resolveFrom (fun _ _ _ _ => .error (.errno (.other 40) (lit "too many levels of symbolic links")))
      follow
  | links + 1 =>
    resolveFrom (fun cur up target rest =>
      if hasPrefix target (lit "/") then .error .escapes
      else resolve follow links cur up (split target ++ rest)) follow

def lstat (dir : Node) (rel : GoString) : Except HostError Node :=
  resolve false rootMaxSymlinks dir [] (split rel)

def stat (dir : Node) (rel : GoString) : Except HostError Node :=
  resolve true rootMaxSymlinks dir [] (split rel)

def openRoot (dir : Node) (rel : GoString) : Except HostError Node :=
  match stat dir rel with
  | .error err => .error err
  | .ok node =>
    match node with
    | .dir _ _ access =>
      match access.opens with
      | some refusal => .error refusal.1
      | none => .ok node
    | .file _ _ _ | .symlink _ | .special _ => .error .enotdir

/-- An open directory: the entries its `ReadDir` calls deliver, in host order, and the
error they end in, if any. -/
structure DirStream where
  entries : List (GoString × Node)
  failure : Option HostError

/-- `openDir`: `os.Root.OpenFile` with `O_DIRECTORY`. -/
def openDir (dir : Node) (rel : GoString) : Except HostError DirStream :=
  match stat dir rel with
  | .error err => .error err
  | .ok node =>
    match node with
    | .dir children _ access =>
      match access.opens with
      | some refusal => .error refusal.1
      | none =>
        match access.readDir with
        | none => .ok { entries := children, failure := none }
        | some (count, err) => .ok { entries := children.take count, failure := some err }
    | .file _ _ _ | .symlink _ | .special _ => .error .enotdir

/-- `os.Root.OpenFile` for reading. -/
def openFile (dir : Node) (rel : GoString) : Except HostError Node :=
  match stat dir rel with
  | .error err => .error err
  | .ok node =>
    match node with
    | .file _ _ refused =>
      match refused with
      | some err => .error err
      | none => .ok node
    | .dir _ _ access =>
      match access.opens with
      | some refusal => .error refusal.1
      | none => .ok node
    | .symlink _ | .special _ => .ok node

/-! ## The host functions of the mount -/

/-- The stat tuple's fields that depend on the file; the others are zero or repeat
`mtime`. -/
structure StatResult where
  mode : ℕ
  nlink : ℕ
  size : ℕ
  mtime : Float64
  deriving DecidableEq, Repr

/-- `fileStat`: mode `0o100644`. -/
def fileStat (size : ℕ) (mtime : Float64) : StatResult := ⟨33188, 1, size, mtime⟩

/-- `dirStat`: mode `0o040755`. -/
def dirStat (mtime : Float64) : StatResult := ⟨16877, 2, 4096, mtime⟩

/-- `hostDirMtime`; `now` is `currentTimestamp`. -/
def hostDirMtime (dir : Node) (rel : GoString) (now : Float64) : Float64 :=
  match stat dir rel with
  | .ok node => node.mtime
  | .error _ => now

def hostExists (dir : Node) (rel : GoString) : Bool :=
  match stat dir rel with
  | .ok _ => true
  | .error _ => false

def hostIsDir (dir : Node) (rel : GoString) : Bool :=
  match stat dir rel with
  | .ok node => node.isDir
  | .error _ => false

def hostIsFile (dir : Node) (rel : GoString) : Bool :=
  match stat dir rel with
  | .ok node => node.isRegular
  | .error _ => false

def hostIsSymlink (dir : Node) (rel : GoString) : Bool :=
  match lstat dir rel with
  | .ok node => node.isSymlink
  | .error _ => false

def hostStat (dir : Node) (rel vpath : GoString) : Except MountError StatResult :=
  match stat dir rel with
  | .error err => .error (mapIo err vpath)
  | .ok node => .ok (if node.isDir then dirStat node.mtime else fileStat node.size node.mtime)

def rejectNonRegular (dir : Node) (rel vpath : GoString) : Except MountError Unit :=
  match stat dir rel with
  | .error _ => .ok ()
  | .ok node =>
    if node.isDir then .error (isADirectory vpath)
    else if !node.isRegular then .error (permissionDenied vpath)
    else .ok ()

/-- `openRegular` for reading. -/
def openRegular (dir : Node) (rel vpath : GoString) : Except MountError Node :=
  match openFile dir rel with
  | .error err => .error (mapIo err vpath)
  | .ok node =>
    if node.isRegular then .ok node
    else if node.isDir then .error (isADirectory vpath)
    else .error (permissionDenied vpath)

/-- The bytes an open file gives to `readAtMost`. -/
def Node.content : Node → Bytes
  | .file content _ _ => content
  | .dir _ _ _ | .symlink _ | .special _ => []

def readFileLimited (dir : Node) (rel vpath : GoString) (budget : MemoryBudget) :
    Except MountError Bytes := do
  rejectNonRegular dir rel vpath
  let f ← openRegular dir rel vpath
  budget.check (UInt64.ofNat f.size)
  let content := f.content.take (satAdd budget.available 1).toNat
  budget.check (UInt64.ofNat content.length)
  pure content

/-- `eachDirEntry`: `fn` runs over the entries until it fails, then the error the
listing ended in is reported. -/
def eachDirEntry {σ : Type} (f : DirStream) (vpath : GoString)
    (fn : σ → GoString × Node → Except MountError σ) (init : σ) : Except MountError σ := do
  let last ← f.entries.foldlM fn init
  match f.failure with
  | none => pure last
  | some err => .error (mapIo err vpath)

def joinMountRelative (rel child : GoString) : GoString :=
  if rel = [] ∨ rel = lit "." then child else rel ++ slash :: child

/-- `hostListVisibleDirEntryNames` hides symbolic links that do not resolve inside the
mount. -/
def hostListVisibleDirEntryNames (dir : Node) (rel vpath : GoString) (budget : MemoryBudget) :
    Except MountError (List GoString) :=
  match stat dir rel with
  | .error err => .error (mapIo err vpath)
  | .ok _ =>
    match openDir dir rel with
    | .error err => .error (mapIo err vpath)
    | .ok f => do
      let (names, _) ← eachDirEntry f vpath
        (fun (state : List GoString × UInt64) entry =>
          if entry.2.isSymlink && !hostExists dir (joinMountRelative rel entry.1) then .ok state
          else do
            let name := lossyUTF8 entry.1
            let usage := satAdd (satAdd state.2 (UInt64.ofNat name.length)) listingEntryMemoryUsage
            budget.check usage
            pure (state.1 ++ [name], usage))
        ([], 0)
      pure names

end Montygo.MountFs
