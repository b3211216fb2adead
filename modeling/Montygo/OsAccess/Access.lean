import Montygo.OsAccess.DecodeText
import Montygo.Lib.DirTree

/-!
# The in-memory file system

`OSAccess` answers the file calls of the sandbox from memory.  `New` builds its tree from a list of
files: it puts them in one after the other and makes the directories above a file where they are
missing.  Its files are numbered by their place in the list; a file keeps a path of its own beside
its place in the tree.
-/

namespace Montygo.OsAccess

open Go DirTree

/-! ## Paths -/

/-- `purePath`. -/
structure PurePath where
  root : GoString
  parts : List GoString
  deriving DecidableEq

def parsePath (s : GoString) : PurePath where
  root :=
    if hasPrefix s (lit "/") then
      if hasPrefix s (lit "//") && !hasPrefix s (lit "///") then lit "//" else lit "/"
    else []
  parts := (split s).filter fun seg => seg ≠ [] ∧ seg ≠ lit "."

namespace PurePath

variable (p : PurePath)

def string : GoString :=
  if p.root ++ joinSlash p.parts = [] then lit "." else p.root ++ joinSlash p.parts

def isAbs : Bool := p.root ≠ []

def allParts : List GoString := if p.root = [] then p.parts else p.root :: p.parts

def join (other : PurePath) : PurePath :=
  if other.isAbs then other else { p with parts := p.parts ++ other.parts }

end PurePath

/-! ## Files -/

/-- The content of a file; `other` is a value of another Go type. -/
inductive Content where
  | text (s : GoString)
  | bytes (b : Bytes)
  | other (goType : GoString)
  deriving DecidableEq, Inhabited

structure MemoryFile where
  path : GoString
  content : Content
  permissions : Int64
  deriving DecidableEq, Inhabited

def newMemoryFile (path : GoString) (content : Content) (permissions : Int64) : MemoryFile where
  path := (parsePath path).string
  content := content
  permissions := permissions

def MemoryFile.string (f : MemoryFile) : GoString :=
  let content := match f.content with
    | .text _ => lit "'...'"
    | .bytes _ | .other _ => lit "b'...'"
  lit "MemoryFile(path=" ++ f.path ++ lit ", content=" ++ content ++ lit ", permissions=" ++
    lit (toString f.permissions.toInt) ++ lit ")"

/-! ## The store -/

/-- `dir`. -/
abbrev Tree := Dir GoString ℕ

/-- `OSAccess`; the entries of `tree` are the roots of paths. -/
structure OSAccess where
  files : List MemoryFile
  tree : Tree
  deriving DecidableEq

/-- `entry`: what stands at a path; the empty one leads nowhere. -/
def OSAccess.entry (s : OSAccess) (p : PurePath) : Option (Entry GoString ℕ) :=
  if p.allParts = [] then none else walk (.dir s.tree) p.allParts

/-! ## Building -/

/-- The arguments of `NewMemoryFile` for a file that is given to `New`. -/
structure FileSpec where
  path : GoString
  content : Content
  permissions : Int64 := 420
  deriving DecidableEq

namespace FileSpec

variable (rootDir : GoString) (spec : FileSpec)

/-- The path at which `New` puts a file. -/
def place : PurePath :=
  let p := parsePath (parsePath spec.path).string
  if p.isAbs then p else (parsePath rootDir).join p

/-- The file as `New` leaves it: a relative path is the rebased one. -/
def file : MemoryFile :=
  let f := newMemoryFile spec.path spec.content spec.permissions
  if (parsePath f.path).isAbs then f else { f with path := (spec.place rootDir).string }

end FileSpec

/-- The loop of `New` for one file. -/
def putFile (files : List MemoryFile) (tree : Tree) (p : PurePath) (f : ℕ) : Except Raised Tree :=
  let made := tree.setdefaults p.allParts.dropLast
  match made.2 with
  | some other =>
    .error ⟨lit "ValueError", lit "Cannot put file " ++ (files.getD f default).string ++
      lit " within sub-directory of file " ++ (files.getD other default).string⟩
  | none =>
    .ok (made.1.within (·.set (p.allParts.getLast?.getD []) (.file f)) p.allParts.dropLast)

/-- The loop of `New`, from the file with a number on. -/
def putFiles (files : List MemoryFile) : Tree → List PurePath → ℕ → Except Raised Tree
  | tree, [], _ => .ok tree
  | tree, p :: rest, f => do
    let tree' ← putFile files tree p f
    putFiles files tree' rest (f + 1)

/-- The tree before the files are put into it: the root `/` is an empty directory. -/
def emptyTree : Tree := Dir.empty.set (lit "/") (.dir .empty)

/-- `New`. -/
def new (rootDir : GoString) (specs : List FileSpec) : Except Raised OSAccess :=
  if (parsePath rootDir).isAbs = false then
    .error ⟨lit "AssertionError",
      lit "Root directory must be absolute, got " ++ (parsePath rootDir).string⟩
  else do
    let files := specs.map (FileSpec.file rootDir)
    let tree ← putFiles files emptyTree (specs.map (FileSpec.place rootDir)) 0
    pure { files := files, tree := tree }

end Montygo.OsAccess
