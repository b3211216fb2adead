import Montygo.Go.Strings

/-!
# Mount errors

`MountError` is the error of a mount operation, one constructor for each
`errKind` with the fields that kind carries.  `HostError` is what a call on the
opened host directory (an `os.Root`) can return, as far as the code looks at it:
the refusal to leave the directory, an errno, or any other error.
-/

namespace Montygo.MountFs

open Go

/-- `ioKind`: the class of an I/O error. -/
inductive IoKind where
  | other
  | notFound
  | alreadyExists
  | permissionDenied
  | isADirectory
  | notADirectory
  | directoryNotEmpty
  | invalidFilename
  | invalidInput
  | invalidData
  deriving DecidableEq, Repr

/-- `utf8Failure`: where and why file content is not UTF-8. -/
structure Utf8Failure where
  start : ℕ
  stop : ℕ
  firstByte : UInt8
  reason : GoString
  object : Option Bytes
  deriving DecidableEq, Repr

inductive MountError where
  | noMountPoint (path : GoString)
  | pathEscape (path : GoString)
  | value (msg : GoString)
  | readOnly (path : GoString)
  | crossMount (path dst : GoString)
  | io (kind : IoKind) (msg path : GoString)
  | invalidUTF8 (failure : Utf8Failure)
  | invalidMount (msg : GoString)
  | writeLimit (limit : UInt64)
  | memoryLimit (limit : UInt64)
  deriving DecidableEq, Repr

def notFound (vpath : GoString) : MountError :=
  .io .notFound (lit "No such file or directory") vpath

def isADirectory (vpath : GoString) : MountError := .io .isADirectory (lit "Is a directory") vpath

def notADirectory (vpath : GoString) : MountError :=
  .io .notADirectory (lit "Not a directory") vpath

def fileExists (vpath : GoString) : MountError := .io .alreadyExists (lit "File exists") vpath

def permissionDenied (vpath : GoString) : MountError :=
  .io .permissionDenied (lit "Permission denied") vpath

def directoryNotEmpty (vpath : GoString) : MountError :=
  .io .directoryNotEmpty (lit "Directory not empty") vpath

/-! ## Errors of the host directory -/

/-- The errno values the code tells apart. -/
inductive Errno where
  | enoent
  | eexist
  | eacces
  | eperm
  | eisdir
  | enotdir
  | enotempty
  | enametoolong
  | einval
  | other (number : ℕ)
  deriving DecidableEq, Repr

/-- The number of an errno on Linux. -/
def Errno.number : Errno → ℕ
  | .enoent => 2
  | .eexist => 17
  | .eacces => 13
  | .eperm => 1
  | .eisdir => 21
  | .enotdir => 20
  | .enotempty => 39
  | .enametoolong => 36
  | .einval => 22
  | .other number => number

/-- An error returned by the host directory; `text` is what `Error()` gives for the
innermost error. -/
inductive HostError where
  | escapes
  | errno (e : Errno) (text : GoString)
  | other (text : GoString)
  deriving DecidableEq, Repr

def isPathEscape : HostError → Bool
  | .escapes => true
  | .errno _ _ | .other _ => false

def ioKindOf : HostError → IoKind
  | .escapes | .other _ => .other
  | .errno e _ =>
    match e with
    | .enoent => .notFound
    | .eexist => .alreadyExists
    | .eacces | .eperm => .permissionDenied
    | .eisdir => .isADirectory
    | .enotdir => .notADirectory
    | .enotempty => .directoryNotEmpty
    | .enametoolong => .invalidFilename
    | .einval => .invalidInput
    | .other _ => .other

/-- The first letter of an errno text in upper case. -/
def capitalize : GoString → GoString
  | [] => []
  | c :: rest => if 97 ≤ c ∧ c ≤ 122 then (c - 97 + 65) :: rest else c :: rest

def ioDisplay : HostError → GoString
  | .escapes => lit "path escapes from parent"
  | .errno e text => capitalize text ++ lit " (os error " ++ lit (toString e.number) ++ lit ")"
  | .other text => text

def mapIo (err : HostError) (vpath : GoString) : MountError :=
  if isPathEscape err then .pathEscape vpath else .io (ioKindOf err) (ioDisplay err) vpath

/-- The host error for a missing name. -/
def HostError.enoent : HostError := .errno .enoent (lit "no such file or directory")

/-- The host error for looking a name up in something that is no directory. -/
def HostError.enotdir : HostError := .errno .enotdir (lit "not a directory")

/-- The condition under which the code takes a host error for a missing path. -/
def isMissing (err : HostError) : Bool := !isPathEscape err && ioKindOf err == .notFound

@[simp] theorem isMissing_enoent : isMissing .enoent = true := rfl

@[simp] theorem isMissing_enotdir : isMissing .enotdir = false := rfl

end Montygo.MountFs
