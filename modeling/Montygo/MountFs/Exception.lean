import Montygo.OsAccess.DecodeText
import Montygo.Wire.Event

/-!
# The exceptions of mount errors

A mount error is raised in the sandbox as the exception that CPython would raise.  Several errors
become one exception: the text of a host error is shown only where its kind says nothing.  How a
path and a number of bytes are spelled in a message is left open.
-/

namespace Montygo.MountFs

open Go Wire OsAccess

def newException (excType message : GoString) : RaisedException :=
  { excType := excType, message := some message }

namespace MountError

variable (stringRepr : GoString → GoString) (formatBytesPretty : UInt64 → GoString)

/-- The exception of an I/O error. -/
def ioException (kind : IoKind) (msg path : GoString) : RaisedException :=
  match kind with
  | .notFound =>
    newException (lit "FileNotFoundError")
      (lit "[Errno 2] No such file or directory: " ++ stringRepr path)
  | .alreadyExists =>
    newException (lit "FileExistsError") (lit "[Errno 17] File exists: " ++ stringRepr path)
  | .permissionDenied =>
    newException (lit "PermissionError") (lit "[Errno 13] Permission denied: " ++ stringRepr path)
  | .isADirectory =>
    newException (lit "IsADirectoryError") (lit "[Errno 21] Is a directory: " ++ stringRepr path)
  | .notADirectory =>
    newException (lit "NotADirectoryError") (lit "[Errno 20] Not a directory: " ++ stringRepr path)
  | .directoryNotEmpty =>
    newException (lit "OSError") (lit "[Errno 39] Directory not empty: " ++ stringRepr path)
  | .invalidFilename =>
    newException (lit "OSError") (lit "[Errno 36] File name too long: " ++ stringRepr path)
  | .other | .invalidInput | .invalidData =>
    newException (lit "OSError") (msg ++ lit ": " ++ stringRepr path)

/-- The exception for text that is not UTF-8. -/
def utf8Exception (u : Utf8Failure) : RaisedException :=
  { newException (lit "UnicodeDecodeError")
      (unicodeDecodeErrorMsg (lit "utf-8") u.firstByte u.start u.stop u.reason) with
    data := u.object.map fun object =>
      { unicode := some
          { encoding := lit "utf-8", objectBytes := object, start := UInt64.ofNat u.start,
            stop := UInt64.ofNat u.stop, reason := u.reason } } }

def exception : MountError → RaisedException
  | .noMountPoint path | .pathEscape path =>
    newException (lit "PermissionError") (lit "[Errno 13] Permission denied: " ++ stringRepr path)
  | .value msg => newException (lit "ValueError") msg
  | .readOnly path =>
    newException (lit "PermissionError")
      (lit "[Errno 30] Read-only file system: " ++ stringRepr path)
  | .crossMount path dst =>
    newException (lit "OSError")
      (lit "[Errno 18] Invalid cross-device link: " ++ stringRepr path ++ lit " -> " ++
        stringRepr dst)
  | .io kind msg path => ioException stringRepr kind msg path
  | .invalidUTF8 u => utf8Exception u
  | .invalidMount msg => newException (lit "TypeError") msg
  | .writeLimit limit =>
    newException (lit "OSError")
      (lit "disk write limit of " ++ formatBytesPretty limit ++ lit " exceeded")
  | .memoryLimit limit =>
    newException (lit "MemoryError")
      (lit "mount memory usage limit of " ++ formatBytesPretty limit ++ lit " exceeded")

variable {stringRepr formatBytesPretty} {err : HostError} {vpath : GoString}

theorem exception_of_isMissing (h : isMissing err = true) :
    (mapIo err vpath).exception stringRepr formatBytesPretty =
      (notFound vpath).exception stringRepr formatBytesPretty := by
  simp only [isMissing, Bool.and_eq_true, Bool.not_eq_true', beq_iff_eq] at h
  rw [mapIo, if_neg (by simp [h.1]), notFound, exception, exception, h.2]
  rfl

theorem exception_notFound_ne : (notFound vpath).exception stringRepr formatBytesPretty ≠
      (notADirectory vpath).exception stringRepr formatBytesPretty := by
  intro h
  have htype : lit "FileNotFoundError" = lit "NotADirectoryError" :=
    congrArg RaisedException.excType h
  exact absurd htype (by decide)

end MountError

end Montygo.MountFs
