import Montygo.Wire.Event
import Montygo.Go.Format
import Montygo.Lib.WireSize
import Mathlib.Algebra.Order.BigOperators.Group.List

/-!
# The text of an exception

`Render` writes an exception that a worker has raised as a traceback.  Strings of the payload
stand in it at most once, so that a text without carets is linear in the payload.  The spaces and
carets under a line are as many as the columns say, and a column is a number: they are what a
small payload can make large.
-/

namespace Montygo.Wire

open Go WireFormat Fallible

/-! ## Writing -/

def repeatFramesShown : ℕ := 3

def framesIdentical (a b : Frame) : Bool :=
  if a.filename ≠ b.filename ∨ a.start.line ≠ b.start.line then false
  else
    match a.frameName, b.frameName with
    | none, none => true
    | some m, some n => m = n
    | _, _ => false

/-- The column where the carets start. -/
def caretStart (f : Frame) (leading : ℕ) : ℕ :=
  if f.start.column.toNat > leading then 4 + f.start.column.toNat - leading - 1 else 4

/-- The number of carets; the difference of the columns may be negative. -/
def caretLen (f : Frame) : ℕ := max 1 (f.stop.column.toNat - f.start.column.toNat)

/-- The number of frames in front that are identical to the first. -/
def repeats (frame : Frame) (rest : List Frame) : ℕ :=
  1 + (rest.takeWhile (framesIdentical frame)).length

variable {P : Protowire} {budget budget' : Budget}

/-- The bytes of the line of carets that is written for a frame. -/
def Frame.caretRoom (f : Frame) : ℕ :=
  match f.previewLine with
  | none => 0
  | some line =>
    if f.start.line ≠ f.stop.line ∨ f.hideCaret = true then 0
    else caretStart f (line.length - (trimLeftSpace line).length) + caretLen f + 1

/-- The bytes of carets under the frames that the loop of `Render` writes. -/
def shownCarets : ℕ → List Frame → ℕ
  | 0, _ | _, [] => 0
  | rounds + 1, frame :: rest =>
    let count := repeats frame rest
    ((((frame :: rest).take count).take repeatFramesShown).map Frame.caretRoom).sum +
      shownCarets rounds ((frame :: rest).drop count)

/-- The bytes of carets in the text of an exception. -/
def RaisedException.caretRoom (e : RaisedException) : ℕ := shownCarets e.traceback.length e.traceback

end Montygo.Wire
