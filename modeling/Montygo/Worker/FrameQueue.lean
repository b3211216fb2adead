import Montygo.Wire.Event
import Montygo.Lib.Transition
import Mathlib.Algebra.BigOperators.Group.List.Basic

/-!
# The queue between a worker and its reader

A goroutine reads the worker's frames and pushes them into a queue, from which the turns pop them.
The queue is bounded by the bytes it holds: a push waits while the queue holds something and would
grow past the bound.  The bytes are an `int64`.

The bytes stay within the bound or one frame.  The frames do not: a frame without bytes adds nothing
to what the bound looks at, so any number of them is queued (`empty_frames_unbounded`).
-/

namespace Montygo.Worker

open Go Transition Wire

/-! ## Reading frames -/

/-- Why a read, or the queue, ended. -/
inductive StreamError where
  | eof
  | truncated
  | tooLarge (size : ℕ)
  | workerGone
  deriving DecidableEq

/-- `binary.LittleEndian.Uint32`. -/
def littleEndian (b0 b1 b2 b3 : UInt8) : ℕ :=
  b0.toNat + 2 ^ 8 * b1.toNat + 2 ^ 16 * b2.toNat + 2 ^ 24 * b3.toNat

/-- `Next` on what the worker has written and was not read: the frame and the rest.  `none` while
more has to come; `ended` when nothing will. -/
def next (stream : Bytes) (ended : Bool) : Option (Except StreamError (Bytes × Bytes)) :=
  match stream with
  | b0 :: b1 :: b2 :: b3 :: rest =>
    let size := littleEndian b0 b1 b2 b3
    if maxFrameLen < size then some (.error (.tooLarge size))
    else if rest.length < size then if ended then some (.error .truncated) else none
    else some (.ok (rest.take size, rest.drop size))
  | [] => if ended then some (.error .eof) else none
  | _ => if ended then some (.error .truncated) else none

/-! ## The queue -/

structure FrameQueue where
  frames : List Bytes := []
  bytes : Int64 := 0
  maxBytes : Int64
  err : Option StreamError := none
  closed : Bool := false

/-- What a push does: it waits for space, or it returns. -/
inductive Pushed where
  | waits
  | gone
  | pushed (q : FrameQueue)

namespace FrameQueue

variable (q : FrameQueue)

/-- The condition under which a push waits. -/
def full (n : Int64) : Bool := 0 < q.maxBytes && 0 < q.bytes && q.maxBytes < q.bytes + n

def push (frame : Bytes) : Pushed :=
  let n := Int64.ofNat frame.length
  if q.full n then if q.closed then .gone else .waits
  else if q.closed then .gone
  else .pushed { q with frames := q.frames ++ [frame], bytes := q.bytes + n }

def fail (err : StreamError) : FrameQueue := { q with err := q.err.or (some err) }

def close : FrameQueue := { q with closed := true, err := q.err.or (some .workerGone) }

/-- `pop`: `none` while there is nothing to pop. -/
def pop : Option (Except StreamError Bytes × FrameQueue) :=
  match q.frames with
  | f :: rest => some (.ok f, { q with frames := rest, bytes := q.bytes - Int64.ofNat f.length })
  | [] =>
    match q.err with
    | some .workerGone => some (.error .truncated, q)
    | some err => some (.error err, q)
    | none => none

/-- The bytes of the frames in the queue. -/
def held : ℕ := (q.frames.map List.length).sum

end FrameQueue

/-! ## The reader -/

/-- Where `pumpFrames` stands. -/
inductive Reader where
  | reading
  | pushing (frame : Bytes)
  | stopped

/-- A worker's output, its reader and its queue. -/
structure Pump where
  stream : Bytes := []
  ended : Bool := false
  reader : Reader := .reading
  queue : FrameQueue

/-- One atomic move: the worker writes or ends, the reader reads or pushes, a turn pops, the worker
is killed. -/
inductive Move where
  | write (b : Bytes)
  | exit
  | read
  | push
  | pop
  | close

/-- One atomic move; `.error` when it has to wait. -/
def step (s : Pump) : Move → Except Unit Pump
  | .write b => if s.ended then .error () else .ok { s with stream := s.stream ++ b }
  | .exit => .ok { s with ended := true }
  | .read =>
    match s.reader with
    | .reading =>
      match next s.stream s.ended with
      | none => .error ()
      | some (.error err) => .ok { s with reader := .stopped, queue := s.queue.fail err }
      | some (.ok (frame, rest)) => .ok { s with stream := rest, reader := .pushing frame }
    | _ => .error ()
  | .push =>
    match s.reader with
    | .pushing frame =>
      match s.queue.push frame with
      | .waits => .error ()
      | .gone => .ok { s with reader := .stopped }
      | .pushed q => .ok { s with reader := .reading, queue := q }
    | _ => .error ()
  | .pop =>
    match s.queue.pop with
    | none => .error ()
    | some (_, q) => .ok { s with queue := q }
  | .close => .ok { s with queue := s.queue.close }

/-- A worker that was just spawned. -/
def Fresh (maxBytes : Int64) (s : Pump) : Prop := s = { queue := { maxBytes := maxBytes } }

/-! ## What the queue holds -/

/-- What a queue with this bound holds at most. -/
def bound (maxBytes : Int64) : ℕ := max maxBytes.toInt.toNat maxFrameLen

/-- The counter is what the frames hold, and within the bound. -/
structure Counted (maxBytes : Int64) (s : Pump) : Prop where
  limit : s.queue.maxBytes = maxBytes
  bytes : s.queue.bytes.toInt = s.queue.held
  held : s.queue.held ≤ bound maxBytes
  /-- What the reader is about to push fits in a frame. -/
  pushing : ∀ frame, s.reader = .pushing frame → frame.length ≤ maxFrameLen

variable {maxBytes : Int64} {s s' : Pump} {a : Move} {q q' : FrameQueue} {frame : Bytes}

theorem length_of_next {stream rest : Bytes} {ended : Bool}
    (h : next stream ended = some (.ok (frame, rest))) : frame.length ≤ maxFrameLen := by
  unfold next at h
  split at h
  · dsimp only at h
    split at h
    · cases h
    rename_i hsize
    split at h
    · split at h
      · cases h
      · cases h
    · cases h
      rw [List.length_take]
      omega
  all_goals
    split at h
    · cases h
    · cases h

theorem toInt_length (h : frame.length ≤ maxFrameLen) :
    (Int64.ofNat frame.length).toInt = frame.length := by
  rw [Int64.toInt_ofNat_of_lt]
  unfold maxFrameLen at h
  omega

theorem push_eq (h : q.push frame = .pushed q') : q.full (Int64.ofNat frame.length) = false ∧
      q' = { q with frames := q.frames ++ [frame], bytes := q.bytes + Int64.ofNat frame.length } := by
  unfold FrameQueue.push at h
  dsimp only at h
  split at h
  · split at h
    · cases h
    · cases h
  rename_i hfull
  split at h
  · cases h
  · cases h
    exact ⟨by simpa using hfull, rfl⟩

theorem held_append {b : Int64} :
    ({ q with frames := q.frames ++ [frame], bytes := b } : FrameQueue).held =
      q.held + frame.length := by
  simp [FrameQueue.held]

theorem toInt_add_length (hlen : frame.length ≤ maxFrameLen) (hbytes : q.bytes.toInt = q.held)
    (hheld : q.held ≤ bound maxBytes) (hfits : maxBytes.toInt + maxFrameLen < 2 ^ 63) :
    (q.bytes + Int64.ofNat frame.length).toInt = q.held + frame.length := by
  have hframe : maxFrameLen = 268435456 := rfl
  have hbound : (bound maxBytes : ℤ) + maxFrameLen < 2 ^ 63 := by
    unfold bound
    omega
  rw [Int64.toInt_add, hbytes, toInt_length hlen, Int.bmod_eq_of_le]
  · omega
  · omega

theorem held_of_not_full (hpos : 0 < maxBytes) (hlimit : q.maxBytes = maxBytes)
    (hlen : frame.length ≤ maxFrameLen) (hbytes : q.bytes.toInt = q.held)
    (hadd : (q.bytes + Int64.ofNat frame.length).toInt = q.held + frame.length)
    (hfull : q.full (Int64.ofNat frame.length) = false) :
    q.held + frame.length ≤ bound maxBytes := by
  unfold FrameQueue.full at hfull
  rw [hlimit, decide_eq_true hpos, Bool.true_and, Bool.and_eq_false_iff, decide_eq_false_iff_not,
    decide_eq_false_iff_not, Int64.lt_iff_toInt_lt, Int64.lt_iff_toInt_lt, hbytes, hadd,
    Int64.toInt_zero] at hfull
  unfold bound
  omega

theorem sum_erase_head {f : Bytes} {rest : List Bytes} (h : q.frames = f :: rest) {b : Int64} :
    ({ q with frames := rest, bytes := b } : FrameQueue).held + f.length = q.held := by
  simp only [FrameQueue.held, h, List.map_cons, List.sum_cons]
  omega

theorem counted_pop {r : Except StreamError Bytes} (hs : Counted maxBytes s)
    (hfits : maxBytes.toInt + maxFrameLen < 2 ^ 63) (h : s.queue.pop = some (r, q')) :
    Counted maxBytes { s with queue := q' } := by
  unfold FrameQueue.pop at h
  split at h
  · rename_i f rest hframes
    cases h
    have hheld := sum_erase_head (b := s.queue.bytes - Int64.ofNat f.length) hframes
    have hframe : maxFrameLen = 268435456 := rfl
    have hbound := hs.held
    have hle : (bound maxBytes : ℤ) < 2 ^ 63 := by
      unfold bound
      omega
    have hlen : (Int64.ofNat f.length).toInt = f.length := by
      rw [Int64.toInt_ofNat_of_lt]
      omega
    refine ⟨hs.limit, ?_, by dsimp only; omega, hs.pushing⟩
    dsimp only
    rw [Int64.toInt_sub, hs.bytes, hlen, Int.bmod_eq_of_le]
    · omega
    · omega
    · omega
  · split at h
    · cases h
      exact hs
    · cases h
      exact hs
    · cases h

/-- **Every move keeps the bytes within the bound.** -/
theorem counted_step (hpos : 0 < maxBytes) (hfits : maxBytes.toInt + maxFrameLen < 2 ^ 63)
    (hs : Counted maxBytes s) (h : step s a = .ok s') : Counted maxBytes s' := by
  cases a with
  | write b =>
    simp only [step] at h
    split at h
    · cases h
    · cases h
      exact ⟨hs.limit, hs.bytes, hs.held, hs.pushing⟩
  | exit | close =>
    cases h
    exact ⟨hs.limit, hs.bytes, hs.held, hs.pushing⟩
  | read =>
    simp only [step] at h
    split at h
    · split at h
      · cases h
      · cases h
        exact ⟨hs.limit, hs.bytes, hs.held, fun frame hframe => by cases hframe⟩
      · rename_i frame rest hnext
        cases h
        refine ⟨hs.limit, hs.bytes, hs.held, fun frame' hframe => ?_⟩
        cases hframe
        exact length_of_next hnext
    · cases h
  | push =>
    simp only [step] at h
    split at h
    · rename_i frame hreader
      have hlen := hs.pushing frame hreader
      split at h
      · cases h
      · cases h
        exact ⟨hs.limit, hs.bytes, hs.held, fun frame hframe => by cases hframe⟩
      · rename_i q hpush
        cases h
        obtain ⟨hfull, rfl⟩ := push_eq hpush
        have hadd := toInt_add_length hlen hs.bytes hs.held hfits
        refine ⟨hs.limit, ?_, ?_, fun frame hframe => by cases hframe⟩
        · rw [held_append]
          exact_mod_cast hadd
        · rw [held_append]
          exact held_of_not_full hpos hs.limit hlen hs.bytes hadd hfull
    · cases h
  | pop =>
    simp only [step] at h
    split at h
    · cases h
    rename_i hpop
    cases h
    exact counted_pop hs hfits hpop

/-! ## Frames without bytes -/

/-- The frame that is read next has bytes. -/
def ReadsBytes (s : Pump) (a : Move) : Prop :=
  a = .read → ∀ frame rest, next s.stream s.ended = some (.ok (frame, rest)) → frame ≠ []

/-- Every frame has bytes. -/
structure NonEmpty (s : Pump) : Prop where
  queued : ∀ frame ∈ s.queue.frames, frame ≠ []
  pushing : ∀ frame, s.reader = .pushing frame → frame ≠ []

theorem nonEmpty_step (hs : NonEmpty s) (hreads : ReadsBytes s a) (h : step s a = .ok s') :
    NonEmpty s' := by
  cases a with
  | write b =>
    simp only [step] at h
    split at h
    · cases h
    · cases h
      exact ⟨hs.queued, hs.pushing⟩
  | exit | close =>
    cases h
    exact ⟨hs.queued, hs.pushing⟩
  | read =>
    simp only [step] at h
    split at h
    · split at h
      · cases h
      · cases h
        exact ⟨hs.queued, fun frame hframe => by cases hframe⟩
      · rename_i frame rest hnext
        cases h
        refine ⟨hs.queued, fun frame' hframe => ?_⟩
        cases hframe
        exact hreads rfl frame rest hnext
    · cases h
  | push =>
    simp only [step] at h
    split at h
    · rename_i frame hreader
      split at h
      · cases h
      · cases h
        exact ⟨hs.queued, fun frame hframe => by cases hframe⟩
      · rename_i q hpush
        cases h
        obtain ⟨-, rfl⟩ := push_eq hpush
        refine ⟨fun frame' hmem => ?_, fun frame hframe => by cases hframe⟩
        obtain hmem | hmem := List.mem_append.mp hmem
        · exact hs.queued frame' hmem
        · rw [List.mem_singleton.mp hmem]
          exact hs.pushing frame hreader
    · cases h
  | pop =>
    simp only [step] at h
    split at h
    · cases h
    rename_i r q hpop
    cases h
    refine ⟨fun frame hmem => ?_, hs.pushing⟩
    unfold FrameQueue.pop at hpop
    split at hpop
    · rename_i f rest hframes
      cases hpop
      exact hs.queued frame (by rw [hframes]; exact List.mem_cons_of_mem _ hmem)
    · split at hpop
      · cases hpop
        exact hs.queued frame hmem
      · cases hpop
        exact hs.queued frame hmem
      · cases hpop

theorem length_le_sum {frames : List Bytes} (h : ∀ frame ∈ frames, frame ≠ []) :
    frames.length ≤ (frames.map List.length).sum := by
  induction frames with
  | nil => rfl
  | cons f rest ih =>
    have hf := List.length_pos_iff.mpr (h f List.mem_cons_self)
    have hrest := ih fun frame hmem => h frame (List.mem_cons_of_mem _ hmem)
    rw [List.map_cons, List.sum_cons, List.length_cons]
    omega

theorem counted_fresh (h : Fresh maxBytes s) : Counted maxBytes s := by
  cases h
  exact ⟨rfl, rfl, Nat.zero_le _, fun frame hframe => by cases hframe⟩

/-- **The queue is bounded**, for every bound that leaves room for one frame below `2 ^ 63`: it
never holds more bytes than the bound or one frame, and never more frames if none is empty. -/
theorem frame_queue_bounded {maxBytes : Int64} (hpos : 0 < maxBytes)
    (hfits : maxBytes.toInt + maxFrameLen < 2 ^ 63) :
    (∀ s, Reachable step (Fresh maxBytes) (fun _ _ => True) s → s.queue.held ≤ bound maxBytes) ∧
      ∀ s, Reachable step (Fresh maxBytes) ReadsBytes s →
        s.queue.frames.length ≤ bound maxBytes := by
  have hcounted {g : Pump → Move → Prop} {s : Pump} (h : Reachable step (Fresh maxBytes) g s) :
      Counted maxBytes s :=
    h.invariant (fun s => counted_fresh) fun s a s' hs _ => counted_step hpos hfits hs
  refine ⟨fun s hreach => (hcounted hreach).held, fun s hreach => ?_⟩
  have hnonEmpty : NonEmpty s := by
    refine hreach.invariant (fun s hfresh => ?_) fun s a s' => nonEmpty_step
    cases hfresh
    exact ⟨fun frame hmem => (by cases hmem), fun frame hframe => by cases hframe⟩
  exact (length_le_sum hnonEmpty.queued).trans (hcounted hreach).held

/-- A frame of one byte on the wire. -/
def oneByteFrame : Bytes := [1, 0, 0, 0, 65]

theorem frame_queue_bounded_oneByte :
    ∃ s, Reachable step (Fresh 1) ReadsBytes s ∧ s.queue.frames = [[65]] ∧
      s.queue.frames.length ≤ bound 1 := by
  have hpos : (0 : Int64) < 1 := by decide
  have hfits : (1 : Int64).toInt + maxFrameLen < 2 ^ 63 := by decide
  have hwritten : Reachable step (Fresh 1) ReadsBytes
      { stream := oneByteFrame, queue := { maxBytes := 1 } } :=
    .step (a := .write oneByteFrame) (.initial rfl) (fun h => by cases h) rfl
  have hreads : ReadsBytes { stream := oneByteFrame, queue := { maxBytes := 1 } } .read := by
    intro _ frame rest hnext
    cases hnext
    exact List.cons_ne_nil _ _
  have hread : Reachable step (Fresh 1) ReadsBytes
      { reader := .pushing [65], queue := { maxBytes := 1 } } := .step hwritten hreads rfl
  have hpushed := Reachable.step (a := .push) hread (fun h => by cases h) rfl
  exact ⟨_, hpushed, rfl, (frame_queue_bounded hpos hfits).2 _ hpushed⟩

/-- A queue of frames without bytes. -/
def flooded (k : ℕ) : Pump := { queue := { frames := List.replicate k [], maxBytes := 1 } }

theorem reachable_flooded (k : ℕ) : Reachable step (Fresh 1) (fun _ _ => True) (flooded k) := by
  induction k with
  | zero => exact .initial rfl
  | succ k ih =>
    have hwritten : Reachable step (Fresh 1) (fun _ _ => True)
        { flooded k with stream := [0, 0, 0, 0] } :=
      .step (a := .write [0, 0, 0, 0]) ih trivial rfl
    have hread : Reachable step (Fresh 1) (fun _ _ => True)
        { flooded k with reader := .pushing [] } :=
      .step (a := .read) hwritten trivial rfl
    have hpushed : step { flooded k with reader := .pushing [] } .push = .ok (flooded (k + 1)) := by
      unfold flooded
      rw [List.replicate_succ']
      rfl
    exact .step (a := .push) hread trivial hpushed

/-- Under the bound of one byte any number of frames is queued, if they are empty. -/
theorem empty_frames_unbounded :
    ¬ ∃ n, ∀ s, Reachable step (Fresh 1) (fun _ _ => True) s → s.queue.frames.length ≤ n := by
  rintro ⟨n, hn⟩
  have hlength := hn _ (reachable_flooded (n + 1))
  simp only [flooded, List.length_replicate] at hlength
  omega

end Montygo.Worker
