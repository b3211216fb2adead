import Montygo.Worker.FrameQueue
import Mathlib.Algebra.Order.BigOperators.Group.List

/-!
# The order of the frame queue

The reader pushes and any number of turns pop, each step under the queue's lock; what waits on a
channel takes the lock again and looks anew.  The journal keeps, beside the queue, the frames that
were accepted and the frames that were popped, so that what is queued is always what lies between
the two.
-/

namespace Montygo.Worker

open Go Transition

/-- The bytes that a process can hold at once: they are counted by an `int`. -/
def memory : ℕ := 2 ^ 63

/-- A queue with the frames that it accepted and gave out. -/
structure Journal where
  queue : FrameQueue
  accepted : List Bytes := []
  popped : List Bytes := []

/-- One section under the lock: the reader tries to push, a turn tries to pop or leaves with its
context, the reader fails the queue, the worker is closed. -/
inductive QueueMove where
  | push (frame : Bytes)
  | pop
  | leave
  | fail (err : StreamError)
  | close

namespace Journal

def push (s : Journal) (frame : Bytes) : Except Unit Journal :=
  match s.queue.push frame with
  | .waits => .error ()
  | .gone => .ok s
  | .pushed q => .ok { s with queue := q, accepted := s.accepted ++ [frame] }

/-- A pop: a turn that gets an error has popped no frame. -/
def pop (s : Journal) : Except Unit Journal :=
  match s.queue.pop with
  | none => .error ()
  | some (.ok f, q) => .ok { s with queue := q, popped := s.popped ++ [f] }
  | some (.error _, q) => .ok { s with queue := q }

/-- One move; `.error` when it has to wait. -/
def step (s : Journal) : QueueMove → Except Unit Journal
  | .push frame => s.push frame
  | .pop => s.pop
  | .leave => .ok s
  | .fail err => .ok { s with queue := s.queue.fail err }
  | .close => .ok { s with queue := s.queue.close }

/-- The reader holds its frame in memory, beside the queued ones. -/
def InMemory (s : Journal) : QueueMove → Prop
  | .push frame => s.queue.held + frame.length < memory
  | _ => True

/-- A new queue. -/
def Fresh (maxBytes : Int64) (s : Journal) : Prop := s = { queue := { maxBytes := maxBytes } }

/-- The queue is what was accepted and not yet popped, its counter is what it holds, and the bound
is exceeded by one frame alone. -/
structure Ordered (maxBytes : Int64) (s : Journal) : Prop where
  accepted : s.accepted = s.popped ++ s.queue.frames
  limit : s.queue.maxBytes = maxBytes
  bytes : s.queue.bytes.toInt = s.queue.held
  fits : s.queue.held < memory
  single : 0 < maxBytes → maxBytes.toInt < s.queue.held →
    ∃ f ∈ s.queue.frames, f.length = s.queue.held

variable {maxBytes : Int64} {s s' : Journal} {a : QueueMove} {q q' : FrameQueue} {frame f : Bytes}

theorem toInt_ofNat_length (h : f.length < memory) : (Int64.ofNat f.length).toInt = f.length :=
  Int64.toInt_ofNat_of_lt h

theorem length_le_held (h : f ∈ q.frames) : f.length ≤ q.held :=
  List.single_le_sum (fun _ _ => Nat.zero_le _) _ (List.mem_map_of_mem h)

theorem ordered_push (hs : Ordered maxBytes s)
    (hmemory : s.queue.held + frame.length < memory) (h : s.push frame = .ok s') :
    Ordered maxBytes s' := by
  unfold Journal.push at h
  cases hpush : s.queue.push frame with
  | waits =>
    rw [hpush] at h
    cases h
  | gone =>
    rw [hpush] at h
    cases h
    exact hs
  | pushed q =>
    rw [hpush] at h
    cases h
    obtain ⟨hfull, rfl⟩ := push_eq hpush
    have hmem : memory = 2 ^ 63 := rfl
    have hlen := toInt_ofNat_length (f := frame) (by omega)
    have hadd : (s.queue.bytes + Int64.ofNat frame.length).toInt = s.queue.held + frame.length := by
      rw [Int64.toInt_add, hs.bytes, hlen, Int.bmod_eq_of_le]
      · omega
      · omega
    refine ⟨?_, hs.limit, ?_, ?_, fun hpos hover => ?_⟩
    · rw [hs.accepted, List.append_assoc]
    · rw [held_append]
      exact_mod_cast hadd
    · rw [held_append]
      omega
    · -- the push did not wait, so nothing with bytes was queued before
      rw [held_append] at hover ⊢
      unfold FrameQueue.full at hfull
      rw [hs.limit, decide_eq_true hpos, Bool.true_and, Bool.and_eq_false_iff,
        decide_eq_false_iff_not, decide_eq_false_iff_not, Int64.lt_iff_toInt_lt,
        Int64.lt_iff_toInt_lt, hs.bytes, hadd, Int64.toInt_zero] at hfull
      exact ⟨frame, by simp, by omega⟩

theorem ordered_pop (hs : Ordered maxBytes s) (h : s.pop = .ok s') : Ordered maxBytes s' := by
  unfold Journal.pop FrameQueue.pop at h
  cases hframes : s.queue.frames with
  | nil =>
    rw [hframes] at h
    cases herr : s.queue.err with
    | none =>
      rw [herr] at h
      cases h
    | some err =>
      rw [herr] at h
      cases err <;> cases h <;> exact hs
  | cons f rest =>
    rw [hframes] at h
    cases h
    have hheld := sum_erase_head (b := s.queue.bytes - Int64.ofNat f.length) hframes
    have hfits := hs.fits
    have hmem : memory = 2 ^ 63 := rfl
    have hlen := toInt_ofNat_length (f := f) (by omega)
    refine ⟨?_, hs.limit, ?_, by dsimp only; omega, fun hpos hover => ?_⟩
    · rw [hs.accepted, hframes, List.append_assoc]
      rfl
    · dsimp only
      rw [Int64.toInt_sub, hs.bytes, hlen, Int.bmod_eq_of_le]
      all_goals omega
    · -- the frame that exceeds the bound alone is not the one that was popped
      dsimp only at hover ⊢
      obtain ⟨g, hg, hlarge⟩ := hs.single hpos (by omega)
      rw [hframes] at hg
      obtain rfl | hg := List.mem_cons.mp hg
      · have hzero : (0 : ℤ) < maxBytes.toInt := by
          have := Int64.lt_iff_toInt_lt.mp hpos
          rwa [Int64.toInt_zero] at this
        omega
      · refine ⟨g, hg, ?_⟩
        have hle : g.length ≤ FrameQueue.held _ := length_le_held (q := { s.queue with
          frames := rest, bytes := s.queue.bytes - Int64.ofNat f.length }) hg
        dsimp only at hle
        omega

theorem ordered_step (hs : Ordered maxBytes s) (hmemory : s.InMemory a) (h : s.step a = .ok s') :
    Ordered maxBytes s' := by
  cases a with
  | push frame => exact ordered_push hs hmemory h
  | pop => exact ordered_pop hs h
  | leave =>
    cases h
    exact hs
  | fail err | close =>
    cases h
    exact ⟨hs.accepted, hs.limit, hs.bytes, hs.fits, hs.single⟩

theorem ordered_fresh (h : Fresh maxBytes s) : Ordered maxBytes s := by
  cases h
  refine ⟨rfl, rfl, rfl, Nat.two_pow_pos 63, fun hpos hover => ?_⟩
  have hzero := Int64.lt_iff_toInt_lt.mp hpos
  rw [Int64.toInt_zero] at hzero
  have : ({ maxBytes := maxBytes } : FrameQueue).held = 0 := rfl
  dsimp only at hover
  omega

/-- **The queue keeps the order of its frames.** In every state, whatever pushes, pops, failures and
closes led to it, the popped frames are the first of the accepted ones, a pop gives an error only
when all of them were popped, the counter is the sum of the queued lengths, and a positive bound is
exceeded only by a frame that has all the bytes. -/
theorem popped_in_order (hreach : Reachable step (Fresh maxBytes) InMemory s) :
    s.popped <+: s.accepted ∧
      (∀ err q, s.queue.pop = some (.error err, q) → s.popped = s.accepted) ∧
      s.queue.bytes.toInt = (s.queue.frames.map List.length).sum ∧
      (0 < maxBytes → maxBytes < s.queue.bytes →
        ∃ f ∈ s.queue.frames, maxBytes.toInt < f.length ∧ f.length = s.queue.bytes.toInt) := by
  have hs : Ordered maxBytes s := hreach.invariant (fun _ => ordered_fresh)
    fun _ _ _ hs hmemory h => ordered_step hs hmemory h
  refine ⟨⟨s.queue.frames, hs.accepted.symm⟩, fun err q hpop => ?_, hs.bytes, fun hpos hover => ?_⟩
  · cases hframes : s.queue.frames with
    | nil => rw [hs.accepted, hframes, List.append_nil]
    | cons f rest =>
      simp only [FrameQueue.pop, hframes] at hpop
      cases hpop
  · rw [Int64.lt_iff_toInt_lt, hs.bytes] at hover
    obtain ⟨f, hf, hlarge⟩ := hs.single hpos hover
    exact ⟨f, hf, by omega, by rw [hs.bytes]; exact_mod_cast hlarge⟩

/-- Two frames pushed, one popped, and the worker closed. -/
theorem popped_in_order_closed : ∃ s : Journal, s.popped = [[1]] ∧ s.popped <+: s.accepted := by
  have hreach : Reachable step (Fresh 8) InMemory
      { queue := { frames := [[2, 3]], bytes := 2, maxBytes := 8, err := some .workerGone,
                   closed := true }
        accepted := [[1], [2, 3]], popped := [[1]] } :=
    .step (a := .close) (.step (a := .pop) (.step (a := .push [2, 3]) (.step (a := .push [1])
      (.initial rfl) (by simp [InMemory, memory, FrameQueue.held]) rfl)
      (by simp [InMemory, memory, FrameQueue.held]) rfl) trivial rfl) trivial rfl
  exact ⟨_, rfl, (popped_in_order hreach).1⟩

end Journal

end Montygo.Worker
