import Montygo.Go.Reader
import Montygo.Worker.FrameQueue

/-!
# Frames on a stream

A frame is the length of its payload in four bytes, and the payload.  `FrameReader` reads them
back with `io.ReadFull` through a `bufio.Reader`, so what it gives depends on the bytes of the
stream and not on the pieces they came in: it does what `next` does on a stream that has ended.
-/

namespace Montygo.Worker

open Go Wire

/-! ## Writing and reading a frame -/

def putUint32 (n : ℕ) : Bytes :=
  [UInt8.ofNat n, UInt8.ofNat (n / 2 ^ 8), UInt8.ofNat (n / 2 ^ 16), UInt8.ofNat (n / 2 ^ 24)]

def appendFrameHeader (payload : Bytes) : Except StreamError Bytes :=
  if maxFrameLen < payload.length then .error (.tooLarge payload.length)
  else .ok (putUint32 payload.length ++ payload)

structure FrameReader where
  r : BufReader

def newFrameReader (src : Source) : FrameReader := ⟨{ src := src, size := 64 * 1024 }⟩

/-- `binary.LittleEndian.Uint32` of the header that was read. -/
def headerSize : Bytes → ℕ
  | [b0, b1, b2, b3] => littleEndian b0 b1 b2 b3
  | _ => 0

def FrameReader.next (f : FrameReader) : Except StreamError Bytes × FrameReader :=
  let (hdr, err, r) := f.r.readFull 4
  match err with
  | some e => (.error (if hdr.length = 0 ∧ e = .eof then .eof else .truncated), ⟨r⟩)
  | none =>
    let size := headerSize hdr
    if maxFrameLen < size then (.error (.tooLarge size), ⟨r⟩)
    else
      let (buf, err, r) := r.readFull size
      match err with
      | some _ => (.error .truncated, ⟨r⟩)
      | none => (.ok buf, ⟨r⟩)

/-- Reading with `Next` gives these frames and then this error. -/
inductive Reads : FrameReader → List Bytes → StreamError → Prop where
  | ends {f f' : FrameReader} {err : StreamError} (h : f.next = (.error err, f')) : Reads f [] err
  | frame {f f' : FrameReader} {frame : Bytes} {frames : List Bytes} {err : StreamError}
      (h : f.next = (.ok frame, f')) (hrest : Reads f' frames err) : Reads f (frame :: frames) err

/-! ## The reader sees the bytes -/

/-- The reader has these bytes before it. -/
def FrameReader.Holds (f : FrameReader) (stream : Bytes) : Prop := f.r.Fine ∧ f.r.content = stream

theorem newFrameReader_holds (src : Source) : (newFrameReader src).Holds src.content := ⟨nofun, rfl⟩

variable {f : FrameReader} {stream : Bytes}

/-- **`Next` does what the stream says**: it gives the first frame and leaves the rest before the
reader, or the error of a stream that ends there. -/
theorem FrameReader.next_spec (hholds : f.Holds stream) :
    (∃ frame rest f', Worker.next stream true = some (.ok (frame, rest)) ∧
      f.next = (.ok frame, f') ∧ f'.Holds rest) ∨
    ∃ err f', Worker.next stream true = some (.error err) ∧ f.next = (.error err, f') := by
  obtain ⟨hfine, rfl⟩ := hholds
  obtain ⟨r, hfine', hrest, hread⟩ := BufReader.readFull_spec hfine 4
  generalize f.r.content = stream at hrest hread
  simp only [FrameReader.next, hread]
  match stream with
  | [] => exact .inr ⟨.eof, _, rfl, rfl⟩
  | [b0] => exact .inr ⟨.truncated, _, rfl, rfl⟩
  | [b0, b1] => exact .inr ⟨.truncated, _, rfl, rfl⟩
  | [b0, b1, b2] => exact .inr ⟨.truncated, _, rfl, rfl⟩
  | b0 :: b1 :: b2 :: b3 :: rest =>
    have hlength : 4 ≤ (b0 :: b1 :: b2 :: b3 :: rest).length := by simp
    simp only [hlength, if_true, List.take_succ_cons, List.take_zero, headerSize, Worker.next]
    obtain ⟨size, hsize⟩ : ∃ size, littleEndian b0 b1 b2 b3 = size := ⟨_, rfl⟩
    simp only [hsize]
    by_cases hlarge : maxFrameLen < size
    · simp [hlarge]
    obtain ⟨r', hfine'', hrest', hread'⟩ := BufReader.readFull_spec hfine' size
    replace hrest : r.content = rest := hrest
    rw [hrest] at hread' hrest'
    simp only [hlarge, if_false, hread']
    by_cases hshort : rest.length < size
    · simp [hshort, Nat.not_le.mpr hshort]
    have henough : size ≤ rest.length := by omega
    simp only [hshort, henough, if_true, if_false]
    exact .inl ⟨_, _, _, rfl, rfl, hfine'', hrest'⟩

theorem FrameReader.Holds.next_frame {frame rest : Bytes} (hholds : f.Holds stream)
    (hnext : Worker.next stream true = some (.ok (frame, rest))) :
    ∃ f', f.next = (.ok frame, f') ∧ f'.Holds rest := by
  obtain ⟨_, _, f', hframe, hf, hrest⟩ | ⟨_, _, herr, -⟩ := FrameReader.next_spec hholds
  · cases hnext.symm.trans hframe
    exact ⟨f', hf, hrest⟩
  · cases hnext.symm.trans herr

theorem FrameReader.Holds.reads_end {err : StreamError} (hholds : f.Holds stream)
    (hnext : Worker.next stream true = some (.error err)) : Reads f [] err := by
  obtain ⟨_, _, _, hframe, -⟩ | ⟨_, f', herr, hf⟩ := FrameReader.next_spec hholds
  · cases hnext.symm.trans hframe
  · cases hnext.symm.trans herr
    exact .ends hf

/-! ## Streams of frames -/

/-- What `AppendFrameHeader` gives for a payload that is not too long. -/
def frameOf (payload : Bytes) : Bytes := putUint32 payload.length ++ payload

theorem mapM_appendFrameHeader {payloads : List Bytes}
    (hlen : ∀ p ∈ payloads, p.length ≤ maxFrameLen) :
    payloads.mapM appendFrameHeader = .ok (payloads.map frameOf) := by
  induction payloads with
  | nil => rfl
  | cons p rest ih =>
    have hp : appendFrameHeader p = .ok (frameOf p) :=
      if_neg (Nat.not_lt.mpr (hlen p List.mem_cons_self))
    rw [List.mapM_cons, hp, ih fun q hq => hlen q (List.mem_cons_of_mem p hq)]
    rfl

theorem littleEndian_putUint32 {n : ℕ} (hn : n ≤ maxFrameLen) :
    littleEndian (UInt8.ofNat n) (UInt8.ofNat (n / 2 ^ 8)) (UInt8.ofNat (n / 2 ^ 16))
      (UInt8.ofNat (n / 2 ^ 24)) = n := by
  simp only [maxFrameLen] at hn
  simp only [littleEndian, UInt8.toNat_ofNat']
  omega

theorem next_putUint32 {n : ℕ} (hn : n ≤ maxFrameLen) (rest : Bytes) :
    next (putUint32 n ++ rest) true =
      if rest.length < n then some (.error .truncated)
      else some (.ok (rest.take n, rest.drop n)) := by
  simp only [putUint32, List.cons_append, List.nil_append, next, littleEndian_putUint32 hn,
    if_neg (Nat.not_lt.mpr hn), if_true]

theorem next_frameOf {p : Bytes} (hp : p.length ≤ maxFrameLen) (rest : Bytes) :
    next (frameOf p ++ rest) true = some (.ok (p, rest)) := by
  rw [frameOf, List.append_assoc, next_putUint32 hp]
  simp

theorem next_truncated {p : Bytes} (hp : p.length ≤ maxFrameLen) (hpre : stream <+: frameOf p)
    (hshort : stream.length < (frameOf p).length) (hne : stream ≠ []) :
    next stream true = some (.error .truncated) := by
  match stream with
  | [] => exact absurd rfl hne
  | [_] | [_, _] | [_, _, _] => rfl
  | b0 :: b1 :: b2 :: b3 :: rest =>
    have hheader : [b0, b1, b2, b3] = putUint32 p.length := by
      simp only [frameOf, putUint32, List.cons_append, List.cons_prefix_cons] at hpre
      obtain ⟨rfl, rfl, rfl, rfl, -⟩ := hpre
      rfl
    have hrest : rest.length < p.length := by simpa [frameOf, putUint32] using hshort
    change next ([b0, b1, b2, b3] ++ rest) true = _
    rw [hheader, next_putUint32 hp, if_pos hrest]

/-- A reader with a beginning of the frames before it gives those that are whole, and then says
whether it stands between two frames. -/
theorem reads_prefix {payloads : List Bytes} (hlen : ∀ p ∈ payloads, p.length ≤ maxFrameLen)
    (hholds : f.Holds stream) (hpre : stream <+: (payloads.map frameOf).flatten) :
    ∃ n ≤ payloads.length, ((payloads.map frameOf).take n).flatten <+: stream ∧
      (∀ m ≤ payloads.length, ((payloads.map frameOf).take m).flatten <+: stream → m ≤ n) ∧
      Reads f (payloads.take n)
        (if stream = ((payloads.map frameOf).take n).flatten then .eof else .truncated) := by
  induction payloads generalizing stream f with
  | nil =>
    obtain rfl : stream = [] := by simpa using hpre
    exact ⟨0, Nat.le_refl 0, by simp, fun m hm _ => hm, hholds.reads_end rfl⟩
  | cons p rest ih =>
    have hp := hlen p List.mem_cons_self
    simp only [List.map_cons, List.flatten_cons] at hpre ⊢
    by_cases hwhole : frameOf p <+: stream
    · -- The first frame is whole, and the reader goes on behind it.
      obtain ⟨left, rfl⟩ := hwhole
      obtain ⟨f', hnext, hholds'⟩ := hholds.next_frame (next_frameOf hp left)
      obtain ⟨n, hn, hfits, hmost, hreads⟩ :=
        ih (fun q hq => hlen q (List.mem_cons_of_mem p hq)) hholds'
          ((List.prefix_append_right_inj (frameOf p)).mp hpre)
      refine ⟨n + 1, by simpa using hn, ?_, ?_, ?_⟩
      · simpa using hfits
      · intro m hm hm'
        cases m with
        | zero => exact Nat.zero_le _
        | succ m =>
          have := hmost m (by simpa using hm) (by simpa using hm')
          omega
      · simp only [List.take_succ_cons, List.flatten_cons, List.append_cancel_left_eq]
        exact .frame hnext hreads
    · have hshort : stream <+: frameOf p :=
        (List.prefix_or_prefix_of_prefix hpre (List.prefix_append _ _)).resolve_right hwhole
      refine ⟨0, Nat.zero_le _, by simp, ?_, ?_⟩
      · intro m hm hm'
        cases m with
        | zero => exact Nat.le_refl 0
        | succ m =>
          rw [List.take_succ_cons, List.flatten_cons] at hm'
          exact absurd ((List.prefix_append _ _).trans hm') hwhole
      · by_cases hnil : stream = []
        · subst hnil
          exact hholds.reads_end rfl
        · rw [if_neg (by simpa using hnil)]
          refine hholds.reads_end (next_truncated hp hshort ?_ hnil)
          refine Nat.lt_of_le_of_ne hshort.length_le fun hlength => hwhole ?_
          rw [hshort.eq_of_length hlength]

/-- **Frames are read back**: however the stream is cut into pieces, reading the concatenated
encodings gives the payloads in order and then `io.EOF`, and reading a beginning of them gives the
payloads whose frames are whole in it, and then `io.EOF` if it ends with a frame and
`ErrTruncated` if not. -/
theorem frames_read_back {payloads : List Bytes} (hlen : ∀ p ∈ payloads, p.length ≤ maxFrameLen) :
    ∃ frames, payloads.mapM appendFrameHeader = .ok frames ∧ ∀ src : Source,
      (src.content = frames.flatten → Reads (newFrameReader src) payloads .eof) ∧
      (src.content <+: frames.flatten →
        ∃ n ≤ payloads.length, (frames.take n).flatten <+: src.content ∧
          (∀ m ≤ payloads.length, (frames.take m).flatten <+: src.content → m ≤ n) ∧
          Reads (newFrameReader src) (payloads.take n)
            (if src.content = (frames.take n).flatten then .eof else .truncated)) := by
  refine ⟨_, mapM_appendFrameHeader hlen, fun src => ⟨fun hcontent => ?_, fun hpre => ?_⟩⟩
  · obtain ⟨n, hn, -, hmost, hreads⟩ := reads_prefix hlen (newFrameReader_holds src)
      (by rw [hcontent])
    have hall : n = payloads.length := by
      refine Nat.le_antisymm hn (hmost _ (Nat.le_refl _) ?_)
      rw [hcontent, List.take_of_length_le (by simp)]
    rwa [hall, List.take_length, List.take_of_length_le (by simp), if_pos hcontent] at hreads
  · exact reads_prefix hlen (newFrameReader_holds src) hpre

/-- An empty frame and one of two bytes, cut after the second header. -/
theorem frames_read_back_cut :
    Reads (newFrameReader ⟨[[0, 0], [], [0, 0, 2, 0, 0], [0]], true⟩) [[]] .truncated := by
  obtain ⟨frames, hframes, hreads⟩ := frames_read_back
    (by simp [maxFrameLen] : ∀ p ∈ ([[], [7, 8]] : List Bytes), p.length ≤ maxFrameLen)
  cases hframes
  obtain ⟨n, hn, hfits, hmost, hread⟩ :=
    (hreads ⟨[[0, 0], [], [0, 0, 2, 0, 0], [0]], true⟩).2 (by decide)
  have hone := hmost 1 (by decide) (by decide)
  obtain rfl : n = 1 := by
    rcases Nat.lt_or_ge 1 n with h | h
    · obtain rfl : n = 2 := by
        simp only [List.length_cons, List.length_nil] at hn
        omega
      revert hfits
      decide
    · omega
  exact hread

end Montygo.Worker
