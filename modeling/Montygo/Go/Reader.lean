import Mathlib.Algebra.BigOperators.Group.List.Basic
import Montygo.Go.Strings
import Mathlib.Algebra.Order.Ring.Nat

/-!
# Reading a stream in pieces

An `io.Reader` hands a stream out in pieces of its own choice: any sizes, empty ones too, and the
end with the last piece or after it.  `bufio.Reader` reads ahead from it, and `io.ReadFull` asks
until it has all it was asked for.

What a `bufio.Reader` has yet to give is the bytes it has buffered and those of the pieces left.
`readFull_spec` says that `io.ReadFull` depends on nothing else.
-/

namespace Montygo.Go

/-- An `io.Reader` that hands out the pieces in order.  `together` says that the end comes with the
last of them. -/
structure Source where
  pieces : List Bytes
  together : Bool

inductive ReadError where
  | eof
  | unexpectedEOF
  deriving DecidableEq

/-- `Read` with room for `n` bytes. -/
def Source.read (src : Source) (n : ℕ) : Bytes × Option ReadError × Source :=
  match src.pieces with
  | [] => ([], some .eof, src)
  | piece :: rest =>
    if piece.length ≤ n then
      (piece, if rest = [] ∧ src.together then some .eof else none, { src with pieces := rest })
    else (piece.take n, none, { src with pieces := piece.drop n :: rest })

/-- A `bufio.Reader`: what it has buffered, and the error it has yet to give. -/
structure BufReader where
  buf : Bytes := []
  err : Option ReadError := none
  src : Source
  /-- The size of the buffer. -/
  size : ℕ

/-- `bufio.Reader.Read` with room for `n` bytes, for an `n` that is not zero. -/
def BufReader.read (b : BufReader) (n : ℕ) : Bytes × Option ReadError × BufReader :=
  if b.buf = [] then
    match b.err with
    | some err => ([], some err, { b with err := none })
    | none =>
      if b.size ≤ n then
        -- A large read goes past the buffer.
        let (bytes, err, src) := b.src.read n
        (bytes, err, { b with src := src })
      else
        let (bytes, err, src) := b.src.read b.size
        if bytes = [] then ([], err, { b with src := src })
        else (bytes.take n, none, { b with buf := bytes.drop n, err := err, src := src })
  else (b.buf.take n, none, { b with buf := b.buf.drop n })

/-! ## What is left -/

/-- The bytes that are still to come. -/
def Source.content (src : Source) : Bytes := src.pieces.flatten

/-- Bounds the reads until the end: a read takes bytes, or a piece, or meets the end. -/
def Source.left (src : Source) : ℕ := (src.pieces.map fun piece => piece.length + 1).sum

def BufReader.content (b : BufReader) : Bytes := b.buf ++ b.src.content

def BufReader.left (b : BufReader) : ℕ := b.buf.length + b.src.left

/-- The only error that was met is the end of the pieces. -/
def BufReader.Fine (b : BufReader) : Prop := ∀ e, b.err = some e → e = .eof ∧ b.src.content = []

variable {src src' : Source} {b b' : BufReader} {n : ℕ} {bytes : Bytes} {err : Option ReadError}

/-- What a read of a source gives. -/
structure Source.Gave (src : Source) (n : ℕ) (bytes : Bytes) (err : Option ReadError)
    (src' : Source) : Prop where
  content : src.content = bytes ++ src'.content
  room : bytes.length ≤ n
  ended : ∀ e, err = some e → e = .eof ∧ src'.content = []
  left : bytes.length + src'.left ≤ src.left
  empty : err = none → bytes = [] → src'.left < src.left

theorem Source.read_gave (hn : 0 < n) (h : src.read n = (bytes, err, src')) :
    src.Gave n bytes err src' := by
  obtain ⟨pieces, together⟩ := src
  cases pieces with
  | nil =>
    cases h
    exact ⟨rfl, Nat.zero_le n, by simp [Source.content], by simp, nofun⟩
  | cons piece rest =>
    simp only [Source.read] at h
    split at h
    · rename_i hfits
      cases h
      refine ⟨by simp [Source.content], hfits, ?_, by simp [Source.left],
        fun _ _ => by simp [Source.left]⟩
      intro e he
      split at he
      · rename_i hlast
        cases he
        exact ⟨rfl, by simp [Source.content, hlast.1]⟩
      · cases he
    · rename_i hlong
      cases h
      have htake : (piece.take n).length = n := List.length_take_of_le (by omega)
      refine ⟨?_, Nat.le_of_eq htake, nofun, ?_, ?_⟩
      · simp only [Source.content, List.flatten_cons, ← List.append_assoc, List.take_append_drop]
      · simp only [Source.left, List.map_cons, List.sum_cons, List.length_drop, htake]
        omega
      · intro _ hempty
        simp only [hempty, List.length_nil] at htake
        omega

/-- What a read of a `bufio.Reader` gives. -/
structure BufReader.Gave (b : BufReader) (n : ℕ) (bytes : Bytes) (err : Option ReadError)
    (b' : BufReader) : Prop where
  content : b.content = bytes ++ b'.content
  room : bytes.length ≤ n
  left : err = none → b'.left < b.left
  ended : b.Fine → ∀ e, err = some e → e = .eof ∧ b'.content = []
  fine : b.Fine → b'.Fine

theorem BufReader.read_gave (hn : 0 < n) (h : b.read n = (bytes, err, b')) :
    b.Gave n bytes err b' := by
  obtain ⟨buf, pending, src, size⟩ := b
  simp only [BufReader.read] at h
  split at h
  · rename_i hbuf
    subst hbuf
    split at h
    · -- The error that came with the bytes read before.
      rename_i e
      cases h
      refine ⟨rfl, Nat.zero_le n, nofun, fun hfine e' he' => ?_, fun _ => nofun⟩
      cases he'
      exact hfine e rfl
    · split at h
      · generalize hread : src.read n = result at h
        obtain ⟨given, failed, rest⟩ := result
        cases h
        have hgave := Source.read_gave hn hread
        refine ⟨hgave.content, hgave.room, fun hnone => ?_, fun _ => hgave.ended, fun _ => nofun⟩
        have hleft := hgave.left
        simp only [BufReader.left, List.length_nil, Nat.zero_add]
        by_cases hempty : given = []
        · exact hgave.empty hnone hempty
        · have := List.length_pos_of_ne_nil hempty
          omega
      · rename_i hsmall
        generalize hread : src.read size = result at h
        obtain ⟨given, failed, rest⟩ := result
        have hgave := Source.read_gave (by omega) hread
        simp only at h
        split at h
        · rename_i hempty
          cases h
          subst hempty
          refine ⟨hgave.content, Nat.zero_le n, fun hnone => ?_, fun _ => hgave.ended,
            fun _ => nofun⟩
          simpa [BufReader.left] using hgave.empty hnone rfl
        · rename_i hsome
          cases h
          have hpos := List.length_pos_of_ne_nil hsome
          have hleft := hgave.left
          refine ⟨?_, List.length_take_le n given, fun _ => ?_, fun _ => nofun,
            fun _ => hgave.ended⟩
          · simp [BufReader.content, hgave.content, ← List.append_assoc]
          · simp only [BufReader.left, List.length_nil, List.length_drop]
            omega
  · rename_i hbuf
    cases h
    have hpos := List.length_pos_of_ne_nil hbuf
    refine ⟨?_, List.length_take_le n buf, fun _ => ?_, fun _ => nofun, fun hfine => hfine⟩
    · simp [BufReader.content, ← List.append_assoc]
    · simp only [BufReader.left, List.length_drop]
      omega

/-! ## Reading in full -/

/-- The loop of `io.ReadAtLeast`, with as much room as is asked for. -/
def BufReader.fill (b : BufReader) (n : ℕ) : Bytes × Option ReadError × BufReader :=
  if _hn : n = 0 then ([], none, b)
  else
    match _h : b.read n with
    | (bytes, some e, b') => (bytes, some e, b')
    | (bytes, none, b') =>
      let (more, err, last) := b'.fill (n - bytes.length)
      (bytes ++ more, err, last)
termination_by b.left
decreasing_by exact (read_gave (Nat.pos_of_ne_zero _hn) _h).left rfl

def BufReader.readFull (b : BufReader) (n : ℕ) : Bytes × Option ReadError × BufReader :=
  let (bytes, err, b') := b.fill n
  let err :=
    if n ≤ bytes.length then none
    else if 0 < bytes.length ∧ err = some .eof then some .unexpectedEOF
    else err
  (bytes, err, b')

/-- The loop takes what is there, up to what is asked for, and stops short only at the end. -/
theorem BufReader.fill_spec (hfine : b.Fine) (h : b.fill n = (bytes, err, b')) :
    bytes = b.content.take n ∧ b'.content = b.content.drop n ∧ b'.Fine ∧
      (n ≤ b.content.length ∨ err = some .eof) := by
  induction hleft : b.left using Nat.strongRecOn generalizing b n bytes err with
  | ind left ih =>
    rw [BufReader.fill] at h
    split at h
    · rename_i hn
      cases h
      subst hn
      exact ⟨rfl, rfl, hfine, .inl (Nat.zero_le _)⟩
    · rename_i hn
      split at h
      · rename_i given e rest hread
        cases h
        have hgave := read_gave (Nat.pos_of_ne_zero hn) hread
        obtain ⟨rfl, hend⟩ := hgave.ended hfine e rfl
        have hcontent : b.content = bytes := by simp [hgave.content, hend]
        have hroom := hgave.room
        refine ⟨?_, ?_, hgave.fine hfine, .inr rfl⟩
        · rw [hcontent, List.take_of_length_le hroom]
        · rw [hend, hcontent, List.drop_of_length_le hroom]
      · rename_i given rest hread
        have hgave := read_gave (Nat.pos_of_ne_zero hn) hread
        have hroom := hgave.room
        generalize hfill : rest.fill (n - given.length) = result at h
        obtain ⟨more, failed, last⟩ := result
        cases h
        obtain ⟨hmore, hdrop, hlast, hends⟩ :=
          ih _ (hleft ▸ hgave.left rfl) (hgave.fine hfine) hfill rfl
        refine ⟨?_, ?_, hlast, ?_⟩
        · rw [hgave.content, List.take_append, hmore, List.take_of_length_le hroom]
        · rw [hgave.content, List.drop_append, hdrop, List.drop_of_length_le hroom, List.nil_append]
        · rw [hgave.content, List.length_append]
          rcases hends with henough | hend
          · exact .inl (by omega)
          · exact .inr hend

/-- **`io.ReadFull` sees only the bytes to come**: it gives the bytes that were asked for, or what
there is of them with the error that says whether there was something. -/
theorem BufReader.readFull_spec (hfine : b.Fine) (n : ℕ) :
    ∃ b', b'.Fine ∧ b'.content = b.content.drop n ∧ b.readFull n = (b.content.take n,
        if n ≤ b.content.length then none
        else some (if b.content = [] then .eof else .unexpectedEOF), b') := by
  generalize hfill : b.fill n = result
  obtain ⟨bytes, err, b'⟩ := result
  obtain ⟨rfl, hdrop, hfine', hends⟩ := fill_spec hfine hfill
  refine ⟨b', hfine', hdrop, ?_⟩
  simp only [readFull, hfill, List.length_take]
  by_cases henough : n ≤ b.content.length
  · simp [henough]
  obtain rfl := hends.resolve_left henough
  have hshort : ¬n ≤ min n b.content.length := by omega
  rw [if_neg hshort, if_neg henough]
  by_cases hnil : b.content = []
  · simp [hnil]
  have hpos := List.length_pos_of_ne_nil hnil
  simp only [hnil, if_false]
  rw [if_pos ⟨by omega, trivial⟩]

end Montygo.Go
