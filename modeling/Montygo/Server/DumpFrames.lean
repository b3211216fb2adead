import Montygo.Lib.WireSize
import Montygo.Server.Envelope
import Montygo.Wire.Request

/-!
# The frames of a signed dump

A signed dump leaves the server in a `DumpResult` event or in the shutdown event, and comes back in
the `Load` request of a client.  `sign` holds the envelope to the limit of a frame, but the frames
around it take ten bytes more and the event its totals: the largest dumps are signed and then not
sent (`signed_not_sent`), and all others pass (`signed_fits_iff`).
-/

namespace Montygo.Server

open Go Wire WireFormat

/-- What a `ChildEvent` reports beside its kind.  A script name comes with a `Load` alone. -/
structure Totals where
  totalExecutionMicros : UInt64 := 0
  maxDurationMicros : Option UInt64 := none
  maxSuspensions : Option UInt64 := none

/-- The bytes of the totals: their tags take two bytes each, and a total of zero is left out. -/
def Totals.size (t : Totals) : ℕ :=
  (if t.totalExecutionMicros = 0 then 0 else 2 + varintSize t.totalExecutionMicros.toNat) +
    t.maxDurationMicros.elim 0 (fun v => 2 + varintSize v.toNat) +
    t.maxSuspensions.elim 0 (fun v => 2 + varintSize v.toNat)

/-- The events that carry a dump. -/
inductive DumpEvent where
  | dumpResult (state : Bytes) (totals : Totals)
  | shutdown (dump : Option Bytes)

/-- `monty_proto::encode_to_capped_vec`, which `encode` calls, on these events.  It refuses an event
over the limit of a frame, and an event has the length that the format gives it. -/
structure CappedEncoder where
  encode : DumpEvent → Option Bytes
  encodedLen : DumpEvent → ℕ
  capped : ∀ event, (encode event).isSome ↔ encodedLen event ≤ maxFrameLen
  dumpResult_len : ∀ state totals, state ≠ [] → state.length ≤ maxFrameLen →
    encodedLen (.dumpResult state totals) = fieldSize (fieldSize state.length) + totals.size
  shutdown_len : ∀ dump, dump.length ≤ maxFrameLen →
    encodedLen (.shutdown (some dump)) = fieldSize (fieldSize dump.length)

/-- Whether the client may send the `Load` of a dump. -/
def loadFits (P : Protowire) (dump : Bytes) : Bool :=
  match encodeRequest P (.load dump) [] with
  | .error _ => false
  | .ok frame => frame.length ≤ maxFrameLen

/-! ## Lengths -/

variable {P : Protowire} {b dump state : Bytes} {num : ℕ} {totals : Totals}

theorem varintSize_le (v : ℕ) : varintSize v ≤ 10 := Standard.length_writeVarint_le 9 v

theorem Totals.size_le : totals.size ≤ 36 := by
  have hle : ∀ v : Option UInt64, v.elim 0 (fun v => 2 + varintSize v.toNat) ≤ 12 := by
    intro v
    cases v with
    | none => exact Nat.zero_le _
    | some v =>
      have := varintSize_le v.toNat
      simp only [Option.elim_some]
      omega
  have hduration := hle totals.maxDurationMicros
  have hsuspensions := hle totals.maxSuspensions
  have htotal := varintSize_le totals.totalExecutionMicros.toNat
  unfold Totals.size
  split <;> omega

theorem length_appendBytesAlways (hP : P.Sized) (hpos : 0 < num) (hnum : num < 16)
    (hlen : b.length < 2 ^ 64) :
    (appendBytesAlways P [] num b).length = fieldSize b.length := by
  rw [appendBytesAlways, List.nil_append, List.length_append, hP.tag num hpos hnum, hP.bytes b hlen,
    fieldSize]

theorem length_appendMessage (hP : P.Sized) (hpos : 0 < num) (hnum : num < 16)
    (hdump : dump.length ≤ maxFrameLen) :
    (appendMessage P [] num (appendBytesAlways P [] 1 dump)).length =
      fieldSize (fieldSize dump.length) := by
  have hmax : maxFrameLen = 2 ^ 28 := by decide
  have hsize := varintSize_le dump.length
  have hinner : (appendBytesAlways P [] 1 dump).length = fieldSize dump.length :=
    length_appendBytesAlways hP (by decide) (by decide) (by omega)
  rw [appendMessage, length_appendBytesAlways hP hpos hnum, hinner]
  rw [hinner, fieldSize]
  omega

/-- Below `2 ^ 21` bytes everything fits, and from there on both lengths take four bytes. -/
theorem carried_fits_iff {n m : ℕ} (hn : n ≤ maxFrameLen) (hm : m ≤ 36) :
    fieldSize (fieldSize n) + m ≤ maxFrameLen ↔ n + 10 + m ≤ maxFrameLen := by
  have hmax : maxFrameLen = 2 ^ 28 := by decide
  have hfour : ∀ m, varintSize m ≤ 4 ↔ m < 2 ^ 28 := fun m =>
    @Standard.length_writeVarint_le_iff 3 9 m (by decide)
  have hthree : ∀ m, varintSize m ≤ 3 ↔ m < 2 ^ 21 := fun m =>
    @Standard.length_writeVarint_le_iff 2 9 m (by decide)
  rw [hmax] at hn ⊢
  have := varintSize_le n
  -- At the limit a length takes three bytes or four, and which of the two is linear in it.
  have := hfour n
  have := hthree n
  have := hfour (fieldSize n)
  have := hthree (fieldSize n)
  have hinner : fieldSize n = 1 + (varintSize n + n) := rfl
  have houter : fieldSize (fieldSize n) = 1 + (varintSize (fieldSize n) + fieldSize n) := rfl
  omega

/-! ## What is sent -/

theorem dumpResult_fits_iff (E : CappedEncoder) (hpos : dump ≠ [])
    (hdump : dump.length ≤ maxFrameLen) :
    (E.encode (.dumpResult dump totals)).isSome ↔
      dump.length + 10 + totals.size ≤ maxFrameLen := by
  rw [E.capped, E.dumpResult_len _ _ hpos hdump]
  exact carried_fits_iff hdump Totals.size_le

theorem shutdown_fits_iff (E : CappedEncoder) (hdump : dump.length ≤ maxFrameLen) :
    (E.encode (.shutdown (some dump))).isSome ↔ dump.length + 10 ≤ maxFrameLen := by
  rw [E.capped, E.shutdown_len _ hdump]
  exact carried_fits_iff (m := 0) hdump (by decide)

theorem loadFits_iff (hP : P.Sized) (hpos : dump ≠ []) (hdump : dump.length ≤ maxFrameLen) :
    loadFits P dump = true ↔ dump.length + 10 ≤ maxFrameLen := by
  have hframe : encodeRequest P (.load dump) [] =
      .ok (appendMessage P [] 8 (appendBytesAlways P [] 1 dump)) := by
    simp only [encodeRequest, appendBody, appendLoad, List.length_eq_zero_iff, if_neg hpos]
    rfl
  rw [loadFits, hframe, decide_eq_true_iff, length_appendMessage hP (by decide) (by decide) hdump]
  exact carried_fits_iff (m := 0) hdump (by decide)

theorem DumpKeys.length_of_sign {hmac : Bytes → Bytes → Digest} {keys : DumpKeys}
    (h : keys.sign hmac state = some dump) :
    dump ≠ [] ∧ dump.length = state.length + headerLen ∧ dump.length ≤ maxFrameLen := by
  unfold sign at h
  split at h
  · cases h
  rename_i hle
  cases h
  have hlen : (magic ++ [version] ++ keys.current.id ++ (keys.current.tag hmac state).1 ++
      state).length = state.length + headerLen := by
    simp only [List.length_append, keys.current.id_length, (keys.current.tag hmac state).2]
    simp [magic, headerLen]
    omega
  exact ⟨List.cons_ne_nil _ _, hlen, hlen ▸ not_lt.mp hle⟩

/-- **When a signed dump arrives.** Both events and the client's `Load` carry it exactly if ten
bytes and the totals still fit behind the envelope. -/
theorem signed_fits_iff (E : CappedEncoder) (hP : P.Sized) (hmac : Bytes → Bytes → Digest)
    (keys : DumpKeys) (state envelope : Bytes) (totals : Totals)
    (hsign : keys.sign hmac state = some envelope) :
    ((E.encode (.dumpResult envelope totals)).isSome ∧
      (E.encode (.shutdown (some envelope))).isSome ∧ loadFits P envelope = true) ↔
    state.length + headerLen + 10 + totals.size ≤ maxFrameLen := by
  obtain ⟨hpos, hlen, hle⟩ := DumpKeys.length_of_sign hsign
  rw [dumpResult_fits_iff E hpos hle, shutdown_fits_iff E hle, loadFits_iff hP hpos hle, ← hlen]
  constructor
  · exact fun h => h.1
  · intro h
    omega

/-! ## An encoder -/

def appendTotals (b : Bytes) (t : Totals) : Bytes :=
  let b := appendUintField standard b 20 t.totalExecutionMicros
  let b := appendOptionalUint standard b 21 t.maxDurationMicros
  appendOptionalUint standard b 23 t.maxSuspensions

/-- An event in the format of the protocol file. -/
def DumpEvent.bytes : DumpEvent → Bytes
  | .dumpResult state totals =>
    appendTotals (appendMessage standard [] 9 (appendStringField standard [] 1 state)) totals
  | .shutdown dump => appendMessage standard [] 12 (appendOptionalString standard [] 1 dump)

theorem length_appendTotals : (appendTotals b totals).length = b.length + totals.size := by
  have htag : ∀ num ∈ [20, 21, 23], (standard.tag (num, .varint)).length = 2 := by decide
  have hfield : ∀ num ∈ [20, 21, 23], ∀ (b : Bytes) (v : UInt64),
      (appendVarintField standard b num v).length = b.length + (2 + varintSize v.toNat) := by
    intro num hnum b v
    rw [appendVarintField, List.length_append, List.length_append, htag num hnum]
    rfl
  obtain ⟨total, duration, suspensions⟩ := totals
  simp only [appendTotals, appendUintField, Totals.size]
  cases duration <;> cases suspensions <;> split <;>
    simp_all [appendOptionalUint] <;> omega

/-- The format as it is documented. -/
def standardEncoder : CappedEncoder where
  encode event := if event.bytes.length ≤ maxFrameLen then some event.bytes else none
  encodedLen event := event.bytes.length
  capped event := by split <;> simp_all
  dumpResult_len state totals hpos hle := by
    rw [DumpEvent.bytes, length_appendTotals, appendStringField, if_neg hpos]
    exact congrArg (· + totals.size)
      (length_appendMessage standard_sized (by decide) (by decide) hle)
  shutdown_len dump hle := length_appendMessage standard_sized (by decide) (by decide) hle

/-- A dump of three bytes, with totals. -/
theorem signed_fits_iff_three : ∃ envelope,
    DumpKeys.twoKeys.sign (fun _ _ => ⟨List.replicate 32 7, rfl⟩) [1, 2, 3] = some envelope ∧
      (standardEncoder.encode (.dumpResult envelope ⟨300, some 5, none⟩)).isSome ∧
      (standardEncoder.encode (.shutdown (some envelope))).isSome ∧
      loadFits standard envelope = true :=
  ⟨_, rfl, (signed_fits_iff standardEncoder standard_sized _ DumpKeys.twoKeys [1, 2, 3] _
    ⟨300, some 5, none⟩ rfl).mpr (by decide)⟩

/-- A dump that fills the envelope to the limit is signed, and no frame carries it. -/
theorem signed_not_sent : ∃ envelope, DumpKeys.twoKeys.sign (fun _ _ => ⟨List.replicate 32 7, rfl⟩)
        (List.replicate (maxFrameLen - headerLen) 0) = some envelope ∧
      standardEncoder.encode (.dumpResult envelope {}) = none ∧
      standardEncoder.encode (.shutdown (some envelope)) = none ∧
      loadFits standard envelope = false := by
  obtain ⟨envelope, hsign⟩ : ∃ envelope, DumpKeys.twoKeys.sign
      (fun _ _ => ⟨List.replicate 32 7, rfl⟩) (List.replicate (maxFrameLen - headerLen) 0) =
        some envelope := by
    rw [DumpKeys.sign, if_neg (by rw [List.length_replicate]; decide)]
    exact ⟨_, rfl⟩
  obtain ⟨hpos, hlen, hle⟩ := DumpKeys.length_of_sign hsign
  rw [List.length_replicate] at hlen
  have hfull : maxFrameLen < envelope.length + 10 := by
    rw [hlen]
    decide
  refine ⟨envelope, hsign, ?_, ?_, ?_⟩
  · rw [← Option.not_isSome_iff_eq_none, dumpResult_fits_iff _ hpos hle]
    omega
  · rw [← Option.not_isSome_iff_eq_none, shutdown_fits_iff _ hle]
    omega
  · rw [← Bool.not_eq_true, loadFits_iff standard_sized hpos hle]
    omega

end Montygo.Server
