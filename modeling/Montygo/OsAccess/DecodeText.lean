import Montygo.MountFs.Utf8
import Montygo.Go.Format

/-!
# Reading bytes as text, from a mount and from memory

A host mount decodes a file with `bytesToUTF8`, an in-memory file of an `OSAccess` with
`decodeUTF8`.  The first takes the maximal part that is wrong from `utf8Check`; the second walks
over the runes and names one byte.  Both stop at the same byte for the same reason, and their
messages are the same when the part that is wrong is one byte.
-/

namespace Montygo.OsAccess

open Go MountFs Utf8

/-! ## The messages -/

def unicodeDecodeErrorMsg (codec : GoString) (firstByte : UInt8) (start stop : ℕ)
    (reason : GoString) : GoString :=
  if stop - start = 1 then
    lit "'" ++ codec ++ lit "' codec can't decode byte 0x" ++ hexEncode [firstByte] ++
      lit " in position " ++ decimal start ++ lit ": " ++ reason
  else
    lit "'" ++ codec ++ lit "' codec can't decode bytes in position " ++ decimal start ++ lit "-" ++
      decimal (stop - 1) ++ lit ": " ++ reason

/-- An exception that is raised in the sandbox, without its data. -/
structure Raised where
  excType : GoString
  message : GoString
  deriving DecidableEq

/-- `mountError.exception` for text that is not UTF-8. -/
def decodeException : MountError → Option Raised
  | .invalidUTF8 u =>
    some ⟨lit "UnicodeDecodeError",
      unicodeDecodeErrorMsg (lit "utf-8") u.firstByte u.start u.stop u.reason⟩
  | _ => none

/-- A file of a mount as text. -/
def mountText (b : Bytes) : Except (Option Raised) GoString :=
  (bytesToUTF8 b).mapError decodeException

/-- The exception of `decodeUTF8` at position `i`, where the bytes to come are `rest`. -/
def decodeFailure (i : ℕ) (c : UInt8) (rest : Bytes) : Raised :=
  let reason :=
    if 0xC2 ≤ c ∧ c ≤ 0xF4 then
      if !fullRune rest then lit "unexpected end of data" else lit "invalid continuation byte"
    else lit "invalid start byte"
  ⟨lit "UnicodeDecodeError",
    lit "'utf-8' codec can't decode byte 0x" ++ hexEncode [c] ++ lit " in position " ++ decimal i ++
      lit ": " ++ reason⟩

/-- The loop of `decodeUTF8` from position `i`, with the exception if it meets one; each round
takes a byte, so the length bounds it. -/
def decodeLoop : ℕ → ℕ → Bytes → Option Raised
  | 0, _, _ => none
  | _, _, [] => none
  | fuel + 1, i, c :: rest =>
    let size := runeLen (c :: rest)
    if size = 0 then some (decodeFailure i c (c :: rest))
    else decodeLoop fuel (i + size) ((c :: rest).drop size)

def decodeUTF8 (b : Bytes) : Except (Option Raised) GoString :=
  if validString b then .ok b
  else
    match decodeLoop b.length 0 b with
    | some raised => .error raised
    | none => .ok b

/-! ## Where they stop -/

variable {b good bad : Bytes} {n i fuel : ℕ}

theorem decodeLoop_append {t : Bytes} (ht : Sequence t) (rest : Bytes) :
    decodeLoop (fuel + 1) i (t ++ rest) = decodeLoop fuel (i + t.length) rest := by
  have hlen := runeLen_append ht rest
  cases t with
  | nil => cases ht
  | cons x xs =>
    rw [List.cons_append] at hlen ⊢
    simp only [decodeLoop, hlen]
    rw [if_neg (by simp), ← List.cons_append, List.drop_left]

/-- The loop passes over what is well-formed, within its bound, and stops at what is stuck. -/
theorem decodeLoop_stuck (hgood : WellFormed good) {c : UInt8} {rest : Bytes}
    (hbad : Stuck (c :: rest) n) (hfuel : (good ++ c :: rest).length ≤ fuel) :
    decodeLoop fuel i (good ++ c :: rest) = some (decodeFailure (i + good.length) c (c :: rest)) := by
  obtain ⟨cs, rfl⟩ := hgood
  induction cs generalizing fuel i with
  | nil =>
    cases fuel with
    | zero => simp at hfuel
    | succ fuel =>
      have hzero : runeLen (c :: rest) = 0 := runeLen_eq_zero_iff.mpr hbad.not_begins
      simp [decodeLoop, hzero]
  | cons d ds ih =>
    have hd := sequence_encode d
    have hpos := List.length_pos_of_ne_nil (String.utf8EncodeChar_ne_nil (c := d))
    rw [List.flatMap_cons, List.append_assoc, List.length_append] at hfuel
    obtain ⟨fuel, rfl⟩ : ∃ m, fuel = m + 1 := ⟨fuel - 1, by omega⟩
    rw [List.flatMap_cons, List.append_assoc, decodeLoop_append hd, ih (by omega),
      List.length_append, Nat.add_assoc]

theorem reason_eq {c : UInt8} {rest : Bytes} (hbad : Stuck (c :: rest) n) : utf8ErrorReason c n =
      if 0xC2 ≤ c ∧ c ≤ 0xF4 then
        if !fullRune (c :: rest) then lit "unexpected end of data"
        else lit "invalid continuation byte"
      else lit "invalid start byte" := by
  have hfull := fullRune_eq_false_iff (s := c :: rest) (by simp)
  have hlead : (0xC2 ≤ c ∧ c ≤ 0xF4) ↔ 0xC2 ≤ c.toNat ∧ c.toNat ≤ 0xF4 := by
    simp [UInt8.le_iff_toNat_le]
  by_cases hstart : Start (c :: rest)
  · have hrange := hstart.lead_range
    simp [utf8ErrorReason, hbad.start_iff.mpr hstart, hfull.mpr hstart, hlead.mpr hrange]
  · have hfull' : fullRune (c :: rest) = true := by
      rwa [← Bool.not_eq_false, hfull]
    simp [utf8ErrorReason, mt hbad.start_iff.mp hstart, hfull']

/-- The end of the part that `bytesToUTF8` reports. -/
def failureStop (b : Bytes) : ℕ :=
  if 0 < (utf8Check b).errorLen then (utf8Check b).validUpTo + (utf8Check b).errorLen else b.length

theorem message_one (c : UInt8) (i : ℕ) (reason : GoString) :
    unicodeDecodeErrorMsg (lit "utf-8") c i (i + 1) reason =
      lit "'utf-8' codec can't decode byte 0x" ++ hexEncode [c] ++ lit " in position " ++ decimal i ++
        lit ": " ++ reason := by
  rw [unicodeDecodeErrorMsg, if_pos (by omega)]
  rfl

theorem decode_rejected (hok : (utf8Check b).ok = false) :
    ∃ c reason, mountText b = .error (some ⟨lit "UnicodeDecodeError",
        unicodeDecodeErrorMsg (lit "utf-8") c (utf8Check b).validUpTo (failureStop b) reason⟩) ∧
      decodeUTF8 b = .error (some ⟨lit "UnicodeDecodeError",
        unicodeDecodeErrorMsg (lit "utf-8") c (utf8Check b).validUpTo
          ((utf8Check b).validUpTo + 1) reason⟩) := by
  obtain ⟨good, bad, hb, hgood, hbad, hvalid⟩ := utf8Check_rejects hok
  have hinvalid : validString b = false := by
    rw [Bool.eq_false_iff, Ne, validString_iff, ← utf8Check_ok_iff, hok]
    simp
  cases bad with
  | nil => exact absurd rfl hbad.ne_nil
  | cons c rest =>
    refine ⟨c, utf8ErrorReason c (utf8Check b).errorLen, ?_, ?_⟩
    · have hfirst : b.getD (utf8Check b).validUpTo 0 = c := by
        rw [hvalid, hb]
        simp
      simp only [mountText, bytesToUTF8, hok, Bool.false_eq_true, if_false, hfirst]
      rfl
    · have hloop := decodeLoop_stuck (i := 0) hgood hbad (Nat.le_refl _)
      rw [← hb] at hloop
      simp only [decodeUTF8, hinvalid, Bool.false_eq_true, if_false, hloop, Nat.zero_add,
        ← hvalid, decodeFailure, ← reason_eq hbad, message_one]

theorem message_inj {c : UInt8} {start stop : ℕ} {reason : GoString} :
    unicodeDecodeErrorMsg (lit "utf-8") c start stop reason =
      unicodeDecodeErrorMsg (lit "utf-8") c start (start + 1) reason ↔ stop - start = 1 := by
  constructor
  · intro h
    by_contra hmany
    have hmessage : lit "'" ++ lit "utf-8" ++ lit "' codec can't decode bytes in position " =
        lit "'utf-8' codec can't decode bytes in position " := rfl
    rw [message_one, unicodeDecodeErrorMsg, if_neg hmany, hmessage] at h
    -- After "decode byte" comes an "s" or a blank.
    have hhead := congrArg (List.take 32) h
    simp only [List.append_assoc] at hhead
    rw [List.take_append_of_le_length (by decide), List.take_append_of_le_length (by decide)]
      at hhead
    revert hhead
    decide
  · intro hone
    rw [unicodeDecodeErrorMsg, unicodeDecodeErrorMsg, if_pos hone, if_pos (by omega)]

/-- The length of the longest well-formed part from the start. -/
def LongestPart (b : Bytes) (k : ℕ) : Prop :=
  k ≤ b.length ∧ WellFormed (b.take k) ∧ ∀ j ≤ b.length, WellFormed (b.take j) → j ≤ k

theorem LongestPart.unique {k k' : ℕ} (h : LongestPart b k) (h' : LongestPart b k') : k = k' :=
  Nat.le_antisymm (h'.2.2 k h.1 h.2.1) (h.2.2 k' h'.1 h'.2.1)

theorem maximalPart_one_iff (h : Stuck bad n) :
    MaximalPart bad 1 ↔ (if 0 < n then n else bad.length) = 1 := by
  have hpos := List.length_pos_of_ne_nil h.ne_nil
  have hpart : MaximalPart bad (if 0 < n then n else bad.length) := by
    split
    · exact h.maximalPart (by omega)
    · have hcomplete := h.completable_iff.mp (by omega)
      exact ⟨le_rfl, .inr (by rwa [List.take_length]), fun k hk _ => hk⟩
  constructor
  · intro hone
    obtain hlength | hcomplete := hpart.2.1
    · exact hlength
    · have hle := hone.2.2 _ hpart.1 hcomplete
      exact Nat.le_antisymm hle (by split <;> omega)
  · intro hlength
    rwa [hlength] at hpart

theorem failureStop_iff (hok : (utf8Check b).ok = false) :
    failureStop b - (utf8Check b).validUpTo = 1 ↔ ∃ k, LongestPart b k ∧ MaximalPart (b.drop k) 1 := by
  obtain ⟨good, bad, hb, hgood, hbad, hvalid⟩ := utf8Check_rejects hok
  have hlongest : LongestPart b good.length := by
    rw [hb]
    refine ⟨by simp, by rwa [List.take_left], fun j hj hwell => hbad.longest hgood hj hwell⟩
  have hstop : failureStop b - (utf8Check b).validUpTo =
      if 0 < (utf8Check b).errorLen then (utf8Check b).errorLen else bad.length := by
    have hlength : b.length = good.length + bad.length := by
      rw [hb, List.length_append]
    unfold failureStop
    split <;> omega
  have hdrop : b.drop good.length = bad := by
    rw [hb, List.drop_left]
  rw [hstop, ← maximalPart_one_iff hbad, ← hdrop]
  refine ⟨fun hpart => ⟨_, hlongest, hpart⟩, fun ⟨k, hk, hpart⟩ => ?_⟩
  rwa [hk.unique hlongest] at hpart

/-- **When a mount and an in-memory file read alike**: they give the same text or the same
exception if and only if the input is well-formed or the maximal part that is wrong, behind the
longest well-formed part, is one byte. -/
theorem mountText_eq_decodeUTF8_iff (b : Bytes) : mountText b = decodeUTF8 b ↔
      WellFormed b ∨ ∃ k, LongestPart b k ∧ MaximalPart (b.drop k) 1 := by
  rw [← utf8Check_ok_iff]
  cases hok : (utf8Check b).ok with
  | true =>
    have hvalid : validString b = true := validString_iff.mpr (utf8Check_ok_iff.mp hok)
    simp [mountText, bytesToUTF8, decodeUTF8, hok, hvalid]
    rfl
  | false =>
    obtain ⟨c, reason, hmount, hmemory⟩ := decode_rejected hok
    rw [hmount, hmemory, ← failureStop_iff hok]
    simp [message_inj]

/-- The first two bytes of the euro sign. -/
theorem euro_start_reads_differently :
    mountText [0xE2, 0x82] = .error (some ⟨lit "UnicodeDecodeError",
        lit "'utf-8' codec can't decode bytes in position 0-1: unexpected end of data"⟩) ∧
      decodeUTF8 [0xE2, 0x82] = .error (some ⟨lit "UnicodeDecodeError",
        lit "'utf-8' codec can't decode byte 0xe2 in position 0: unexpected end of data"⟩) ∧
      mountText [0xE2, 0x82] ≠ decodeUTF8 [0xE2, 0x82] := by
  decide +kernel

end Montygo.OsAccess
