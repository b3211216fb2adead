import Montygo.Go.Strings
import Montygo.Lib.Utf8

/-!
# Runes

`unicode/utf8` finds the rune at the start of a byte sequence by the ranges of its bytes.  It finds
the encodings of scalar values, and so `utf8.Valid` accepts the well-formed sequences.
-/

namespace Montygo.Go

open Utf8

variable {b b₀ b₁ b₂ b₃ : UInt8} {s : Bytes}

theorem isCont_iff : isCont b = true ↔ Tail b := by
  have hall : ∀ n : Fin 256, n.val &&& 0xC0 = 0x80 ↔ 0x80 ≤ n.val ∧ n.val ≤ 0xBF := by
    decide +kernel
  have hbyte := hall ⟨b.toNat, b.toNat_lt⟩
  simpa [isCont, Tail, ← UInt8.toNat_inj] using hbyte

theorem second3_iff :
    ((b₀ == 0xE0 && 0xA0 ≤ b₁ && b₁ ≤ 0xBF) || (0xE1 ≤ b₀ && b₀ ≤ 0xEC && isCont b₁) ||
      (b₀ == 0xED && 0x80 ≤ b₁ && b₁ ≤ 0x9F) || (0xEE ≤ b₀ && b₀ ≤ 0xEF && isCont b₁)) = true ↔
    Second3 b₀ b₁ := by
  simp only [Bool.or_eq_true, Bool.and_eq_true, decide_eq_true_eq, beq_iff_eq, isCont_iff,
    UInt8.le_iff_toNat_le, ← UInt8.toNat_inj, UInt8.toNat_ofNat, Second3, Tail]
  omega

theorem second4_iff :
    ((b₀ == 0xF0 && 0x90 ≤ b₁ && b₁ ≤ 0xBF) || (0xF1 ≤ b₀ && b₀ ≤ 0xF3 && isCont b₁) ||
      (b₀ == 0xF4 && 0x80 ≤ b₁ && b₁ ≤ 0x8F)) = true ↔ Second4 b₀ b₁ := by
  simp only [Bool.or_eq_true, Bool.and_eq_true, decide_eq_true_eq, beq_iff_eq, isCont_iff,
    UInt8.le_iff_toNat_le, ← UInt8.toNat_inj, UInt8.toNat_ofNat, Second4, Tail]
  omega

theorem isRune2_iff : isRune2 b₀ b₁ = true ↔ Sequence [b₀, b₁] := by
  simp [isRune2, isCont_iff, UInt8.le_iff_toNat_le, sequence_two]

theorem isRune3_iff : isRune3 b₀ b₁ b₂ = true ↔ Sequence [b₀, b₁, b₂] := by
  rw [isRune3, Bool.and_eq_true, second3_iff, isCont_iff, sequence_three]

theorem isRune4_iff : isRune4 b₀ b₁ b₂ b₃ = true ↔ Sequence [b₀, b₁, b₂, b₃] := by
  rw [isRune4, Bool.and_eq_true, Bool.and_eq_true, second4_iff, isCont_iff, isCont_iff,
    sequence_four, and_assoc]

/-! ## The rune at the start -/

theorem runeLen_cases {b : UInt8} {rest : Bytes} (h : 0 < runeLen (b :: rest)) :
    (b < 0x80 ∧ runeLen (b :: rest) = 1) ∨
    (∃ b₁ t, rest = b₁ :: t ∧ isRune2 b b₁ = true ∧ runeLen (b :: rest) = 2) ∨
    (∃ b₁ b₂ t, rest = b₁ :: b₂ :: t ∧ isRune3 b b₁ b₂ = true ∧ runeLen (b :: rest) = 3) ∨
    (∃ b₁ b₂ b₃ t, rest = b₁ :: b₂ :: b₃ :: t ∧ isRune4 b b₁ b₂ b₃ = true ∧
      runeLen (b :: rest) = 4) := by
  simp only [runeLen] at h ⊢
  split at h
  · simp_all
  split at h
  · simp at h
  split at h
  · simp_all
  split at h
  · simp at h
  split at h
  · simp_all
  split at h
  · simp at h
  split at h
  · simp_all
  · simp at h

theorem lt_0x80_iff : b₀ < 0x80 ↔ Sequence [b₀] := by
  simp [UInt8.lt_iff_toNat_lt, sequence_one]

theorem exists_of_runeLen_pos (h : 0 < runeLen s) :
    ∃ t rest, s = t ++ rest ∧ Sequence t ∧ runeLen s = t.length := by
  cases s with
  | nil => cases h
  | cons b₀ rest =>
    rcases runeLen_cases h with ⟨hb, hlen⟩ | ⟨b₁, t, rfl, hb, hlen⟩ |
      ⟨b₁, b₂, t, rfl, hb, hlen⟩ | ⟨b₁, b₂, b₃, t, rfl, hb, hlen⟩
    · exact ⟨[b₀], rest, rfl, lt_0x80_iff.mp hb, hlen⟩
    · exact ⟨[b₀, b₁], t, rfl, isRune2_iff.mp hb, hlen⟩
    · exact ⟨[b₀, b₁, b₂], t, rfl, isRune3_iff.mp hb, hlen⟩
    · exact ⟨[b₀, b₁, b₂, b₃], t, rfl, isRune4_iff.mp hb, hlen⟩

theorem runeLen_append {t : Bytes} (h : Sequence t) (rest : Bytes) :
    runeLen (t ++ rest) = t.length := by
  cases h with
  | one h => simp [runeLen, UInt8.lt_iff_toNat_lt, h]
  | @two b₀ b₁ h h₁ =>
    have hlow : ¬b₀ < 0x80 := by
      rw [lt_0x80_iff, sequence_one]
      omega
    simp [runeLen, hlow, isRune2_iff.mpr (.two h h₁)]
  | @three b₀ b₁ b₂ h₁ h₂ =>
    have hlo := h₁.1
    have hhi := h₁.2.1
    have hlow : ¬b₀ < 0x80 := by
      rw [lt_0x80_iff, sequence_one]
      omega
    have htwo : isRune2 b₀ b₁ = false := by
      rw [Bool.eq_false_iff, Ne, isRune2_iff, sequence_two]
      omega
    simp [runeLen, hlow, htwo, isRune3_iff.mpr (.three h₁ h₂)]
  | @four b₀ b₁ b₂ b₃ h₁ h₂ h₃ =>
    have hlo := h₁.1
    have hhi := h₁.2.1
    have hlow : ¬b₀ < 0x80 := by
      rw [lt_0x80_iff, sequence_one]
      omega
    have htwo : isRune2 b₀ b₁ = false := by
      rw [Bool.eq_false_iff, Ne, isRune2_iff, sequence_two]
      omega
    have hthree : isRune3 b₀ b₁ b₂ = false := by
      rw [Bool.eq_false_iff, Ne, isRune3_iff, sequence_three, Second3]
      omega
    simp [runeLen, hlow, htwo, hthree, isRune4_iff.mpr (.four h₁ h₂ h₃)]

theorem runeLen_eq_zero_iff : runeLen s = 0 ↔ ¬Begins s := by
  constructor
  · rintro h ⟨c, rest, rfl⟩
    rw [runeLen_append (sequence_encode c)] at h
    exact String.utf8EncodeChar_ne_nil (List.length_eq_zero_iff.mp h)
  · intro h
    by_contra hpos
    obtain ⟨t, rest, rfl, ht, -⟩ := exists_of_runeLen_pos (Nat.pos_of_ne_zero hpos)
    obtain ⟨c, rfl⟩ := exists_encode_eq ht
    exact h ⟨c, rest, rfl⟩

/-! ## Valid strings -/

theorem runeLens_all_iff {fuel : ℕ} (hfuel : s.length ≤ fuel) :
    (runeLens fuel s).all (0 < ·) = true ↔ WellFormed s := by
  induction fuel generalizing s with
  | zero =>
    obtain rfl := List.length_eq_zero_iff.mp (Nat.le_zero.mp hfuel)
    simp [runeLens, wellFormed_nil]
  | succ fuel ih =>
    cases s with
    | nil => simp [runeLens, wellFormed_nil]
    | cons b rest =>
      simp only [runeLens, List.all_cons, Bool.and_eq_true, decide_eq_true_eq]
      by_cases hpos : 0 < runeLen (b :: rest)
      · obtain ⟨t, more, hsplit, ht, hlen⟩ := exists_of_runeLen_pos hpos
        have hmore : rest.drop (runeLen (b :: rest) - 1) = more := by
          rw [hlen] at hpos ⊢
          cases t with
          | nil => cases hpos
          | cons x t =>
            obtain ⟨-, rfl⟩ := List.cons.inj hsplit
            exact List.drop_left
        have hshort : more.length ≤ fuel := by
          have := congrArg List.length hsplit
          simp only [List.length_cons, List.length_append] at this hfuel
          omega
        rw [hmore, ih hshort, hsplit]
        exact ⟨fun h => ht.wellFormed.append h.2, fun h => ⟨hsplit ▸ hpos,
          ht.wellFormed.of_append h⟩⟩
      · refine ⟨fun h => absurd h.1 hpos, fun h => ?_⟩
        rcases h.cases with hnil | ⟨c, more, hmore, -⟩
        · cases hnil
        · exact absurd ⟨c, more, hmore⟩ (runeLen_eq_zero_iff.mp (by omega))

/-- `utf8.Valid` accepts the well-formed sequences. -/
theorem validString_iff : validString s = true ↔ WellFormed s := runeLens_all_iff (Nat.le_refl _)

/-! ## Full runes -/

/-- The bytes that the rune with this first byte has; an invalid first byte counts as a rune. -/
def runeSize (b : UInt8) : ℕ :=
  if b < 0xC2 then 1 else if b < 0xE0 then 2 else if b < 0xF0 then 3 else if b < 0xF5 then 4 else 1

/-- The range of the second byte. -/
def acceptSecond (b₀ b₁ : UInt8) : Bool :=
  (if b₀ = 0xE0 then 0xA0 else if b₀ = 0xF0 then 0x90 else 0x80) ≤ b₁ &&
    b₁ ≤ (if b₀ = 0xED then 0x9F else if b₀ = 0xF4 then 0x8F else 0xBF)

def fullRune : Bytes → Bool
  | [] => false
  | b₀ :: rest =>
    decide (runeSize b₀ ≤ rest.length + 1) ||
      match rest with
      | [] => false
      | [b₁] => !acceptSecond b₀ b₁
      | b₁ :: b₂ :: _ => !acceptSecond b₀ b₁ || !isCont b₂

theorem acceptSecond_iff : acceptSecond b₀ b₁ = true ↔
    Tail b₁ ∧ (b₀.toNat = 0xE0 → 0xA0 ≤ b₁.toNat) ∧ (b₀.toNat = 0xF0 → 0x90 ≤ b₁.toNat) ∧
      (b₀.toNat = 0xED → b₁.toNat ≤ 0x9F) ∧ (b₀.toNat = 0xF4 → b₁.toNat ≤ 0x8F) := by
  simp only [acceptSecond, Bool.and_eq_true, decide_eq_true_eq, Tail, ← UInt8.toNat_inj,
    UInt8.le_iff_toNat_le, UInt8.toNat_ofNat]
  split_ifs <;> simp <;> omega

/-- A rune with this first byte has two, three or four bytes exactly for the leads of such. -/
theorem lt_runeSize_iff (b₀ : UInt8) {n : ℕ} (hn : 1 ≤ n) : n < runeSize b₀ ↔
    0xC2 ≤ b₀.toNat ∧ b₀.toNat ≤ 0xF4 ∧ n ≤ 3 ∧ (2 ≤ n → 0xE0 ≤ b₀.toNat) ∧
      (3 ≤ n → 0xF0 ≤ b₀.toNat) := by
  simp only [runeSize, UInt8.lt_iff_toNat_lt, UInt8.toNat_ofNat]
  split_ifs <;> omega

/-- `utf8.FullRune` refuses the beginnings of longer encodings. -/
theorem fullRune_eq_false_iff (hs : s ≠ []) : fullRune s = false ↔ Start s := by
  rcases s with _ | ⟨b₀, _ | ⟨b₁, _ | ⟨b₂, _ | ⟨b₃, rest⟩⟩⟩⟩
  · exact absurd rfl hs
  · have hsize := lt_runeSize_iff b₀ (Nat.le_refl 1)
    simp only [fullRune, List.length_nil, Bool.or_false, decide_eq_false_iff_not, not_le, start_one]
    omega
  · have hsize := lt_runeSize_iff b₀ (Nat.le_succ 1)
    simp only [fullRune, List.length_cons, List.length_nil, Bool.or_eq_false_iff,
      decide_eq_false_iff_not, not_le, Bool.not_eq_false', acceptSecond_iff, start_two, Second3, Second4, Tail]
    omega
  · have hsize := lt_runeSize_iff b₀ (Nat.le_add_left 1 2)
    simp only [fullRune, List.length_cons, List.length_nil, Bool.or_eq_false_iff,
      decide_eq_false_iff_not, not_le, Bool.not_eq_false', acceptSecond_iff, isCont_iff,
      start_three, Second4, Tail]
    omega
  · have hsize : ¬(b₁ :: b₂ :: b₃ :: rest).length + 1 < runeSize b₀ := by
      rw [lt_runeSize_iff b₀ (by simp)]
      simp only [List.length_cons]
      omega
    refine ⟨fun h => ?_, fun h => by cases h⟩
    simp only [fullRune, Bool.or_eq_false_iff, decide_eq_false_iff_not, not_le] at h
    exact absurd h.1 hsize

end Montygo.Go
