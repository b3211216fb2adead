import Montygo.Go.Utf8
import Montygo.MountFs.Error

/-!
# UTF-8 checks of names and contents

`utf8Check` reports where a byte sequence stops being UTF-8, and `lossyUTF8`
replaces every bad sequence by U+FFFD.  On valid UTF-8 both do nothing, which is
what the listing of a host directory needs.
-/

namespace Montygo.MountFs

open Go Utf8

/-- The result of `utf8Check`: the valid prefix, and the length of the bad sequence
after it, 0 when the input ends inside a sequence. -/
structure Utf8Result where
  validUpTo : ℕ
  errorLen : ℕ
  ok : Bool
  deriving DecidableEq, Repr

def utf8CharWidth (b : UInt8) : ℕ :=
  if b < 0x80 then 1
  else if b < 0xC2 then 0
  else if b < 0xE0 then 2
  else if b < 0xF0 then 3
  else if b < 0xF5 then 4
  else 0

/-- The second byte of a three-byte sequence. -/
def second3 (first s : UInt8) : Bool :=
  (first == 0xE0 && 0xA0 ≤ s && s ≤ 0xBF) || (0xE1 ≤ first && first ≤ 0xEC && isCont s) ||
    (first == 0xED && 0x80 ≤ s && s ≤ 0x9F) || (0xEE ≤ first && first ≤ 0xEF && isCont s)

/-- The second byte of a four-byte sequence. -/
def second4 (first s : UInt8) : Bool :=
  (first == 0xF0 && 0x90 ≤ s && s ≤ 0xBF) || (0xF1 ≤ first && first ≤ 0xF3 && isCont s) ||
    (first == 0xF4 && 0x80 ≤ s && s ≤ 0x8F)

/-- The loop of `utf8Check`, with `i` bytes read. -/
def utf8CheckFrom : ℕ → Bytes → Utf8Result
  | i, [] => ⟨i, 0, true⟩
  | i, first :: rest =>
    if first < 0x80 then utf8CheckFrom (i + 1) rest
    else
      match utf8CharWidth first with
      | 2 =>
        match rest with
        | [] => ⟨i, 0, false⟩
        | b₁ :: rest => if !isCont b₁ then ⟨i, 1, false⟩ else utf8CheckFrom (i + 2) rest
      | 3 =>
        match rest with
        | [] => ⟨i, 0, false⟩
        | [s] => if !second3 first s then ⟨i, 1, false⟩ else ⟨i, 0, false⟩
        | s :: b₂ :: rest =>
          if !second3 first s then ⟨i, 1, false⟩
          else if !isCont b₂ then ⟨i, 2, false⟩
          else utf8CheckFrom (i + 3) rest
      | 4 =>
        match rest with
        | [] => ⟨i, 0, false⟩
        | [s] => if !second4 first s then ⟨i, 1, false⟩ else ⟨i, 0, false⟩
        | [s, b₂] =>
          if !second4 first s then ⟨i, 1, false⟩
          else if !isCont b₂ then ⟨i, 2, false⟩
          else ⟨i, 0, false⟩
        | s :: b₂ :: b₃ :: rest =>
          if !second4 first s then ⟨i, 1, false⟩
          else if !isCont b₂ then ⟨i, 2, false⟩
          else if !isCont b₃ then ⟨i, 3, false⟩
          else utf8CheckFrom (i + 4) rest
      | _ => ⟨i, 1, false⟩

def utf8Check (v : Bytes) : Utf8Result := utf8CheckFrom 0 v

def utf8ErrorReason (firstBad : UInt8) (errorLen : ℕ) : GoString :=
  if errorLen = 0 then lit "unexpected end of data"
  else if 0xC2 ≤ firstBad ∧ firstBad ≤ 0xF4 then lit "invalid continuation byte"
  else lit "invalid start byte"

def maxUnicodeObjectLen : ℕ := 64 * 1024

def bytesToUTF8 (b : Bytes) : Except MountError GoString :=
  let r := utf8Check b
  if r.ok then .ok b
  else
    .error (.invalidUTF8 {
      start := r.validUpTo
      stop := if r.errorLen > 0 then r.validUpTo + r.errorLen else b.length
      firstByte := b.getD r.validUpTo 0
      reason := utf8ErrorReason (b.getD r.validUpTo 0) r.errorLen
      object := if b.length ≤ maxUnicodeObjectLen then some b else none })

/-- The loop of `lossyUTF8`; every round consumes a byte, so the length bounds it. -/
def lossyLoop : ℕ → Bytes → Bytes
  | 0, _ => []
  | _, [] => []
  | fuel + 1, b =>
    let r := utf8Check b
    b.take r.validUpTo ++
      if r.ok then []
      else lit "�" ++
        if r.errorLen = 0 then [] else lossyLoop fuel (b.drop (r.validUpTo + r.errorLen))

def lossyUTF8 (s : GoString) : GoString :=
  if (utf8Check s).ok then s else lossyLoop s.length s

/-! ## What the check finds -/

variable {b : UInt8} {i : ℕ} {v : Bytes} {r : Utf8Result}

/-- What `utf8Check` says of a sequence from which `i` bytes were read before. -/
inductive Checked (i : ℕ) (v : Bytes) : Utf8Result → Prop where
  | accepted (h : WellFormed v) : Checked i v ⟨i + v.length, 0, true⟩
  | rejected {good bad : Bytes} {n : ℕ} (hv : v = good ++ bad) (hgood : WellFormed good)
      (hbad : Stuck bad n) : Checked i v ⟨i + good.length, n, false⟩

theorem Checked.stuck {n : ℕ} (h : Stuck v n) : Checked i v ⟨i, n, false⟩ :=
  .rejected (List.nil_append v).symm wellFormed_nil h

theorem Checked.behind {t : Bytes} (ht : Sequence t) {k : ℕ} (hk : t.length = k)
    (h : Checked (i + k) v r) : Checked i (t ++ v) r := by
  subst hk
  cases h with
  | accepted h =>
    have haccepted : Checked i (t ++ v) ⟨i + (t ++ v).length, 0, true⟩ :=
      .accepted (ht.wellFormed.append h)
    rwa [List.length_append, ← Nat.add_assoc] at haccepted
  | @rejected good bad n hv hgood hbad =>
    have hrejected : Checked i (t ++ v) ⟨i + (t ++ good).length, n, false⟩ :=
      .rejected (by rw [hv, List.append_assoc]) (ht.wellFormed.append hgood) hbad
    rwa [List.length_append, ← Nat.add_assoc] at hrejected

theorem not_isCont : (!isCont b) = true ↔ ¬Tail b := by
  rw [Bool.not_eq_true', Bool.eq_false_iff, Ne, isCont_iff]

theorem not_second3 {a : UInt8} : (!second3 a b) = true ↔ ¬Second3 a b := by
  rw [Bool.not_eq_true', Bool.eq_false_iff, Ne, second3, second3_iff]

theorem not_second4 {a : UInt8} : (!second4 a b) = true ↔ ¬Second4 a b := by
  rw [Bool.not_eq_true', Bool.eq_false_iff, Ne, second4, second4_iff]

theorem width_two (h : utf8CharWidth b = 2) : 0xC2 ≤ b.toNat ∧ b.toNat ≤ 0xDF := by
  simp only [utf8CharWidth, UInt8.lt_iff_toNat_lt, UInt8.toNat_ofNat] at h
  split_ifs at h <;> omega

theorem width_three (h : utf8CharWidth b = 3) : 0xE0 ≤ b.toNat ∧ b.toNat ≤ 0xEF := by
  simp only [utf8CharWidth, UInt8.lt_iff_toNat_lt, UInt8.toNat_ofNat] at h
  split_ifs at h <;> omega

theorem width_four (h : utf8CharWidth b = 4) : 0xF0 ≤ b.toNat ∧ b.toNat ≤ 0xF4 := by
  simp only [utf8CharWidth, UInt8.lt_iff_toNat_lt, UInt8.toNat_ofNat] at h
  split_ifs at h <;> omega

variable {b₀ b₁ b₂ : UInt8}

theorem stuck_two (rest : Bytes) (h : utf8CharWidth b₀ = 2) (h₁ : ¬Tail b₁) :
    Stuck (b₀ :: b₁ :: rest) 1 := by
  have hlead := width_two h
  refine .broken (s := [b₀]) rest (.inr (.lead (by omega))) ?_ ?_
  · change ¬Start [b₀, b₁]
    rw [start_two, Second3, Second4]
    omega
  · change ¬Sequence [b₀, b₁]
    rw [sequence_two]
    exact fun hsequence => h₁ hsequence.2

theorem stuck_three (rest : Bytes) (h : utf8CharWidth b₀ = 3) (h₁ : ¬Second3 b₀ b₁) :
    Stuck (b₀ :: b₁ :: rest) 1 := by
  have hlead := width_three h
  refine .broken (s := [b₀]) rest (.inr (.lead (by omega))) ?_ ?_
  · change ¬Start [b₀, b₁]
    rw [start_two]
    rintro (hstart | hstart)
    · exact h₁ hstart
    · have := hstart.1
      omega
  · change ¬Sequence [b₀, b₁]
    rw [sequence_two]
    omega

theorem stuck_three_third (rest : Bytes) (h₁ : Second3 b₀ b₁) (h₂ : ¬Tail b₂) :
    Stuck (b₀ :: b₁ :: b₂ :: rest) 2 := by
  have hhi := h₁.2.1
  refine .broken (s := [b₀, b₁]) rest (.inr (.second3 h₁)) ?_ ?_
  · change ¬Start [b₀, b₁, b₂]
    rw [start_three, Second4]
    omega
  · change ¬Sequence [b₀, b₁, b₂]
    rw [sequence_three]
    exact fun hsequence => h₂ hsequence.2

theorem stuck_four (rest : Bytes) (h : utf8CharWidth b₀ = 4) (h₁ : ¬Second4 b₀ b₁) :
    Stuck (b₀ :: b₁ :: rest) 1 := by
  have hlead := width_four h
  refine .broken (s := [b₀]) rest (.inr (.lead (by omega))) ?_ ?_
  · change ¬Start [b₀, b₁]
    rw [start_two]
    rintro (hstart | hstart)
    · have := hstart.2.1
      omega
    · exact h₁ hstart
  · change ¬Sequence [b₀, b₁]
    rw [sequence_two]
    omega

theorem stuck_four_third (rest : Bytes) (h₁ : Second4 b₀ b₁) (h₂ : ¬Tail b₂) :
    Stuck (b₀ :: b₁ :: b₂ :: rest) 2 := by
  have hlo := h₁.1
  refine .broken (s := [b₀, b₁]) rest (.inr (.second4 h₁)) ?_ ?_
  · change ¬Start [b₀, b₁, b₂]
    rw [start_three]
    exact fun hstart => h₂ hstart.2
  · change ¬Sequence [b₀, b₁, b₂]
    rw [sequence_three, Second3]
    omega

theorem stuck_four_fourth {b₃ : UInt8} (rest : Bytes) (h₁ : Second4 b₀ b₁) (h₂ : Tail b₂)
    (h₃ : ¬Tail b₃) : Stuck (b₀ :: b₁ :: b₂ :: b₃ :: rest) 3 := by
  refine .broken (s := [b₀, b₁, b₂]) rest (.inr (.third h₁ h₂)) ?_ ?_
  · exact not_start_four
  change ¬Sequence [b₀, b₁, b₂, b₃]
  rw [sequence_four]
  exact fun hsequence => h₃ hsequence.2.2

theorem stuck_lead (rest : Bytes) (hlow : ¬b₀ < 0x80)
    (h : utf8CharWidth b₀ ≠ 2 ∧ utf8CharWidth b₀ ≠ 3 ∧ utf8CharWidth b₀ ≠ 4) :
    Stuck (b₀ :: rest) 1 := by
  rw [lt_0x80_iff] at hlow
  refine .broken (s := []) rest (.inl rfl) ?_ hlow
  change ¬Start [b₀]
  rw [start_one]
  simp only [utf8CharWidth, UInt8.lt_iff_toNat_lt, UInt8.toNat_ofNat] at h
  split_ifs at h <;> omega

/-- **The check finds the well-formed part and what is wrong behind it.** -/
theorem checked_utf8CheckFrom (i : ℕ) (v : Bytes) : Checked i v (utf8CheckFrom i v) := by
  fun_induction utf8CheckFrom i v with
  | case1 i => exact .accepted wellFormed_nil
  | case2 i first rest hlow ih => exact .behind (t := [first]) (lt_0x80_iff.mp hlow) rfl ih
  | case3 i first _ hwidth =>
    have := width_two hwidth
    exact .stuck (.ended (.lead (by omega)))
  | case4 i first _ hwidth b₁ rest hcont =>
    rw [not_isCont] at hcont
    exact .stuck (stuck_two rest hwidth hcont)
  | case5 i first _ hwidth b₁ rest hcont ih =>
    rw [not_isCont, not_not] at hcont
    exact .behind (t := [first, b₁]) (.two (width_two hwidth) hcont) rfl ih
  | case6 i first _ hwidth =>
    have := width_three hwidth
    exact .stuck (.ended (.lead (by omega)))
  | case7 i first _ hwidth s hsecond =>
    rw [not_second3] at hsecond
    exact .stuck (stuck_three [] hwidth hsecond)
  | case8 i first _ hwidth s hsecond =>
    rw [not_second3, not_not] at hsecond
    exact .stuck (.ended (.second3 hsecond))
  | case9 i first _ hwidth s b₂ rest hsecond =>
    rw [not_second3] at hsecond
    exact .stuck (stuck_three _ hwidth hsecond)
  | case10 i first _ hwidth s b₂ rest hsecond hcont =>
    rw [not_second3, not_not] at hsecond
    rw [not_isCont] at hcont
    exact .stuck (stuck_three_third rest hsecond hcont)
  | case11 i first _ hwidth s b₂ rest hsecond hcont ih =>
    rw [not_second3, not_not] at hsecond
    rw [not_isCont, not_not] at hcont
    exact .behind (t := [first, s, b₂]) (.three hsecond hcont) rfl ih
  | case12 i first _ hwidth =>
    have := width_four hwidth
    exact .stuck (.ended (.lead (by omega)))
  | case13 i first _ hwidth s hsecond =>
    rw [not_second4] at hsecond
    exact .stuck (stuck_four [] hwidth hsecond)
  | case14 i first _ hwidth s hsecond =>
    rw [not_second4, not_not] at hsecond
    exact .stuck (.ended (.second4 hsecond))
  | case15 i first _ hwidth s b₂ hsecond =>
    rw [not_second4] at hsecond
    exact .stuck (stuck_four _ hwidth hsecond)
  | case16 i first _ hwidth s b₂ hsecond hcont =>
    rw [not_second4, not_not] at hsecond
    rw [not_isCont] at hcont
    exact .stuck (stuck_four_third [] hsecond hcont)
  | case17 i first _ hwidth s b₂ hsecond hcont =>
    rw [not_second4, not_not] at hsecond
    rw [not_isCont, not_not] at hcont
    exact .stuck (.ended (.third hsecond hcont))
  | case18 i first _ hwidth s b₂ b₃ rest hsecond =>
    rw [not_second4] at hsecond
    exact .stuck (stuck_four _ hwidth hsecond)
  | case19 i first _ hwidth s b₂ b₃ rest hsecond hcont =>
    rw [not_second4, not_not] at hsecond
    rw [not_isCont] at hcont
    exact .stuck (stuck_four_third _ hsecond hcont)
  | case20 i first _ hwidth s b₂ b₃ rest hsecond hcont₂ hcont₃ =>
    rw [not_second4, not_not] at hsecond
    rw [not_isCont, not_not] at hcont₂
    rw [not_isCont] at hcont₃
    exact .stuck (stuck_four_fourth rest hsecond hcont₂ hcont₃)
  | case21 i first _ hwidth s b₂ b₃ rest hsecond hcont₂ hcont₃ ih =>
    rw [not_second4, not_not] at hsecond
    rw [not_isCont, not_not] at hcont₂ hcont₃
    exact .behind (t := [first, s, b₂, b₃]) (.four hsecond hcont₂ hcont₃) rfl ih
  | case22 i first rest hlow h2 h3 h4 =>
    exact .stuck (stuck_lead rest hlow ⟨h2, h3, h4⟩)

theorem checked_utf8Check (v : Bytes) : Checked 0 v (utf8Check v) := checked_utf8CheckFrom 0 v

theorem utf8Check_ok_iff : (utf8Check v).ok = true ↔ WellFormed v := by
  have hchecked := checked_utf8Check v
  generalize utf8Check v = r at hchecked
  cases hchecked with
  | accepted h => exact ⟨fun _ => h, fun _ => rfl⟩
  | rejected hv hgood hbad =>
    subst hv
    exact ⟨nofun, fun h => absurd h (hbad.not_wellFormed hgood)⟩

theorem utf8Check_of_wellFormed (h : WellFormed v) : utf8Check v = ⟨v.length, 0, true⟩ := by
  have hchecked := checked_utf8Check v
  generalize utf8Check v = r at hchecked
  cases hchecked with
  | accepted _ => rw [Nat.zero_add]
  | rejected hv hgood hbad =>
    subst hv
    exact absurd h (hbad.not_wellFormed hgood)

theorem utf8Check_rejects (h : (utf8Check v).ok = false) :
    ∃ good bad, v = good ++ bad ∧ WellFormed good ∧ Stuck bad (utf8Check v).errorLen ∧
      (utf8Check v).validUpTo = good.length := by
  have hchecked := checked_utf8Check v
  generalize utf8Check v = r at hchecked h
  cases hchecked with
  | accepted _ => cases h
  | @rejected good bad n hv hgood hbad => exact ⟨good, bad, hv, hgood, hbad, Nat.zero_add _⟩

/-! ## Replacing what is not well-formed -/

theorem wellFormed_replacement : WellFormed (lit "�") := ⟨['�'], rfl⟩

theorem wellFormed_take (v : Bytes) : WellFormed (v.take (utf8Check v).validUpTo) := by
  cases hok : (utf8Check v).ok with
  | true =>
    have hv := utf8Check_ok_iff.mp hok
    rw [utf8Check_of_wellFormed hv, List.take_length]
    exact hv
  | false =>
    obtain ⟨good, bad, hv, hgood, -, hvalid⟩ := utf8Check_rejects hok
    rw [hvalid, hv, List.take_left]
    exact hgood

theorem wellFormed_lossyLoop (fuel : ℕ) (v : Bytes) : WellFormed (lossyLoop fuel v) := by
  induction fuel generalizing v with
  | zero => exact wellFormed_nil
  | succ fuel ih =>
    cases v with
    | nil => exact wellFormed_nil
    | cons b rest =>
      simp only [lossyLoop]
      refine (wellFormed_take _).append ?_
      split
      · exact wellFormed_nil
      refine wellFormed_replacement.append ?_
      split
      · exact wellFormed_nil
      · exact ih _

theorem wellFormed_lossyUTF8 (v : GoString) : WellFormed (lossyUTF8 v) := by
  unfold lossyUTF8
  split
  · rename_i hok
    exact utf8Check_ok_iff.mp hok
  · exact wellFormed_lossyLoop _ _

theorem lossyUTF8_of_wellFormed {v : GoString} (h : WellFormed v) : lossyUTF8 v = v :=
  if_pos (utf8Check_ok_iff.mpr h)

/-- **What `utf8Check` and `lossyUTF8` do**: the check accepts the concatenations of encodings of
scalar values and nothing else.  On rejection it gives the length of the longest well-formed
prefix, and 0 if the rest is the beginning of an encoding, otherwise the length of the maximal
part behind the prefix.  The replacement is well-formed, leaves well-formed input as it is, and
doing it again changes nothing. -/
theorem utf8Check_spec (v : Bytes) : ((utf8Check v).ok = true ↔ WellFormed v) ∧
    ((utf8Check v).ok = false → WellFormed (v.take (utf8Check v).validUpTo) ∧
      (∀ k ≤ v.length, WellFormed (v.take k) → k ≤ (utf8Check v).validUpTo) ∧
      ((utf8Check v).errorLen = 0 ↔ Completable (v.drop (utf8Check v).validUpTo)) ∧
      ((utf8Check v).errorLen ≠ 0 →
        MaximalPart (v.drop (utf8Check v).validUpTo) (utf8Check v).errorLen)) ∧
    WellFormed (lossyUTF8 v) ∧ (WellFormed v → lossyUTF8 v = v) ∧
      lossyUTF8 (lossyUTF8 v) = lossyUTF8 v := by
  refine ⟨utf8Check_ok_iff, fun hok => ?_, wellFormed_lossyUTF8 v, lossyUTF8_of_wellFormed,
    lossyUTF8_of_wellFormed (wellFormed_lossyUTF8 v)⟩
  obtain ⟨good, bad, hv, hgood, hbad, hvalid⟩ := utf8Check_rejects hok
  refine ⟨wellFormed_take v, fun k hk hwell => ?_, ?_, fun hzero => ?_⟩
  · rw [hvalid]
    rw [hv] at hk hwell
    exact hbad.longest hgood hk hwell
  · rw [hvalid, hv, List.drop_left, ← hv]
    exact hbad.completable_iff
  · rw [hvalid, hv, List.drop_left, ← hv]
    exact hbad.maximalPart hzero

example : utf8Check [0x61, 0xE2, 0x82, 0x41] = ⟨1, 2, false⟩ := by decide

/-- Valid UTF-8 passes `utf8Check`. -/
theorem utf8Check_of_validString {s : Bytes} (hs : validString s = true) :
    utf8Check s = ⟨s.length, 0, true⟩ := utf8Check_of_wellFormed (validString_iff.mp hs)

/-- `lossyUTF8` leaves valid UTF-8 alone. -/
theorem lossyUTF8_of_validString {s : GoString} (hs : validString s = true) : lossyUTF8 s = s := by
  rw [lossyUTF8, utf8Check_of_validString hs, if_pos rfl]

end Montygo.MountFs
