import Mathlib.Data.List.Basic
import Mathlib.Data.List.Infix

/-!
# Well-formed UTF-8

The encodings of Unicode scalar values and their concatenations.  `String.utf8EncodeChar` says
what the encoding of a scalar value is, so overlong forms, surrogates and values above U+10FFFF
have no place here.  `Sequence` lists the byte sequences that are such encodings by the ranges of
their bytes, and `Start` those that begin one and are not whole.

The encodings are prefix-free, so a well-formed sequence can be cut only between two of them
(`WellFormed.of_append`).
-/

namespace Montygo.Utf8

open String

/-! ## Encodings by their bytes -/

/-- A continuation byte. -/
def Tail (b : UInt8) : Prop := 0x80 ≤ b.toNat ∧ b.toNat ≤ 0xBF

/-- The second byte of a three-byte sequence: no overlong forms and no surrogates. -/
def Second3 (a b : UInt8) : Prop :=
  0xE0 ≤ a.toNat ∧ a.toNat ≤ 0xEF ∧ Tail b ∧ (a.toNat = 0xE0 → 0xA0 ≤ b.toNat) ∧
    (a.toNat = 0xED → b.toNat ≤ 0x9F)

/-- The second byte of a four-byte sequence: no overlong forms and nothing above U+10FFFF. -/
def Second4 (a b : UInt8) : Prop :=
  0xF0 ≤ a.toNat ∧ a.toNat ≤ 0xF4 ∧ Tail b ∧ (a.toNat = 0xF0 → 0x90 ≤ b.toNat) ∧
    (a.toNat = 0xF4 → b.toNat ≤ 0x8F)

/-- The encodings of scalar values, by the ranges of their bytes. -/
inductive Sequence : List UInt8 → Prop where
  | one {b₀ : UInt8} (h : b₀.toNat < 0x80) : Sequence [b₀]
  | two {b₀ b₁ : UInt8} (h : 0xC2 ≤ b₀.toNat ∧ b₀.toNat ≤ 0xDF) (h₁ : Tail b₁) :
      Sequence [b₀, b₁]
  | three {b₀ b₁ b₂ : UInt8} (h₁ : Second3 b₀ b₁) (h₂ : Tail b₂) : Sequence [b₀, b₁, b₂]
  | four {b₀ b₁ b₂ b₃ : UInt8} (h₁ : Second4 b₀ b₁) (h₂ : Tail b₂) (h₃ : Tail b₃) :
      Sequence [b₀, b₁, b₂, b₃]

/-- The beginnings of longer encodings. -/
inductive Start : List UInt8 → Prop where
  | lead {b₀ : UInt8} (h : 0xC2 ≤ b₀.toNat ∧ b₀.toNat ≤ 0xF4) : Start [b₀]
  | second3 {b₀ b₁ : UInt8} (h : Second3 b₀ b₁) : Start [b₀, b₁]
  | second4 {b₀ b₁ : UInt8} (h : Second4 b₀ b₁) : Start [b₀, b₁]
  | third {b₀ b₁ b₂ : UInt8} (h : Second4 b₀ b₁) (h₂ : Tail b₂) : Start [b₀, b₁, b₂]

variable {b₀ b₁ b₂ b₃ : UInt8} {s t : List UInt8} {c d : Char}

theorem sequence_one : Sequence [b₀] ↔ b₀.toNat < 0x80 := ⟨fun | .one h => h, .one⟩

theorem sequence_two : Sequence [b₀, b₁] ↔ (0xC2 ≤ b₀.toNat ∧ b₀.toNat ≤ 0xDF) ∧ Tail b₁ :=
  ⟨fun | .two h h₁ => ⟨h, h₁⟩, fun h => .two h.1 h.2⟩

theorem sequence_three : Sequence [b₀, b₁, b₂] ↔ Second3 b₀ b₁ ∧ Tail b₂ :=
  ⟨fun | .three h₁ h₂ => ⟨h₁, h₂⟩, fun h => .three h.1 h.2⟩

theorem sequence_four : Sequence [b₀, b₁, b₂, b₃] ↔ Second4 b₀ b₁ ∧ Tail b₂ ∧ Tail b₃ :=
  ⟨fun | .four h₁ h₂ h₃ => ⟨h₁, h₂, h₃⟩, fun h => .four h.1 h.2.1 h.2.2⟩

theorem start_one : Start [b₀] ↔ 0xC2 ≤ b₀.toNat ∧ b₀.toNat ≤ 0xF4 := ⟨fun | .lead h => h, .lead⟩

theorem start_two : Start [b₀, b₁] ↔ Second3 b₀ b₁ ∨ Second4 b₀ b₁ :=
  ⟨fun | .second3 h => .inl h | .second4 h => .inr h, fun h => h.elim .second3 .second4⟩

theorem start_three : Start [b₀, b₁, b₂] ↔ Second4 b₀ b₁ ∧ Tail b₂ :=
  ⟨fun | .third h h₂ => ⟨h, h₂⟩, fun h => .third h.1 h.2⟩

theorem Start.lead_range (h : Start (b₀ :: s)) : 0xC2 ≤ b₀.toNat ∧ b₀.toNat ≤ 0xF4 := by
  cases h with
  | lead h => exact h
  | second3 h =>
    have := h.1
    have := h.2.1
    omega
  | second4 h | third h _ =>
    have := h.1
    exact ⟨by omega, h.2.1⟩

theorem not_start_four : ¬Start [b₀, b₁, b₂, b₃] := nofun

theorem toNat_ofNat_of_lt {n : ℕ} (h : n < 256) : (UInt8.ofNat n).toNat = n :=
  UInt8.toNat_ofNat_of_lt' h

theorem sequence_encode (c : Char) : Sequence (utf8EncodeChar c) := by
  have hvalid := c.valid
  unfold utf8EncodeChar
  generalize hv : c.val.toNat = v
  simp only [UInt32.isValidChar, Nat.isValidChar, hv] at hvalid
  dsimp only
  split_ifs with h1 h2 h3
  · refine .one ?_
    rw [toNat_ofNat_of_lt (by omega)]
    omega
  · refine .two ?_ ?_
    · rw [toNat_ofNat_of_lt (by omega)]
      omega
    · rw [Tail, toNat_ofNat_of_lt (by omega)]
      omega
  · refine .three ?_ ?_
    · simp only [Second3, Tail]
      rw [toNat_ofNat_of_lt (by omega), toNat_ofNat_of_lt (by omega)]
      omega
    · rw [Tail, toNat_ofNat_of_lt (by omega)]
      omega
  · refine .four ?_ ?_ ?_
    · simp only [Second4, Tail]
      rw [toNat_ofNat_of_lt (by omega), toNat_ofNat_of_lt (by omega)]
      omega
    all_goals
      rw [Tail, toNat_ofNat_of_lt (by omega)]
      omega

/-- A number is the scalar value of a character, and its encoding is computed from the number. -/
theorem exists_val_eq {v : ℕ} (h : v.isValidChar) : ∃ c : Char, c.val.toNat = v :=
  ⟨Char.ofNatAux v h, rfl⟩

theorem ofNat_eq_of_eq_toNat (b : UInt8) {n : ℕ} (h : n = b.toNat) : UInt8.ofNat n = b := by
  rw [h, UInt8.ofNat_toNat]

theorem exists_encode_eq (h : Sequence s) : ∃ c, utf8EncodeChar c = s := by
  cases h with
  | @one b₀ h =>
    obtain ⟨c, hc⟩ := exists_val_eq (v := b₀.toNat) (.inl (by omega))
    refine ⟨c, ?_⟩
    simp only [utf8EncodeChar, hc]
    rw [if_pos (by omega), UInt8.ofNat_toNat]
  | @two b₀ b₁ h h₁ =>
    simp only [Tail] at h₁
    obtain ⟨c, hc⟩ := exists_val_eq (v := (b₀.toNat - 0xC0) * 64 + (b₁.toNat - 0x80))
      (.inl (by omega))
    refine ⟨c, ?_⟩
    simp only [utf8EncodeChar, hc]
    rw [if_neg (by omega), if_pos (by omega), ofNat_eq_of_eq_toNat b₀ (by omega),
      ofNat_eq_of_eq_toNat b₁ (by omega)]
  | @three b₀ b₁ b₂ h₁ h₂ =>
    simp only [Second3, Tail] at h₁ h₂
    obtain ⟨c, hc⟩ := exists_val_eq
      (v := (b₀.toNat - 0xE0) * 4096 + (b₁.toNat - 0x80) * 64 + (b₂.toNat - 0x80)) (by
        simp only [Nat.isValidChar]
        omega)
    refine ⟨c, ?_⟩
    simp only [utf8EncodeChar, hc]
    rw [if_neg (by omega), if_neg (by omega), if_pos (by omega),
      ofNat_eq_of_eq_toNat b₀ (by omega), ofNat_eq_of_eq_toNat b₁ (by omega),
      ofNat_eq_of_eq_toNat b₂ (by omega)]
  | @four b₀ b₁ b₂ b₃ h₁ h₂ h₃ =>
    simp only [Second4, Tail] at h₁ h₂ h₃
    obtain ⟨c, hc⟩ := exists_val_eq
      (v := (b₀.toNat - 0xF0) * 262144 + (b₁.toNat - 0x80) * 4096 + (b₂.toNat - 0x80) * 64 +
        (b₃.toNat - 0x80)) (by
        simp only [Nat.isValidChar]
        omega)
    refine ⟨c, ?_⟩
    simp only [utf8EncodeChar, hc]
    rw [if_neg (by omega), if_neg (by omega), if_neg (by omega),
      ofNat_eq_of_eq_toNat b₀ (by omega), ofNat_eq_of_eq_toNat b₁ (by omega),
      ofNat_eq_of_eq_toNat b₂ (by omega), ofNat_eq_of_eq_toNat b₃ (by omega)]

/-- A beginning of an encoding can be completed. -/
theorem Start.complete (h : Start s) : ∃ t, t ≠ [] ∧ Sequence (s ++ t) := by
  have htail : Tail 0x80 := by simp [Tail]
  have hsecond3 (b₀ : UInt8) (h : 0xE0 ≤ b₀.toNat ∧ b₀.toNat ≤ 0xEF) : ∃ b₁, Second3 b₀ b₁ := by
    by_cases he0 : b₀.toNat = 0xE0
    · exact ⟨0xA0, by simp [Second3, Tail, he0]⟩
    · exact ⟨0x80, by simp [Second3, Tail, he0, h]⟩
  have hsecond4 (b₀ : UInt8) (h : 0xF0 ≤ b₀.toNat ∧ b₀.toNat ≤ 0xF4) : ∃ b₁, Second4 b₀ b₁ := by
    by_cases hf0 : b₀.toNat = 0xF0
    · exact ⟨0x90, by simp [Second4, Tail, hf0]⟩
    · exact ⟨0x80, by simp [Second4, Tail, hf0, h]⟩
  cases h with
  | @lead b₀ h =>
    rcases Nat.lt_or_ge b₀.toNat 0xE0 with h2 | h2
    · exact ⟨[0x80], by simp, .two (by omega) htail⟩
    rcases Nat.lt_or_ge b₀.toNat 0xF0 with h3 | h3
    · obtain ⟨b₁, hb₁⟩ := hsecond3 b₀ (by omega)
      exact ⟨[b₁, 0x80], by simp, .three hb₁ htail⟩
    · obtain ⟨b₁, hb₁⟩ := hsecond4 b₀ (by omega)
      exact ⟨[b₁, 0x80, 0x80], by simp, .four hb₁ htail htail⟩
  | second3 h => exact ⟨[0x80], by simp, .three h htail⟩
  | second4 h => exact ⟨[0x80, 0x80], by simp, .four h htail htail⟩
  | third h h₂ => exact ⟨[0x80], by simp, .four h h₂ htail⟩

/-- What comes before the last byte of an encoding is a beginning. -/
theorem Sequence.start (h : Sequence (s ++ t)) (hs : s ≠ []) (ht : t ≠ []) : Start s := by
  generalize hst : s ++ t = whole at h
  rcases s with _ | ⟨x, _ | ⟨y, _ | ⟨z, r⟩⟩⟩
  · exact absurd rfl hs
  · cases h with
    | one h =>
      cases hst
      exact absurd rfl ht
    | two h h₁ =>
      cases hst
      exact .lead (by omega)
    | three h₁ h₂ =>
      cases hst
      exact .lead ⟨by have := h₁.1; omega, by have := h₁.2.1; omega⟩
    | four h₁ h₂ h₃ =>
      cases hst
      exact .lead ⟨by have := h₁.1; omega, h₁.2.1⟩
  · cases h with
    | one h => cases hst
    | two h h₁ =>
      cases hst
      exact absurd rfl ht
    | three h₁ h₂ =>
      cases hst
      exact .second3 h₁
    | four h₁ h₂ h₃ =>
      cases hst
      exact .second4 h₁
  · cases h with
    | one h | two h h₁ => cases hst
    | three h₁ h₂ =>
      simp only [List.cons_append, List.cons.injEq] at hst
      obtain ⟨-, -, -, hnil⟩ := hst
      exact absurd (List.append_eq_nil_iff.mp hnil).2 ht
    | @four b₀ b₁ b₂ b₃ h₁ h₂ h₃ =>
      simp only [List.cons_append, List.cons.injEq] at hst
      obtain ⟨rfl, rfl, rfl, hlast⟩ := hst
      rcases List.append_eq_singleton_iff.mp hlast with ⟨rfl, -⟩ | ⟨-, hnil⟩
      · exact .third h₁ h₂
      · exact absurd hnil ht

/-! ## Well-formed sequences -/

/-- A concatenation of encodings. -/
def WellFormed (s : List UInt8) : Prop := ∃ cs : List Char, s = cs.flatMap utf8EncodeChar

/-- Some continuation makes it well-formed. -/
def Completable (s : List UInt8) : Prop := ∃ more, WellFormed (s ++ more)

theorem wellFormed_nil : WellFormed [] := ⟨[], rfl⟩

theorem wellFormed_encode (c : Char) : WellFormed (utf8EncodeChar c) := ⟨[c], by simp⟩

theorem Sequence.wellFormed (h : Sequence s) : WellFormed s := by
  obtain ⟨c, rfl⟩ := exists_encode_eq h
  exact wellFormed_encode c

theorem WellFormed.append (hs : WellFormed s) (ht : WellFormed t) : WellFormed (s ++ t) := by
  obtain ⟨cs, rfl⟩ := hs
  obtain ⟨ds, rfl⟩ := ht
  exact ⟨cs ++ ds, by simp⟩

/-- A well-formed sequence is empty or begins with an encoding. -/
theorem WellFormed.cases (h : WellFormed s) :
    s = [] ∨ ∃ c rest, s = utf8EncodeChar c ++ rest ∧ WellFormed rest := by
  obtain ⟨cs, rfl⟩ := h
  cases cs with
  | nil => exact .inl rfl
  | cons c rest => exact .inr ⟨c, _, List.flatMap_cons, rest, rfl⟩

/-- No encoding begins another. -/
theorem encode_append_inj (h : utf8EncodeChar c ++ s = utf8EncodeChar d ++ t) : c = d ∧ s = t := by
  have hdecode (c : Char) (s : List UInt8) :
      (utf8EncodeChar c ++ s).toByteArray.utf8DecodeChar? 0 = some c := by
    rw [List.toByteArray_append]
    exact ByteArray.utf8DecodeChar?_utf8EncodeChar_append
  have hcd : c = d := by
    have hc := hdecode c s
    rw [h, hdecode d t] at hc
    exact (Option.some.inj hc).symm
  subst hcd
  exact ⟨rfl, List.append_cancel_left h⟩

/-- Well-formed sequences are cut only between encodings. -/
theorem WellFormed.of_append (hs : WellFormed s) (h : WellFormed (s ++ t)) : WellFormed t := by
  obtain ⟨cs, rfl⟩ := hs
  induction cs with
  | nil => exact h
  | cons c rest ih =>
    rw [List.flatMap_cons, List.append_assoc] at h
    rcases h.cases with hnil | ⟨d, rest', hd, hrest'⟩
    · exact absurd (List.append_eq_nil_iff.mp hnil).1 utf8EncodeChar_ne_nil
    · obtain ⟨rfl, rfl⟩ := encode_append_inj hd
      exact ih hrest'

/-! ## Where a sequence stops being well-formed -/

theorem Completable.of_append (h : Completable (s ++ t)) : Completable s := by
  obtain ⟨more, hmore⟩ := h
  exact ⟨t ++ more, by rwa [← List.append_assoc]⟩

theorem Start.completable (h : Start s) : Completable s := by
  obtain ⟨t, -, ht⟩ := h.complete
  exact ⟨t, ht.wellFormed⟩

/-- The sequence begins with an encoding. -/
def Begins (s : List UInt8) : Prop := ∃ c rest, s = utf8EncodeChar c ++ rest

theorem Start.ne_nil (h : Start s) : s ≠ [] := by
  cases h <;> simp

/-- A beginning of an encoding has no encoding in it. -/
theorem Start.not_begins (h : Start s) : ¬Begins s := by
  rintro ⟨c, rest, rfl⟩
  obtain ⟨t, ht, hsequence⟩ := h.complete
  obtain ⟨d, hd⟩ := exists_encode_eq hsequence
  rw [List.append_assoc, ← List.append_nil (utf8EncodeChar d)] at hd
  obtain ⟨-, hnil⟩ := encode_append_inj hd
  exact ht (List.append_eq_nil_iff.mp hnil.symm).2

/-- What can be completed is a beginning, or has an encoding in it. -/
theorem Completable.start_or_begins (h : Completable s) (hs : s ≠ []) : Start s ∨ Begins s := by
  obtain ⟨more, hmore⟩ := h
  rcases hmore.cases with hnil | ⟨c, rest, hrest, -⟩
  · exact absurd (List.append_eq_nil_iff.mp hnil).1 hs
  rcases List.append_eq_append_iff.mp hrest with ⟨k, hk, -⟩ | ⟨k, hk, -⟩
  · by_cases hnil : k = []
    · exact .inr ⟨c, [], by rw [hk, hnil]; simp⟩
    · exact .inl ((hk ▸ sequence_encode c).start hs hnil)
  · exact .inr ⟨c, k, hk⟩

/-- The sequence is not well-formed from its first byte on.  The number is that of the bytes
before the one that no encoding goes on with, at least one, and 0 when there is no such byte. -/
inductive Stuck : List UInt8 → ℕ → Prop where
  | ended {s : List UInt8} (h : Start s) : Stuck s 0
  | broken {s : List UInt8} {b : UInt8} (rest : List UInt8) (h : s = [] ∨ Start s)
      (hstart : ¬Start (s ++ [b])) (hsequence : ¬Sequence (s ++ [b])) :
      Stuck (s ++ b :: rest) (max 1 s.length)

/-- The longest part from the start that something could complete, or one byte if there is none. -/
def MaximalPart (s : List UInt8) (n : ℕ) : Prop :=
  n ≤ s.length ∧ (n = 1 ∨ Completable (s.take n)) ∧ ∀ k ≤ s.length, Completable (s.take k) → k ≤ n

section Broken

variable {b : UInt8} (h : s = [] ∨ Start s) (hstart : ¬Start (s ++ [b]))
  (hsequence : ¬Sequence (s ++ [b]))

include h hsequence

theorem not_begins_snoc : ¬Begins (s ++ [b]) := by
  have hnot : ¬Begins s := by
    rcases h with rfl | hs
    · rintro ⟨c, rest, hrest⟩
      exact utf8EncodeChar_ne_nil (List.append_eq_nil_iff.mp hrest.symm).1
    · exact hs.not_begins
  rintro ⟨c, rest, hrest⟩
  rcases List.append_eq_append_iff.mp hrest with ⟨k, hk, hlast⟩ | ⟨k, hk, hlast⟩
  · cases k with
    | nil => exact hnot ⟨c, [], by rw [hk]; simp⟩
    | cons x k =>
      obtain ⟨rfl, hnil⟩ := List.cons.inj hlast
      obtain ⟨rfl, -⟩ := List.append_eq_nil_iff.mp hnil.symm
      exact hsequence (hk ▸ sequence_encode c)
  · exact hnot ⟨c, k, hk⟩

include hstart

theorem not_completable_snoc : ¬Completable (s ++ [b]) := fun hcomplete =>
  (hcomplete.start_or_begins (by simp)).elim hstart (not_begins_snoc h hsequence)

theorem not_begins_broken (rest : List UInt8) : ¬Begins (s ++ b :: rest) := by
  rintro ⟨c, more, hmore⟩
  rw [List.append_cons] at hmore
  rcases List.append_eq_append_iff.mp hmore with ⟨k, hk, -⟩ | ⟨k, hk, -⟩
  · exact not_completable_snoc h hstart hsequence ⟨k, hk ▸ wellFormed_encode c⟩
  · exact not_begins_snoc h hsequence ⟨c, k, hk⟩

theorem maximalPart_broken (rest : List UInt8) : MaximalPart (s ++ b :: rest) (max 1 s.length) := by
  refine ⟨by simp; omega, ?_, fun k hk hcomplete => ?_⟩
  · rcases h with rfl | hs
    · exact .inl rfl
    have hpos := List.length_pos_of_ne_nil hs.ne_nil
    rw [Nat.max_eq_right hpos, List.take_left]
    exact .inr hs.completable
  · by_contra hlong
    -- A longer part has the byte in it that nothing goes on with.
    obtain ⟨more, hmore⟩ : ∃ more, (s ++ b :: rest).take k = (s ++ [b]) ++ more := by
      refine ⟨rest.take (k - (s.length + 1)), ?_⟩
      rw [List.append_cons, List.take_append, List.take_of_length_le (by simp; omega)]
      simp
    rw [hmore] at hcomplete
    exact not_completable_snoc h hstart hsequence hcomplete.of_append

end Broken

variable {n : ℕ}

theorem Stuck.not_begins (h : Stuck s n) : ¬Begins s := by
  cases h with
  | ended h => exact h.not_begins
  | broken rest h hstart hsequence => exact not_begins_broken h hstart hsequence rest

theorem Stuck.completable_iff (h : Stuck s n) : n = 0 ↔ Completable s := by
  cases h with
  | ended h => exact ⟨fun _ => h.completable, fun _ => rfl⟩
  | broken rest h hstart hsequence =>
    refine ⟨fun hzero => by omega, fun hcomplete => ?_⟩
    rw [List.append_cons] at hcomplete
    exact absurd hcomplete.of_append (not_completable_snoc h hstart hsequence)

theorem Stuck.start_iff (h : Stuck s n) : n = 0 ↔ Start s := by
  refine ⟨fun hzero => ?_, fun hstart => h.completable_iff.mpr hstart.completable⟩
  cases h with
  | ended hstart => exact hstart
  | broken rest h hstart hsequence => omega

theorem Stuck.maximalPart (h : Stuck s n) (hn : n ≠ 0) : MaximalPart s n := by
  cases h with
  | ended h => exact absurd rfl hn
  | broken rest h hstart hsequence => exact maximalPart_broken h hstart hsequence rest

theorem Stuck.ne_nil (h : Stuck s n) : s ≠ [] := by
  cases h with
  | ended h => exact h.ne_nil
  | broken rest h hstart hsequence => simp

/-- Before a sequence that is stuck the well-formed part is the longest one. -/
theorem Stuck.longest {good : List UInt8} (hgood : WellFormed good) (h : Stuck s n) {k : ℕ}
    (hk : k ≤ (good ++ s).length) (hwell : WellFormed ((good ++ s).take k)) : k ≤ good.length := by
  by_contra hlong
  rw [List.take_append, List.take_of_length_le (by omega)] at hwell
  rcases (hgood.of_append hwell).cases with hnil | ⟨c, rest, hrest, -⟩
  · have hlength := congrArg List.length hnil
    simp only [List.length_take, List.length_append, List.length_nil] at hlength hk
    omega
  · refine h.not_begins ⟨c, rest ++ s.drop (k - good.length), ?_⟩
    rw [← List.append_assoc, ← hrest, List.take_append_drop]

/-- A well-formed part and a stuck one are not well-formed together. -/
theorem Stuck.not_wellFormed {good : List UInt8} (hgood : WellFormed good) (h : Stuck s n) :
    ¬WellFormed (good ++ s) := by
  intro hwell
  rcases (hgood.of_append hwell).cases with hnil | ⟨c, rest, hrest, -⟩
  · exact h.ne_nil hnil
  · exact h.not_begins ⟨c, rest, hrest⟩

end Montygo.Utf8
