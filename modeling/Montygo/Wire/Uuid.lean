import Montygo.Wire.Decode
import Mathlib.Data.FinEnum

/-!
# Uuids as text

A uuid that `ParseUUID` accepts is written back by `FormatUUID` in lower case.  The text is cut
at its four dashes; as all of its digits are there, no dash is left in the pieces.
-/

namespace Montygo.Wire

open Go Value WireFormat

/-- A byte in lower case. -/
def lowerByte (c : UInt8) : UInt8 := if 65 ≤ c ∧ c ≤ 90 then c + 32 else c

/-- A text in lower case. -/
def lower (s : GoString) : GoString := s.map lowerByte

/-! ## Digits -/

theorem all_hexValue (c : UInt8) :
    (hexValue c).all (fun h => h < 16 ∧ hexDigit h = lowerByte c) = true := by
  revert c
  decide +kernel

theorem hexDigit_hexValue {c h : UInt8} (hc : hexValue c = some h) :
    h < 16 ∧ hexDigit h = lowerByte c := by
  have hall := all_hexValue c
  rw [hc] at hall
  exact of_decide_eq_true hall

theorem halves_of_lt {high low : UInt8} (hhigh : high < 16) (hlow : low < 16) :
    (16 * high + low) / 16 = high ∧ (16 * high + low) % 16 = low := by
  rw [UInt8.lt_iff_toNat_lt] at hhigh hlow
  rw [← UInt8.toNat_inj, ← UInt8.toNat_inj]
  simp at *
  omega

variable {s : GoString}

theorem hexEncode_hexDecode {raw : Bytes} (h : hexDecode s = some raw) :
    hexEncode raw = lower s := by
  fun_induction hexDecode s generalizing raw with
  | case1 =>
    cases h
    rfl
  | case2 => cases h
  | case3 c d rest ih =>
    simp only [Option.bind_eq_bind, Option.bind_eq_some_iff, Option.pure_def,
      Option.some.injEq] at h
    obtain ⟨high, hhigh, low, hlow, raw', hraw, rfl⟩ := h
    obtain ⟨hhigh16, hc⟩ := hexDigit_hexValue hhigh
    obtain ⟨hlow16, hd⟩ := hexDigit_hexValue hlow
    obtain ⟨hdiv, hmod⟩ := halves_of_lt hhigh16 hlow16
    have hrest : hexEncode raw' = lower rest := ih hraw
    simp only [hexEncode, List.flatMap_cons, hdiv, hmod, hc, hd, lower, List.map_cons,
      List.cons_append, List.nil_append] at hrest ⊢
    rw [hrest]

theorem length_hexEncode (raw : Bytes) : (hexEncode raw).length = 2 * raw.length := by
  simp [hexEncode, Nat.mul_comm]

/-! ## The text of a uuid -/

theorem eq_append_of_getElem? {n : ℕ} {c : UInt8} (h : s[n]? = some c) :
    ∃ before after, s = before ++ c :: after ∧ before.length = n := by
  obtain ⟨hn, hc⟩ := List.getElem?_eq_some_iff.mp h
  refine ⟨s.take n, s.drop (n + 1), ?_, by simp; omega⟩
  rw [← hc, List.getElem_cons_drop, List.take_append_drop]

/-- A text in the form of a uuid: five pieces of 8, 4, 4, 4 and 12 bytes between dashes. -/
theorem uuid_pieces (hlen : s.length = 36) (h8 : s[8]? = some dash) (h13 : s[13]? = some dash)
    (h18 : s[18]? = some dash) (h23 : s[23]? = some dash) :
    ∃ p q r t u, s = p ++ dash :: (q ++ dash :: (r ++ dash :: (t ++ dash :: u))) ∧
      p.length = 8 ∧ q.length = 4 ∧ r.length = 4 ∧ t.length = 4 ∧ u.length = 12 := by
  obtain ⟨p, s₁, rfl, hp⟩ := eq_append_of_getElem? h8
  have h13' : s₁[4]? = some dash := by simpa [List.getElem?_append, hp] using h13
  obtain ⟨q, s₂, rfl, hq⟩ := eq_append_of_getElem? h13'
  have h18' : s₂[4]? = some dash := by simpa [List.getElem?_append, hp, hq] using h18
  obtain ⟨r, s₃, rfl, hr⟩ := eq_append_of_getElem? h18'
  have h23' : s₃[4]? = some dash := by simpa [List.getElem?_append, hp, hq, hr] using h23
  obtain ⟨t, u, rfl, ht⟩ := eq_append_of_getElem? h23'
  refine ⟨p, q, r, t, u, rfl, hp, hq, hr, ht, ?_⟩
  simp only [List.length_append, List.length_cons] at hlen
  omega

theorem join_pieces {p q r t u : GoString} (hp : p.length = 8) (hq : q.length = 4)
    (hr : r.length = 4) (ht : t.length = 4) :
    let h := p ++ (q ++ (r ++ (t ++ u)))
    h.take 8 ++ dash :: (h.drop 8).take 4 ++ dash :: (h.drop 12).take 4 ++
        dash :: (h.drop 16).take 4 ++ dash :: h.drop 20 =
      p ++ dash :: (q ++ dash :: (r ++ dash :: (t ++ dash :: u))) := by
  simp [List.drop_append, List.drop_of_length_le, hp, hq, hr, ht]

theorem filter_dash_cons (s : GoString) : (dash :: s).filter (· ≠ dash) = s.filter (· ≠ dash) := by
  simp

theorem filter_eq_self_of_length (h : s.length ≤ (s.filter (· ≠ dash)).length) :
    s.filter (· ≠ dash) = s :=
  List.filter_sublist.eq_of_length_le h

/-- **A uuid is written back in lower case.** -/
theorem formatUUID_parseUUID {raw : Bytes} (h : parseUUID s = .ok raw) :
    formatUUID raw = pure (lower s) := by
  unfold parseUUID at h
  split at h
  · cases h
  rename_i hform
  simp only [not_or, not_not] at hform
  obtain ⟨hlen, h8, h13, h18, h23⟩ := hform
  cases hdecode : hexDecode (s.filter (· ≠ dash)) with
  | none =>
    rw [hdecode] at h
    cases h
  | some raw' =>
    rw [hdecode] at h
    simp only at h
    split at h
    · cases h
    rename_i hraw
    cases h
    rw [not_not] at hraw
    have htext := hexEncode_hexDecode hdecode
    have hdigits := congrArg List.length htext
    obtain ⟨p, q, r, t, u, rfl, hp, hq, hr, ht, hu⟩ := uuid_pieces hlen h8 h13 h18 h23
    simp only [length_hexEncode, hraw, lower, List.length_map, List.filter_append,
      filter_dash_cons, List.length_append] at hdigits
    -- the pieces have 32 bytes, as many as there are digits
    have hle := fun l : GoString => List.length_filter_le (· ≠ dash) l
    have hp' := hle p
    have hq' := hle q
    have hr' := hle r
    have ht' := hle t
    have hu' := hle u
    simp only [List.filter_append, filter_dash_cons] at htext
    rw [filter_eq_self_of_length (s := p) (by omega), filter_eq_self_of_length (s := q) (by omega),
      filter_eq_self_of_length (s := r) (by omega),
      filter_eq_self_of_length (s := t) (by omega),
      filter_eq_self_of_length (s := u) (by omega)] at htext
    have hdash : lowerByte dash = dash := by decide
    rw [formatUUID, if_neg (by simp [hraw])]
    simp only [htext, lower, List.map_append, List.map_cons, hdash]
    rw [join_pieces (by simpa) (by simpa) (by simpa) (by simpa)]

end Montygo.Wire
