import Montygo.Lib.Segments
import Mathlib.Order.Defs.LinearOrder
import Mathlib.Order.Basic

/-!
# Go strings

A Go string is a sequence of bytes, compared byte by byte.  This module has the
functions of the standard library that the modelled code calls on them, after
their documentation, from `strings` and `unicode/utf8`.
-/

namespace Montygo

/-- A byte slice. -/
abbrev Bytes := List UInt8

/-- A Go string: any bytes, not only valid UTF-8. -/
abbrev GoString := List UInt8

/-- The bit pattern of a `float64`. -/
abbrev Float64 := UInt64

namespace Go

/-- The bytes of a string literal. -/
def lit (s : String) : GoString := s.toList.flatMap String.utf8EncodeChar

/-- Go compares strings lexically byte by byte. -/
instance : LinearOrder GoString where
  le_refl a := List.le_refl a
  le_trans _ _ _ := List.le_trans
  le_antisymm _ _ := List.le_antisymm
  le_total a b := List.le_total a b
  lt_iff_le_not_ge a b := by
    constructor
    · intro h
      exact ⟨List.le_of_lt h, List.not_le.mpr h⟩
    · intro h
      exact List.not_le.mp h.2
  toDecidableLE := inferInstance
  toDecidableEq := inferInstance
  toDecidableLT := inferInstance
  compare a b := compareOfLessAndEq a b
  compare_eq_compareOfLessAndEq _ _ := rfl

instance : LawfulBEq GoString := inferInstance

/-- The byte `'/'`. -/
def slash : UInt8 := 47

theorem lit_slash : lit "/" = [slash] := rfl

/-- `strings.Split(s, "/")`. -/
def split (s : GoString) : List GoString := s.splitOn slash

/-- Segments with a slash between each two. -/
abbrev joinSlash (segments : List GoString) : GoString := Segments.join slash segments

def hasPrefix (s p : GoString) : Bool := p.isPrefixOf s

def hasSuffix (s p : GoString) : Bool := p.isSuffixOf s

/-- `strings.CutPrefix`: what follows the start of `s` that equals `p`, if it does. -/
def cutPrefix (s p : GoString) : Option GoString :=
  if hasPrefix s p then some (s.drop p.length) else none

def trimPrefix (s p : GoString) : GoString := (cutPrefix s p).getD s

/-- `strings.LastIndexByte`, with `none` for a negative result. -/
def lastIndexByte (s : GoString) (c : UInt8) : Option ℕ :=
  if c ∈ s then some (s.length - 1 - s.reverse.idxOf c) else none

theorem lastIndexByte_append {c : UInt8} {a b : GoString} (hb : c ∉ b) :
    lastIndexByte (a ++ c :: b) c = some a.length := by
  have hmem : c ∈ a ++ c :: b := by simp
  have hidx : (a ++ c :: b).reverse.idxOf c = b.length := by
    rw [List.reverse_append, List.reverse_cons, List.append_assoc,
      List.idxOf_append_of_notMem (by simpa using hb), List.length_reverse,
      List.singleton_append, List.idxOf_cons_self, Nat.add_zero]
  rw [lastIndexByte, if_pos hmem, hidx, List.length_append, List.length_cons]
  congr 1
  omega

/-! ## UTF-8 -/

/-- A continuation byte. -/
def isCont (b : UInt8) : Bool := b &&& 0xC0 == 0x80

/-- The two-byte runes. -/
def isRune2 (b₀ b₁ : UInt8) : Bool := 0xC2 ≤ b₀ && b₀ ≤ 0xDF && isCont b₁

/-- The three-byte runes: no overlong forms and no surrogates. -/
def isRune3 (b₀ b₁ b₂ : UInt8) : Bool :=
  ((b₀ == 0xE0 && 0xA0 ≤ b₁ && b₁ ≤ 0xBF) || (0xE1 ≤ b₀ && b₀ ≤ 0xEC && isCont b₁) ||
    (b₀ == 0xED && 0x80 ≤ b₁ && b₁ ≤ 0x9F) || (0xEE ≤ b₀ && b₀ ≤ 0xEF && isCont b₁)) && isCont b₂

/-- The four-byte runes: no overlong forms and nothing above U+10FFFF. -/
def isRune4 (b₀ b₁ b₂ b₃ : UInt8) : Bool :=
  ((b₀ == 0xF0 && 0x90 ≤ b₁ && b₁ ≤ 0xBF) || (0xF1 ≤ b₀ && b₀ ≤ 0xF3 && isCont b₁) ||
    (b₀ == 0xF4 && 0x80 ≤ b₁ && b₁ ≤ 0x8F)) && isCont b₂ && isCont b₃

/-- The length of the rune at the start of a byte sequence, 0 when there is none. -/
def runeLen : Bytes → ℕ
  | [] => 0
  | b₀ :: rest =>
    if b₀ < 0x80 then 1
    else
      match rest with
      | [] => 0
      | b₁ :: rest =>
        if isRune2 b₀ b₁ then 2
        else
          match rest with
          | [] => 0
          | b₂ :: rest =>
            if isRune3 b₀ b₁ b₂ then 3
            else
              match rest with
              | [] => 0
              | b₃ :: _ => if isRune4 b₀ b₁ b₂ b₃ then 4 else 0

/-- The runes of a byte sequence as lengths; a byte that starts no rune counts as 0.
`fuel` bounds the number of runes and is the length of the sequence. -/
def runeLens : ℕ → Bytes → List ℕ
  | 0, _ => []
  | _, [] => []
  | fuel + 1, b :: rest =>
    runeLen (b :: rest) :: runeLens fuel (rest.drop (runeLen (b :: rest) - 1))

/-- `utf8.RuneCountInString`: erroneous bytes count as single runes. -/
def runeCount (s : Bytes) : ℕ := (runeLens s.length s).length

def validString (s : Bytes) : Bool := (runeLens s.length s).all (0 < ·)

end Go

end Montygo
