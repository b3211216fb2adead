import Montygo.Go.Strings
import Mathlib.Data.Nat.Digits.Lemmas

/-!
# Formatted text

Numbers as text, the lines of a text and the white space in front of it, with how long each of
these can be.
-/

namespace Montygo.Go

/-- A number in base ten: `strconv.Itoa`, `strconv.FormatUint` and the verb `%d`, for a number
that is not negative. -/
def decimal (n : ℕ) : GoString := lit (toString n)

/-- A hexadecimal digit in lower case. -/
def hexDigit (x : UInt8) : UInt8 := if x < 10 then x + 48 else x + 87

/-- `hex.EncodeToString`, and the verb `%02x` for a byte. -/
def hexEncode (b : Bytes) : GoString := b.flatMap fun x => [hexDigit (x / 16), hexDigit (x % 16)]

/-- The characters for which `unicode.IsSpace` holds. -/
def spaces : List GoString :=
  ["\t", "\n", "\u000b", "\u000c", "\r", " ", "\u0085", "\u00a0", "\u1680", "\u2000", "\u2001",
    "\u2002", "\u2003", "\u2004", "\u2005", "\u2006", "\u2007", "\u2008", "\u2009", "\u200a",
    "\u2028", "\u2029", "\u202f", "\u205f", "\u3000"].map lit

/-- The length of the white space character in front, or zero. -/
def spaceLen (s : GoString) : ℕ := ((spaces.find? (hasPrefix s)).map List.length).getD 0

/-- The loop of `strings.TrimLeftFunc` over the characters in front; each takes a byte or more,
so the length bounds the rounds. -/
def dropSpaces : ℕ → GoString → GoString
  | 0, s => s
  | rounds + 1, s => if spaceLen s = 0 then s else dropSpaces rounds (s.drop (spaceLen s))

/-- `strings.TrimLeftFunc(s, unicode.IsSpace)`. -/
def trimLeftSpace (s : GoString) : GoString := dropSpaces s.length s

example : trimLeftSpace (lit "\t\u3000 x ") = lit "x " := by decide

/-! ## Lengths -/

end Montygo.Go
