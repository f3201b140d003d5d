import SeaweedFS.Lib.Text

/-!
# Go strings

A string is its bytes. `TrimSpace` takes the encodings of the Unicode white space off both ends; bytes that
are no valid UTF-8 are no white space.
-/

namespace Util

open Lib

/-- A string, in bytes. -/
abbrev Str := List UInt8

instance lawfulBEqStr : LawfulBEq Str := inferInstance

instance lawfulOrderStr : Std.LawfulOrderLT Str := inferInstance

/-- The bytes of an ASCII literal. -/
def ascii (s : String) : Str := s.toList.map Char.toUInt8

/-- An ASCII letter in lower case. -/
def lowerByte (b : UInt8) : UInt8 := if 0x41 ≤ b ∧ b ≤ 0x5a then b + 0x20 else b

/-- `strings.EqualFold` with an ASCII literal, none of whose letters is the folding of another rune. -/
def equalFold (s : Str) (literal : String) : Bool := s.map lowerByte == (ascii literal).map lowerByte

/-- The runes of `unicode.IsSpace`, in UTF-8. -/
def spaces : List Str :=
  [[0x09], [0x0a], [0x0b], [0x0c], [0x0d], [0x20], [0xc2, 0x85], [0xc2, 0xa0], [0xe1, 0x9a, 0x80],
    [0xe2, 0x80, 0x80], [0xe2, 0x80, 0x81], [0xe2, 0x80, 0x82], [0xe2, 0x80, 0x83], [0xe2, 0x80, 0x84],
    [0xe2, 0x80, 0x85], [0xe2, 0x80, 0x86], [0xe2, 0x80, 0x87], [0xe2, 0x80, 0x88], [0xe2, 0x80, 0x89],
    [0xe2, 0x80, 0x8a], [0xe2, 0x80, 0xa8], [0xe2, 0x80, 0xa9], [0xe2, 0x80, 0xaf], [0xe2, 0x81, 0x9f],
    [0xe3, 0x80, 0x80]]

/-- `strings.TrimSpace`. -/
def trimSpace (s : Str) : Str := trim spaces s

/-- A hexadecimal digit. -/
def hexDigit? (b : UInt8) : Option Nat :=
  if 0x30 ≤ b ∧ b ≤ 0x39 then some (b.toNat - 0x30)
  else if 0x61 ≤ b ∧ b ≤ 0x66 then some (b.toNat - 0x61 + 10)
  else if 0x41 ≤ b ∧ b ≤ 0x46 then some (b.toNat - 0x41 + 10)
  else none

/-- The decimal digits of a number, `fuel` of them at most. -/
def digits : Nat → Nat → Str
  | 0, _ => []
  | fuel + 1, n => if n < 10 then [(0x30 + n).toUInt8] else digits fuel (n / 10) ++ [(0x30 + n % 10).toUInt8]

/-- `strconv.FormatInt` in base ten. -/
def formatInt (n : Int) : Str :=
  if n < 0 then 0x2d :: digits (n.natAbs + 1) n.natAbs else digits (n.natAbs + 1) n.natAbs

theorem spaces_ne_nil : ∀ w ∈ spaces, w ≠ [] := by decide

theorem trimSpace_trimSpace (s : Str) : trimSpace (trimSpace s) = trimSpace s :=
  trim_of_trimmed (trimmed_trim spaces_ne_nil s)

theorem mem_of_mem_trimSpace {s : Str} {b : UInt8} (h : b ∈ trimSpace s) : b ∈ s :=
  (trim_within s).subset h

end Util
