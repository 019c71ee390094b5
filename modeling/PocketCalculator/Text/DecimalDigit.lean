/-! # Decimal digits of every script

A decimal digit is a character of the general category Nd.  Such characters come in runs of ten,
in order of value, so a table of the sixty-six zeros fixes both the class and the values.
`digitValue?` reads a digit of any script; `digitValue?_lt` bounds what it answers. -/

namespace PocketCalculator

/-! ### The table -/

/-- The code points of the zeros, ascending; the nine other digits of a script follow its zero. -/
def zeroDigits : List Nat :=
  [0x30, 0x660, 0x6F0, 0x7C0, 0x966, 0x9E6, 0xA66, 0xAE6, 0xB66, 0xBE6,
   0xC66, 0xCE6, 0xD66, 0xDE6, 0xE50, 0xED0, 0xF20, 0x1040, 0x1090, 0x17E0,
   0x1810, 0x1946, 0x19D0, 0x1A80, 0x1A90, 0x1B50, 0x1BB0, 0x1C40, 0x1C50, 0xA620,
   0xA8D0, 0xA900, 0xA9D0, 0xA9F0, 0xAA50, 0xABF0, 0xFF10, 0x104A0, 0x10D30, 0x11066,
   0x110F0, 0x11136, 0x111D0, 0x112F0, 0x11450, 0x114D0, 0x11650, 0x116C0, 0x11730, 0x118E0,
   0x11950, 0x11C50, 0x11D50, 0x11DA0, 0x16A60, 0x16AC0, 0x16B50, 0x1D7CE, 0x1D7D8, 0x1D7E2,
   0x1D7EC, 0x1D7F6, 0x1E140, 0x1E2F0, 0x1E950, 0x1FBF0]

/-! ### Class and value -/

/-- The value of a decimal digit of any script. -/
def digitValue? (c : Char) : Option Nat :=
  (zeroDigits.find? fun z => z ≤ c.toNat && c.toNat < z + 10).map (c.toNat - ·)

/-- Membership in the general category Nd. -/
def isDecimalDigit (c : Char) : Bool :=
  (digitValue? c).isSome

/-- The decimal digits of the first block, `0` to `9`. -/
def isAsciiDigit (c : Char) : Bool :=
  '0' ≤ c && c ≤ '9'

/-- Whether a character may stand in a number: a digit of any script, or the point. -/
def isNumeralChar (c : Char) : Bool :=
  isDecimalDigit c || c == '.'

/-- A digit of the first block, or the point. -/
def isPlainNumeralChar (c : Char) : Bool :=
  isAsciiDigit c || c == '.'

theorem digitValue?_lt {c : Char} {v : Nat} (h : digitValue? c = some v) : v < 10 := by
  obtain ⟨z, hz, rfl⟩ := Option.map_eq_some_iff.1 h
  have := List.find?_some hz
  simp only [Bool.and_eq_true, decide_eq_true_eq] at this
  omega

end PocketCalculator
