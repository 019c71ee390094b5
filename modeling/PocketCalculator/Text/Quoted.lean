import PocketCalculator.Text
import PocketCalculator.Text.Printable

/-! # Quoted texts

How a text is shown between quotes.  Single quotes are used unless the text holds a single quote
and no double quote.  The quote in use, the backslash and the three usual controls are escaped by
a backslash; any other character that is not printable is written by its code point in two, four
or eight hexadecimal digits. -/

namespace PocketCalculator.Quoted

/-- `n` in lower-case hexadecimal digits, at least `width` of them. -/
def hex (width n : Nat) : Text :=
  Text.padLeft width '0' (Nat.toDigits 16 n)

/-- The quote that surrounds a text. -/
def quoteFor (t : Text) : Char :=
  if t.contains '\x27' && !t.contains '"' then '"' else '\x27'

/-- One character of a text between the given quotes. -/
def escape (quote c : Char) : Text :=
  if c = quote || c = '\\' then ['\\', c]
  else if c = '\n' then ['\\', 'n']
  else if c = '\r' then ['\\', 'r']
  else if c = '\t' then ['\\', 't']
  else if isPrintable c then [c]
  else if c.toNat < 0x100 then '\\' :: 'x' :: hex 2 c.toNat
  else if c.toNat < 0x10000 then '\\' :: 'u' :: hex 4 c.toNat
  else '\\' :: 'U' :: hex 8 c.toNat

/-- A text between quotes. -/
def quoted (t : Text) : Text :=
  let quote := quoteFor t
  quote :: t.flatMap (escape quote) ++ [quote]

end PocketCalculator.Quoted
