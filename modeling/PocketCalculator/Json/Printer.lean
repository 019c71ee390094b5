import PocketCalculator.Json
import PocketCalculator.Number.Written
import PocketCalculator.Number.Reading
import PocketCalculator.Text.Quoted

/-! # Printed JSON

Two texts of a value.  The written one is JSON in printable characters of the first block, indented
by four columns or on one line.  The shown one is for listings: words and numbers in their own
spelling, texts between quotes inside lists and objects and bare at the top. -/

namespace PocketCalculator.Json

/-! ### Texts -/

/-- A code unit as an escape of four digits. -/
def unitEscape (n : Nat) : Text :=
  ['\\', 'u'] ++ Quoted.hex 4 n

/-- One character of a written text. -/
def escapeChar (c : Char) : Text :=
  if c = '"' || c = '\\' then ['\\', c]
  else if c = '\n' then ['\\', 'n']
  else if c = '\r' then ['\\', 'r']
  else if c = '\t' then ['\\', 't']
  else if c = '\x0c' then ['\\', 'f']
  else if c = '\x08' then ['\\', 'b']
  else if 0x20 ≤ c.toNat && c.toNat ≤ 0x7E then [c]
  else if c.toNat < 0x10000 then unitEscape c.toNat
  else
    let n := c.toNat - 0x10000
    unitEscape (0xD800 + n / 0x400) ++ unitEscape (0xDC00 + n % 0x400)

/-- A text between double quotes. -/
def writtenText (s : String) : Text :=
  '"' :: s.toList.flatMap escapeChar ++ ['"']

/-! ### Numbers -/

/-- A whole number in digits. -/
def intText (n : Int) : Text :=
  Decimal.signText (decide (n < 0)) ++ Decimal.digits n.natAbs

/-- The words for the doubles that are not finite. -/
def numberLayout : RecordLayout :=
  { RecordLayout.standard with notANumber := "NaN".toList, infinity := "Infinity".toList }

/-! ### Written values -/

/-- How items are set off from each other: `none` keeps everything on one line, and a number gives
the columns by which each level is indented. -/
abbrev Indent := Option Nat

/-- The break in front of an item on a level. -/
def lineBreak (indent : Indent) (level : Nat) : Text :=
  match indent with
  | none => []
  | some columns => '\n' :: List.replicate (columns * level) ' '

/-- What stands between two items on a level. -/
def separator (indent : Indent) (level : Nat) : Text :=
  match indent with
  | none => [',', ' ']
  | some _ => ',' :: lineBreak indent level

mutual

/-- A value on a level. -/
def written (indent : Indent) (level : Nat) : Json → Text
  | .null => "null".toList
  | .bool true => "true".toList
  | .bool false => "false".toList
  | .int n => intText n
  | .real x => numberLayout.text x
  | .text s => writtenText s
  | .list [] => ['[', ']']
  | .list (v :: rest) =>
    '[' :: lineBreak indent (level + 1) ++ written indent (level + 1) v ++
      writtenItems indent (level + 1) rest ++ lineBreak indent level ++ [']']
  | .object [] => ['\x7b', '\x7d']
  | .object ((key, v) :: rest) =>
    '\x7b' :: lineBreak indent (level + 1) ++ writtenText key ++ [':', ' '] ++
      written indent (level + 1) v ++ writtenMembers indent (level + 1) rest ++
      lineBreak indent level ++ ['\x7d']

/-- The further items of a list. -/
def writtenItems (indent : Indent) (level : Nat) : List Json → Text
  | [] => []
  | v :: rest =>
    separator indent level ++ written indent level v ++ writtenItems indent level rest

/-- The further members of an object. -/
def writtenMembers (indent : Indent) (level : Nat) : List (String × Json) → Text
  | [] => []
  | (key, v) :: rest =>
    separator indent level ++ writtenText key ++ [':', ' '] ++ written indent level v ++
      writtenMembers indent level rest

end

/-- A value on indented lines. -/
def fileText (v : Json) : Text :=
  written (some 4) 0 v

/-- A value on one line. -/
def lineText (v : Json) : Text :=
  written none 0 v

/-! ### Values that can be written -/

/-- Whether a whole number is short enough to be read back. -/
def isWritableInt (n : Int) : Bool :=
  Ratio.decimalLength n.natAbs ≤ Reading.greatestWholeLength

mutual

/-- Whether every whole number inside a value is short enough to be read back. -/
def isWritable : Json → Bool
  | .int n => isWritableInt n
  | .list items => areWritable items
  | .object members => haveWritable members
  | _ => true

/-- Whether all items of a list can be written. -/
def areWritable : List Json → Bool
  | [] => true
  | v :: rest => isWritable v && areWritable rest

/-- Whether all members of an object can be written. -/
def haveWritable : List (String × Json) → Bool
  | [] => true
  | (_, v) :: rest => isWritable v && haveWritable rest

end

/-! ### Shown values -/

mutual

/-- A value inside a list or an object of a listing. -/
def shownInside : Json → Text
  | .null => "None".toList
  | .bool true => "True".toList
  | .bool false => "False".toList
  | .int n => intText n
  | .real x => recordText x
  | .text s => Quoted.quoted s.toList
  | .list [] => ['[', ']']
  | .list (v :: rest) => '[' :: shownInside v ++ shownItems rest ++ [']']
  | .object [] => ['\x7b', '\x7d']
  | .object ((key, v) :: rest) =>
    '\x7b' :: Quoted.quoted key.toList ++ [':', ' '] ++ shownInside v ++ shownMembers rest ++
      ['\x7d']

/-- The further items of a list in a listing. -/
def shownItems : List Json → Text
  | [] => []
  | v :: rest => [',', ' '] ++ shownInside v ++ shownItems rest

/-- The further members of an object in a listing. -/
def shownMembers : List (String × Json) → Text
  | [] => []
  | (key, v) :: rest =>
    [',', ' '] ++ Quoted.quoted key.toList ++ [':', ' '] ++ shownInside v ++ shownMembers rest

end

/-- A value in a listing. -/
def shown : Json → Text
  | .text s => s.toList
  | v => shownInside v

end PocketCalculator.Json
