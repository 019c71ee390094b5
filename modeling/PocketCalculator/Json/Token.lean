import PocketCalculator.Json
import PocketCalculator.Number.Reading

/-! # From text to JSON tokens

The lexical part of JSON: punctuation, texts with their escapes, numbers, and the words.  Besides
the three words of the standard, the two infinities and the value that is no number have one each.
A number without fraction and exponent is whole, and its digits are limited in number: one that is
too long is a token of its own, behind which nothing is looked at.

`length_of_readToken?` says that a token takes at least one character; the scanner ends because of
it.

An escaped pair of surrogates stands for one character; a surrogate on its own, which no text can
hold, becomes the replacement character. -/

namespace PocketCalculator.Json

/-- The tokens of JSON. -/
inductive Token where
  | openList
  | closeList
  | openObject
  | closeObject
  | comma
  | colon
  | text (s : String)
  /-- A number or a word. -/
  | scalar (v : Json)
  /-- A whole number with too many digits. -/
  | overlong

/-! ### Texts -/

/-- The value of a hexadecimal digit. -/
def hexValue? (c : Char) : Option Nat :=
  if '0' ≤ c && c ≤ '9' then some (c.toNat - '0'.toNat)
  else if 'a' ≤ c && c ≤ 'f' then some (c.toNat - 'a'.toNat + 10)
  else if 'A' ≤ c && c ≤ 'F' then some (c.toNat - 'A'.toNat + 10)
  else none

/-- The value of four hexadecimal digits. -/
def hexUnit? (a b c d : Char) : Option Nat := do
  return (((← hexValue? a) * 16 + (← hexValue? b)) * 16 + (← hexValue? c)) * 16 + (← hexValue? d)

/-- The character that a short escape stands for. -/
def shortEscape? : Char → Option Char
  | '"' => some '"'
  | '\\' => some '\\'
  | '/' => some '/'
  | 'b' => some '\x08'
  | 'f' => some '\x0c'
  | 'n' => some '\n'
  | 'r' => some '\r'
  | 't' => some '\t'
  | _ => none

/-- The code units of a text up to its closing quote, and what follows the quote.  Controls must be
escaped. -/
def readUnits? : Text → Option (List Nat × Text)
  | [] => none
  | '"' :: rest => some ([], rest)
  | '\\' :: 'u' :: a :: b :: c :: d :: rest => do
    let unit ← hexUnit? a b c d
    let (units, rest) ← readUnits? rest
    return (unit :: units, rest)
  | '\\' :: e :: rest => do
    let c ← shortEscape? e
    let (units, rest) ← readUnits? rest
    return (c.toNat :: units, rest)
  | c :: rest =>
    if c.toNat < 0x20 || c == '\\' then none
    else do
      let (units, rest) ← readUnits? rest
      return (c.toNat :: units, rest)

/-- Whether a code unit is the first one of a pair. -/
def isHighSurrogate (n : Nat) : Bool :=
  0xD800 ≤ n && n < 0xDC00

/-- Whether a code unit is the second one of a pair. -/
def isLowSurrogate (n : Nat) : Bool :=
  0xDC00 ≤ n && n < 0xE000

/-- The character of a code point, or the replacement character. -/
def charOf (n : Nat) : Char :=
  if isHighSurrogate n || isLowSurrogate n then '\uFFFD' else Char.ofNat n

/-- The characters of a list of code units. -/
def joinUnits : List Nat → Text
  | [] => []
  | [n] => [charOf n]
  | n :: m :: rest =>
    if isHighSurrogate n && isLowSurrogate m then
      Char.ofNat (0x10000 + (n - 0xD800) * 0x400 + (m - 0xDC00)) :: joinUnits rest
    else charOf n :: joinUnits (m :: rest)

theorem length_of_readUnits? {t rest : Text} {us : List Nat}
    (h : readUnits? t = some (us, rest)) : rest.length < t.length := by
  fun_induction readUnits? t generalizing us rest
  case case1 => cases h
  case case2 => cases h; simp
  case case3 ih =>
    obtain ⟨unit, -, h⟩ := Option.bind_eq_some_iff.1 h
    obtain ⟨⟨us', rest'⟩, hu, h⟩ := Option.bind_eq_some_iff.1 h
    cases h
    have := ih hu
    simp only [List.length_cons]
    omega
  case case4 ih =>
    obtain ⟨c, -, h⟩ := Option.bind_eq_some_iff.1 h
    obtain ⟨⟨us', rest'⟩, hu, h⟩ := Option.bind_eq_some_iff.1 h
    cases h
    have := ih hu
    simp only [List.length_cons]
    omega
  case case5 => cases h
  case case6 ih =>
    obtain ⟨⟨us', rest'⟩, hu, h⟩ := Option.bind_eq_some_iff.1 h
    cases h
    have := ih hu
    simp only [List.length_cons]
    omega

/-! ### Numbers -/

/-- Digits of the first block at the beginning of a text, at least one, and what follows. -/
def readDigits? (t : Text) : Option (Text × Text) :=
  match t.takeWhile isAsciiDigit with
  | [] => none
  | run => some (run, t.dropWhile isAsciiDigit)

/-- The whole part of a number: a single zero, or digits that do not start with one. -/
def readWhole? : Text → Option (Text × Text)
  | '0' :: rest => some (['0'], rest)
  | t => readDigits? t

/-- The digits behind a point, when some follow it. -/
def readFraction (t : Text) : Text × Text :=
  match t with
  | '.' :: rest => (readDigits? rest).getD ([], t)
  | _ => ([], t)

/-- The exponent of a number, when one is complete. -/
def readExponent (t : Text) : Option Int × Text :=
  match t with
  | e :: rest =>
    if e == 'e' || e == 'E' then
      let (negative, body) := Reading.splitSign rest
      match readDigits? body with
      | some (run, rest') =>
        let n := Reading.digitsValue run
        (some (if negative then -(n : Int) else n), rest')
      | none => (none, t)
    else (none, t)
  | [] => (none, t)

/-- A whole number of the given digits. -/
def wholeToken (negative : Bool) (digits : Text) : Token :=
  if Reading.greatestWholeLength < digits.length then .overlong
  else
    let n := Reading.digitsValue digits
    .scalar (.int (if negative then -(n : Int) else n))

/-- A real number of the given parts. -/
def realToken (negative : Bool) (whole fraction : Text) (exponent : Int) : Token :=
  let coefficient := Reading.digitsValue (whole ++ fraction)
  .scalar (.real (Decimal.toFloat ⟨negative, coefficient, exponent - fraction.length⟩))

/-- A number without its sign, and what follows. -/
def readUnsigned? (negative : Bool) (t : Text) : Option (Token × Text) := do
  let (whole, rest) ← readWhole? t
  let (fraction, rest) := readFraction rest
  let (exponent, rest) := readExponent rest
  if fraction = [] && exponent.isNone then return (wholeToken negative whole, rest)
  return (realToken negative whole fraction (exponent.getD 0), rest)

/-- The words of JSON with their values. -/
def wordValues : List (Text × Json) :=
  [("null".toList, .null), ("true".toList, .bool true), ("false".toList, .bool false),
   ("NaN".toList, .real notANumber), ("Infinity".toList, .real (infinite false)),
   ("-Infinity".toList, .real (infinite true))]

/-- A word or a number at the beginning of a text, and what follows. -/
def readScalar? (t : Text) : Option (Token × Text) :=
  match wordValues.findSome? fun w => (Text.after? w.1 t).map (.scalar w.2, ·) with
  | some r => some r
  | none =>
    match t with
    | '-' :: rest => readUnsigned? true rest
    | _ => readUnsigned? false t

/-! ### The scanner -/

/-- The punctuation of JSON. -/
def punctuation? : Char → Option Token
  | '[' => some .openList
  | ']' => some .closeList
  | '\x7b' => some .openObject
  | '\x7d' => some .closeObject
  | ',' => some .comma
  | ':' => some .colon
  | _ => none

/-- The blanks between tokens. -/
def isSeparator (c : Char) : Bool :=
  c == ' ' || c == '\t' || c == '\n' || c == '\r'

/-- The token at the beginning of a text, blanks apart, and what follows it. -/
def readToken? (t : Text) : Option (Token × Text) :=
  match t with
  | [] => none
  | c :: rest =>
    match punctuation? c with
    | some p => some (p, rest)
    | none =>
      if c == '"' then (readUnits? rest).map fun (us, rest) =>
        (.text (String.ofList (joinUnits us)), rest)
      else readScalar? t

/-! ### Tokens take characters -/

theorem length_of_readDigits? {t run rest : Text} (h : readDigits? t = some (run, rest)) :
    rest.length < t.length := by
  unfold readDigits? at h
  split at h
  · cases h
  · rename_i hr
    cases h
    have hl := congrArg List.length (List.takeWhile_append_dropWhile (p := isAsciiDigit) (l := t))
    have := List.length_pos_iff.2 hr
    rw [List.length_append] at hl
    omega

theorem length_of_readWhole? {t run rest : Text} (h : readWhole? t = some (run, rest)) :
    rest.length < t.length := by
  unfold readWhole? at h
  split at h
  · cases h; simp
  · exact length_of_readDigits? h

theorem length_readFraction (t : Text) : (readFraction t).2.length ≤ t.length := by
  unfold readFraction
  split
  · rename_i rest
    cases h : readDigits? rest with
    | none => simp
    | some r =>
      have hl : r.2.length < rest.length := length_of_readDigits? h
      simp only [Option.getD_some, List.length_cons]
      omega
  · exact Nat.le_refl _

theorem length_splitSign (t : Text) : (Reading.splitSign t).2.length ≤ t.length := by
  unfold Reading.splitSign
  split <;> simp

theorem length_readExponent (t : Text) : (readExponent t).2.length ≤ t.length := by
  unfold readExponent
  split
  · rename_i e rest
    split
    · have hs := length_splitSign rest
      simp only
      split
      · rename_i hd
        have := length_of_readDigits? hd
        simp only [List.length_cons]
        omega
      · exact Nat.le_refl _
    · exact Nat.le_refl _
  · exact Nat.le_refl _

theorem length_of_readUnsigned? {negative : Bool} {t rest : Text} {token : Token}
    (h : readUnsigned? negative t = some (token, rest)) : rest.length < t.length := by
  obtain ⟨⟨whole, r⟩, hw, h⟩ := Option.bind_eq_some_iff.1 h
  have hl := length_of_readWhole? hw
  have hf := length_readFraction r
  have he := length_readExponent (readFraction r).2
  simp only at h
  split at h <;> cases h <;> omega

theorem length_of_readScalar? {t rest : Text} {token : Token}
    (h : readScalar? t = some (token, rest)) : rest.length < t.length := by
  unfold readScalar? at h
  split at h
  · rename_i r hr
    cases h
    obtain ⟨w, hw, hr⟩ := List.exists_of_findSome?_eq_some hr
    obtain ⟨r, hr, he⟩ := Option.map_eq_some_iff.1 hr
    cases he
    rw [Text.after?_eq_some_iff.1 hr, List.length_append]
    have hn : ∀ w ∈ wordValues, 0 < w.1.length := by simp [wordValues]
    have := hn w hw
    omega
  · split at h
    · have := length_of_readUnsigned? h
      simp only [List.length_cons]
      omega
    · exact length_of_readUnsigned? h

theorem length_of_readToken? {t rest : Text} {token : Token}
    (h : readToken? t = some (token, rest)) : rest.length < t.length := by
  unfold readToken? at h
  split at h
  · cases h
  · split at h
    · cases h; simp
    · split at h
      · obtain ⟨r, hr, he⟩ := Option.map_eq_some_iff.1 h
        cases he
        have hl := length_of_readUnits? hr
        simp only [List.length_cons]
        omega
      · exact length_of_readScalar? h

/-! ### The tokens of a text -/

/-- The tokens of a text, up to the first number that is too long. -/
def tokens? (t : Text) : Option (List Token) :=
  match t with
  | [] => some []
  | c :: rest =>
    if isSeparator c then tokens? rest
    else
      match _h : readToken? (c :: rest) with
      | none => none
      | some (.overlong, _) => some [.overlong]
      | some (token, rest') => (tokens? rest').map (token :: ·)
termination_by t.length
decreasing_by
  · simp
  · exact length_of_readToken? _h

end PocketCalculator.Json
