import PocketCalculator.Token

/-! # From text to tokens

Blanks are skipped, heads come before single characters, and a number is a maximal run of digits
and points.  A minus directly in front of such a run belongs to the number when it stands at the
beginning or behind a token that asks for an operand.

`Token.ofChars` is the scanner; its recursion ends because each step leaves a shorter text
(`Numeral.length_of_read?`, `Head.length_of_read?`). -/

namespace PocketCalculator

/-! ### Numbers -/

/-- The run of digits and points at the beginning of a text, as a numeral, and what follows. -/
def Numeral.readRun? (negative : Bool) (t : Text) : Option (Numeral × Text) :=
  (ofRun? negative (t.takeWhile isNumeralChar)).map (·, t.dropWhile isNumeralChar)

/-- The numeral at the beginning of a text, with its sign where one is allowed. -/
def Numeral.read? (signed : Bool) : Text → Option (Numeral × Text)
  | '-' :: t => if signed then readRun? true t else none
  | t => readRun? false t

theorem Numeral.length_of_readRun? {negative : Bool} {t rest : Text} {n : Numeral}
    (h : readRun? negative t = some (n, rest)) : rest.length < t.length := by
  obtain ⟨m, hm, he⟩ := Option.map_eq_some_iff.1 h
  cases he
  have hb := n.body_ne_nil
  rw [(text_of_ofRun? hm).2] at hb
  have hl := congrArg List.length (List.takeWhile_append_dropWhile (p := isNumeralChar) (l := t))
  have := List.length_pos_iff.2 hb
  rw [List.length_append] at hl
  omega

theorem Numeral.length_of_read? {signed : Bool} {t rest : Text} {n : Numeral}
    (h : read? signed t = some (n, rest)) : rest.length < t.length := by
  unfold read? at h
  split at h
  · split at h
    · have := length_of_readRun? h
      simp only [List.length_cons]
      omega
    · cases h
  · exact length_of_readRun? h

/-! ### The scanner -/

/-- The tokens of a head. -/
def Head.tokens : Head → List Token
  | .circular f => [.circular f, .opening]
  | .marker m => [.marker m]
  | .ans => [.ans]
  | .reciprocal => [.suffix .reciprocal]

namespace Token

/-- Whether a minus is a sign behind the token `previous`, or at the beginning. -/
def signAllowed (previous : Option Token) : Bool :=
  previous.all precedesSign

/-- The tokens of a text that follows the token `previous`. -/
def ofChars (previous : Option Token) (t : Text) : Except Fault (List Token) :=
  match t with
  | [] => .ok []
  | c :: rest =>
    if isBlank c then ofChars previous rest
    else
      match _hh : Head.read? (c :: rest) with
      | some (head, rest') => do
        return head.tokens ++ (← ofChars head.tokens.getLast? rest')
      | none =>
        match _hn : Numeral.read? (signAllowed previous) (c :: rest) with
        | some (n, rest') => do
          return number n :: (← ofChars (some (number n)) rest')
        | none =>
          match ofChar? c with
          | some s => do return s :: (← ofChars (some s) rest)
          | none => .error (.unexpectedToken [c])
termination_by t.length
decreasing_by
  all_goals simp_wf
  · have := Head.length_of_read? _hh
    simpa using this
  · have := Numeral.length_of_read? _hn
    simpa using this

/-- The tokens of an expression. -/
def scan (t : Text) : Except Failure (List Token) :=
  (ofChars none t).mapError fun fault => ⟨fault, some t⟩

end Token
end PocketCalculator
