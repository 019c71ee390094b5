import PocketCalculator.Proofs.Expr.Parsing
import PocketCalculator.Proofs.Expr.TwoPasses
import PocketCalculator.Proofs.Number.PlainText
import PocketCalculator.Proofs.Token.Scanning

/-! # Texts of chains

A chain of doubles is written by their plain texts with the operators between them.  The scanner
takes such a text apart into the same numbers and operators again (`Chain.ofChars_text`), where a
minus behind an operator is the sign of the number behind it and a minus behind a number is an
operator.  No product is implied (`Chain.withProducts_tokens`), and the parser puts the chain
together on two levels (`Chain.ofTokens_tokens`). -/

namespace PocketCalculator

/-! ### Numbers that their texts show -/

/-- A double that its plain text shows, with the numeral that the text is. -/
structure Shown where
  value : Float
  numeral : Numeral
  text_numeral : numeral.text = plainText value
  plain : ∀ c ∈ numeral.body, isPlainNumeralChar c = true
  value_numeral : numeral.value = .ok value

theorem exists_shown {x : Float} (hx : x.isFinite = true) (h0 : x ≠ -0.0) :
    ∃ s : Shown, s.value = x := by
  obtain ⟨n, ht, hp, -, hv⟩ := exists_numeral_plainText hx h0
  exact ⟨⟨x, n, ht, hp, hv⟩, rfl⟩

/-! ### Characters of chains -/

/-- The spellings of the operators. -/
def operatorSymbols : Text :=
  ['+', '-', '×', '÷', '*', '/']

/-- Whether a character may stand in the text of a chain. -/
def isChainChar (c : Char) : Bool :=
  isPlainNumeralChar c || c ∈ operatorSymbols

theorem Operator.symbol_mem (op : Operator) : op.symbol ∈ operatorSymbols := by
  rcases op with ⟨_ | _⟩ | ⟨_ | _ | _ | _⟩ <;> decide

theorem isChainChar_symbol (op : Operator) : isChainChar op.symbol = true := by
  rw [isChainChar, Bool.or_eq_true]
  exact .inr (decide_eq_true op.symbol_mem)

theorem isChainChar_of_plain {c : Char} (h : isPlainNumeralChar c = true) :
    isChainChar c = true := by
  rw [isChainChar, h, Bool.true_or]

/-- The characters of chains. -/
def chainChars : Text :=
  plainNumeralChars ++ operatorSymbols

theorem forall_chain {P : Char → Prop} [DecidablePred P]
    (h : chainChars.all (fun c => P c) = true) {c : Char} (hc : isChainChar c = true) : P c := by
  rw [isChainChar, Bool.or_eq_true, decide_eq_true_eq] at hc
  refine of_decide_eq_true (List.all_eq_true.1 h c (List.mem_append.2 ?_))
  exact hc.imp mem_plainNumeralChars id

theorem Head.read?_chain {t : Text} (h : ∀ c ∈ t, isChainChar c = true) : read? t = none := by
  have key : ∀ g ∈ all, g.text.any (fun c => isChainChar c = false) = true := by decide
  refine read?_eq_none fun head hp => ?_
  obtain ⟨c, hc, hf⟩ := List.any_eq_true.1 (forall_head key head)
  rw [h c (hp.subset hc)] at hf
  cases hf

namespace Chain

/-! ### The text of a chain -/

/-- The operators and numbers behind the first number. -/
def textBehind (more : List (Operator × Float)) : Text :=
  more.flatMap fun q => q.1.symbol :: plainText q.2

/-- The text of a chain. -/
def text (x : Float) (more : List (Operator × Float)) : Text :=
  plainText x ++ textBehind more

/-- The values of numbers that their texts show, behind their operators. -/
def values (more : List (Operator × Shown)) : List (Operator × Float) :=
  more.map fun q => (q.1, q.2.value)

/-- The tokens behind the first number. -/
def tokensBehind (more : List (Operator × Shown)) : List Token :=
  more.flatMap fun q => [q.1.token, .number q.2.numeral]

/-- The tokens of a chain. -/
def tokens (s : Shown) (more : List (Operator × Shown)) : List Token :=
  .number s.numeral :: tokensBehind more

theorem textBehind_cons (op : Operator) (s : Shown) (more : List (Operator × Shown)) :
    textBehind (values ((op, s) :: more)) =
      op.symbol :: (s.numeral.text ++ textBehind (values more)) := by
  rw [s.text_numeral]
  rfl

theorem isChainChar_of_mem_numeral (s : Shown) {c : Char} (h : c ∈ s.numeral.text) :
    isChainChar c = true := by
  rcases Numeral.eq_or_mem_of_mem_text h with rfl | h
  · decide
  · exact isChainChar_of_plain (s.plain c h)

theorem isChainChar_of_mem_textBehind {more : List (Operator × Shown)} {c : Char}
    (h : c ∈ textBehind (values more)) : isChainChar c = true := by
  induction more with
  | nil => cases h
  | cons q more ih =>
      rw [textBehind_cons] at h
      rcases List.mem_cons.1 h with rfl | h
      · exact isChainChar_symbol q.1
      · rcases List.mem_append.1 h with h | h
        · exact isChainChar_of_mem_numeral q.2 h
        · exact ih h

theorem isChainChar_of_mem_text (s : Shown) {more : List (Operator × Shown)} {c : Char}
    (h : c ∈ text s.value (values more)) : isChainChar c = true := by
  rw [text, ← s.text_numeral] at h
  rcases List.mem_append.1 h with h | h
  · exact isChainChar_of_mem_numeral s h
  · exact isChainChar_of_mem_textBehind h

/-! ### Scanning -/

theorem isNumeralChar_symbol (op : Operator) : isNumeralChar op.symbol = false := by
  have key : operatorSymbols.all (fun c => isNumeralChar c = false) = true := by decide
  exact of_decide_eq_true (List.all_eq_true.1 key _ op.symbol_mem)

theorem isNumeralChar_of_head?_textBehind {more : List (Operator × Shown)} {c : Char}
    (h : c ∈ (textBehind (values more)).head?) : isNumeralChar c = false := by
  cases more with
  | nil => cases h
  | cons q more =>
      rw [textBehind_cons] at h
      cases h
      exact isNumeralChar_symbol q.1

theorem ofChar?_symbol (op : Operator) : Token.ofChar? op.symbol = some op.token := by
  rcases op with ⟨_ | _⟩ | ⟨_ | _ | _ | _⟩ <;> rfl

/-- Behind a number the symbol of an operator is the operator, also when it is a minus. -/
theorem ofChars_symbol (op : Operator) {n : Numeral} {rest : Text}
    (h : ∀ c ∈ rest, isChainChar c = true) :
    Token.ofChars (some (.number n)) (op.symbol :: rest) =
      (Token.ofChars (some op.token) rest).map (op.token :: ·) := by
  have hall : ∀ c ∈ op.symbol :: rest, isChainChar c = true := by
    intro c hc
    rcases List.mem_cons.1 hc with rfl | hc
    · exact isChainChar_symbol op
    · exact h c hc
  have hb : chainChars.all (fun c => isBlank c = false) = true := by decide
  have hn : Numeral.read? (Token.signAllowed (some (.number n))) (op.symbol :: rest) = none :=
    Numeral.read?_eq_none (isNumeralChar_symbol op) rest
  rw [Token.ofChars_char (forall_chain hb (isChainChar_symbol op)) (Head.read?_chain hall) hn,
    ofChar?_symbol]

theorem signAllowed_token (op : Operator) : Token.signAllowed (some op.token) = true := by
  rcases op with _ | _ <;> rfl

theorem ofChars_textBehind (n : Numeral) (more : List (Operator × Shown)) :
    Token.ofChars (some (.number n)) (textBehind (values more)) = .ok (tokensBehind more) := by
  induction more generalizing n with
  | nil => exact Token.ofChars_nil _
  | cons q more ih =>
      obtain ⟨op, s⟩ := q
      rw [textBehind_cons, ofChars_symbol, Token.ofChars_numeral s.numeral, ih]
      · rfl
      · exact fun _ => signAllowed_token op
      · exact fun c hc => isNumeralChar_of_head?_textBehind hc
      · intro c hc
        rcases List.mem_append.1 hc with hc | hc
        · exact isChainChar_of_mem_numeral s hc
        · exact isChainChar_of_mem_textBehind hc

/-- The text of a chain is taken apart into its numbers and operators. -/
theorem ofChars_text (s : Shown) (more : List (Operator × Shown)) :
    Token.ofChars none (text s.value (values more)) = .ok (tokens s more) := by
  rw [text, ← s.text_numeral, Token.ofChars_numeral s.numeral, ofChars_textBehind]
  · rfl
  · exact fun _ => rfl
  · exact fun c hc => isNumeralChar_of_head?_textBehind hc

/-! ### Products -/

theorem impliesProduct_number (n : Numeral) (op : Operator) :
    Token.impliesProduct (.number n) op.token = false := by
  rcases op with _ | _ <;> rfl

theorem impliesProduct_token (op : Operator) (t : Token) :
    Token.impliesProduct op.token t = false := by
  rcases op with _ | _ <;> rfl

theorem withProducts_cons_cons {s t : Token} (h : Token.impliesProduct s t = false)
    (rest : List Token) :
    Token.withProducts (s :: t :: rest) = s :: Token.withProducts (t :: rest) := by
  rw [Token.withProducts, h, if_neg Bool.false_ne_true]

/-- No product is implied in a chain. -/
theorem withProducts_tokens (s : Shown) (more : List (Operator × Shown)) :
    Token.withProducts (tokens s more) = tokens s more := by
  induction more generalizing s with
  | nil => rfl
  | cons q more ih =>
      obtain ⟨op, s'⟩ := q
      calc Token.withProducts (.number s.numeral :: op.token :: tokens s' more)
          = .number s.numeral :: Token.withProducts (op.token :: tokens s' more) :=
            withProducts_cons_cons (impliesProduct_number s.numeral op) _
        _ = .number s.numeral :: op.token :: Token.withProducts (tokens s' more) :=
            congrArg _ (withProducts_cons_cons (impliesProduct_token op _) _)
        _ = .number s.numeral :: op.token :: tokens s' more := by rw [ih]

/-! ### Parsing -/

/-- The operands behind the first one. -/
def literals (more : List (Operator × Shown)) : List (Operator × Expr) :=
  more.map fun q => (q.1, .literal q.2.value)

theorem settled_tokensBehind (more : List (Operator × Shown)) : Settled (tokensBehind more) := by
  intro t us h
  cases more with
  | nil => cases h
  | cons q more =>
      obtain ⟨_ | _, s⟩ := q <;> cases h

theorem operand_number (ans : Option Float) (s : Shown) {rest : List Token} (h : Settled rest) :
    Expr.operand ans .signed (.number s.numeral :: rest) = .ok (.literal s.value, rest) := by
  have hf : Expr.finish .signed (.literal s.value, rest) = (.literal s.value, rest) :=
    Expr.withSuffixes_eq (.literal s.value) [] h
  rw [Expr.operand, s.value_numeral]
  exact congrArg Except.ok hf

theorem chainAfter_tokensBehind (ans : Option Float) (more : List (Operator × Shown)) :
    Expr.chainAfter ans (tokensBehind more) = .ok (literals more, []) := by
  induction more with
  | nil => exact Expr.chainAfter_of_chainTo (.nil [])
  | cons q more ih =>
      obtain ⟨op, s⟩ := q
      have ho := operand_number ans s (settled_tokensBehind more)
      have hc := Expr.chainAfter_cons op.operator?_token ho
      rw [ih] at hc
      exact hc

/-- The tree of a chain of numbers. -/
theorem ofTokens_tokens (ans : Option Float) (s : Shown) (more : List (Operator × Shown)) :
    Expr.ofTokens ans (tokens s more) =
      .ok (Expr.ofChain none (.literal s.value) (literals more)).toFraction :=
  Expr.ofTokens_eq_ok_iff_chain.2 ⟨_, _, _, operand_number ans s (settled_tokensBehind more),
    chainAfter_tokensBehind ans more, rfl⟩

theorem valued_literals (more : List (Operator × Shown)) :
    Expr.Valued (literals more) (values more) := by
  induction more with
  | nil => exact .nil
  | cons q more ih => exact .cons ⟨rfl, rfl⟩ ih

end Chain
end PocketCalculator
