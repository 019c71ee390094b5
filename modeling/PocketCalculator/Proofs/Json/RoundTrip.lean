import PocketCalculator.Json.Reader
import PocketCalculator.Proofs.Json.Members
import PocketCalculator.Proofs.Json.Numbers
import PocketCalculator.Proofs.Json.Texts

/-! # Written values read back

A written value has a list of tokens of its own (`tokens`), whatever its indentation: the scanner
reads exactly these (`tokens?_written`), and the machine that takes one token after the other ends
behind them with the value complete (`foldlM_tokens`).  What this asks for is that the numbers
inside can be read back and that no object has a key twice.  So reading undoes writing:
`read_written`. -/

namespace PocketCalculator.Json

/-! ### Regular values -/

mutual

/-- Whether the real numbers inside a value are finite and no object inside has a key twice. -/
def isRegular : Json → Bool
  | .real x => x.isFinite
  | .list items => areRegular items
  | .object members => decide (keys members).Nodup && haveRegular members
  | _ => true

/-- Whether all items of a list are regular. -/
def areRegular : List Json → Bool
  | [] => true
  | v :: rest => isRegular v && areRegular rest

/-- Whether all members of an object are regular. -/
def haveRegular : List (String × Json) → Bool
  | [] => true
  | (_, v) :: rest => isRegular v && haveRegular rest

end

/-! ### The tokens of a value -/

mutual

/-- The tokens of a value. -/
def tokens : Json → List Token
  | .null => [.scalar .null]
  | .bool b => [.scalar (.bool b)]
  | .int n => [.scalar (.int n)]
  | .real x => [.scalar (.real x)]
  | .text s => [.text s]
  | .list [] => [.openList, .closeList]
  | .list (v :: rest) => .openList :: tokens v ++ itemTokens rest ++ [.closeList]
  | .object [] => [.openObject, .closeObject]
  | .object ((key, v) :: rest) =>
    .openObject :: .text key :: .colon :: tokens v ++ memberTokens rest ++ [.closeObject]

/-- The tokens of the further items of a list. -/
def itemTokens : List Json → List Token
  | [] => []
  | v :: rest => .comma :: tokens v ++ itemTokens rest

/-- The tokens of the further members of an object. -/
def memberTokens : List (String × Json) → List Token
  | [] => []
  | (key, v) :: rest => .comma :: .text key :: .colon :: tokens v ++ memberTokens rest

end

theorem exists_tokens_eq (v : Json) : ∃ t ts, tokens v = t :: ts ∧ t ≠ .closeList := by
  cases v with
  | list items => cases items <;> exact ⟨_, _, rfl, nofun⟩
  | object members => cases members <;> exact ⟨_, _, rfl, nofun⟩
  | _ => exact ⟨_, _, rfl, nofun⟩

/-! ### The scanner -/

section scanner

variable {c : Char} {t rest : Text}

theorem tokens?_separator (h : isSeparator c = true) (t : Text) : tokens? (c :: t) = tokens? t := by
  rw [tokens?, if_pos h]

theorem tokens?_token {token : Token} (hc : isSeparator c = false)
    (h : readToken? (c :: t) = some (token, rest)) (hover : token ≠ .overlong) :
    tokens? (c :: t) = (tokens? rest).map (token :: ·) := by
  rw [tokens?, if_neg (by simp [hc])]
  split
  · rename_i h'
    rw [h] at h'
    cases h'
  · rename_i h'
    rw [h] at h'
    cases h'
    exact absurd rfl hover
  · rename_i h'
    rw [h] at h'
    cases h'
    rfl

theorem tokens?_punctuation {p : Token} (h : punctuation? c = some p) (t : Text) :
    tokens? (c :: t) = (tokens? t).map (p :: ·) := by
  have hc : isSeparator c = false ∧ p ≠ .overlong := by
    unfold punctuation? at h
    split at h <;> cases h <;> exact ⟨by decide, nofun⟩
  refine tokens?_token hc.1 ?_ hc.2
  rw [readToken?, h]

theorem tokens?_writtenText (s : String) (t : Text) :
    tokens? (writtenText s ++ t) = (tokens? t).map (.text s :: ·) := by
  have h := readToken?_writtenText s t
  rw [writtenText, List.append_assoc, List.cons_append] at h ⊢
  exact tokens?_token (by decide) h (by rintro ⟨⟩)

theorem tokens?_scalar {v : Json} (hsep : isSeparator c = false) (hp : punctuation? c = none)
    (hq : c ≠ '"') (h : readScalar? (c :: t) = some (.scalar v, rest)) :
    tokens? (c :: t) = (tokens? rest).map (.scalar v :: ·) := by
  refine tokens?_token hsep ?_ (by rintro ⟨⟩)
  rw [readToken?, hp, if_neg (by simpa using hq), h]

theorem tokens?_signed {negative : Bool} {v : Json} (hc : isAsciiDigit c = true)
    (h : readScalar? (Decimal.signText negative ++ c :: t) = some (.scalar v, rest)) :
    tokens? (Decimal.signText negative ++ c :: t) = (tokens? rest).map (.scalar v :: ·) := by
  have key : plainNumeralChars.all (fun c => isSeparator c = false ∧
      (punctuation? c).isNone = true ∧ c ≠ '"') = true := by decide
  obtain ⟨hsep, hp, hq⟩ := forall_plain key (isPlainNumeralChar_of_digit hc)
  cases negative with
  | true => exact tokens?_scalar (by decide) rfl (by decide) h
  | false => exact tokens?_scalar hsep (Option.isNone_iff_eq_none.1 hp) hq h

/-! ### What stands behind a value -/

variable (indent : Indent) (level : ℕ)

theorem tokens?_lineBreak (t : Text) : tokens? (lineBreak indent level ++ t) = tokens? t := by
  have blanks (n : ℕ) : tokens? (List.replicate n ' ' ++ t) = tokens? t := by
    induction n with
    | zero => rfl
    | succ n ih => rw [List.replicate_succ, List.cons_append, tokens?_separator (by decide), ih]
  cases indent with
  | none => rfl
  | some columns =>
      rw [lineBreak, List.cons_append, tokens?_separator (by decide), blanks]

theorem tokens?_between (t : Text) :
    tokens? (separator indent level ++ t) = (tokens? t).map (.comma :: ·) := by
  cases indent with
  | none =>
      change tokens? (',' :: ' ' :: t) = _
      rw [tokens?_punctuation rfl, tokens?_separator (by decide)]
  | some columns =>
      rw [separator, List.cons_append, tokens?_punctuation rfl, tokens?_lineBreak]

theorem tokens?_key (key : String) (t : Text) :
    tokens? (writtenText key ++ ':' :: ' ' :: t) =
      (tokens? t).map (fun ts => .text key :: .colon :: ts) := by
  rw [tokens?_writtenText, tokens?_punctuation rfl, tokens?_separator (by decide), Option.map_map]
  rfl

theorem endsNumber_cons (hc : isPlainNumeralChar c = false ∧ c ≠ 'e' ∧ c ≠ 'E') :
    EndsNumber (c :: t) := by
  rintro _ ⟨⟩
  exact hc

theorem endsNumber_lineBreak (h : EndsNumber t) : EndsNumber (lineBreak indent level ++ t) := by
  cases indent with
  | none => exact h
  | some columns => exact endsNumber_cons (by decide)

theorem endsNumber_separator : EndsNumber (separator indent level ++ t) := by
  cases indent with
  | none => exact endsNumber_cons (by decide)
  | some columns => exact endsNumber_cons (by decide)

theorem endsNumber_items (items : List Json) (h : EndsNumber t) :
    EndsNumber (writtenItems indent level items ++ t) := by
  cases items with
  | nil => exact h
  | cons v items =>
      rw [writtenItems, List.append_assoc, List.append_assoc]
      exact endsNumber_separator indent level

theorem endsNumber_members (members : Members) (h : EndsNumber t) :
    EndsNumber (writtenMembers indent level members ++ t) := by
  cases members with
  | nil => exact h
  | cons m members =>
      rw [writtenMembers, List.append_assoc, List.append_assoc, List.append_assoc,
        List.append_assoc]
      exact endsNumber_separator indent level

end scanner

/-! ### The tokens of a written value -/

section written

variable (indent : Indent)

theorem tokens?_intText {n : ℤ} (hn : isWritableInt n = true) {rest : Text} (h : EndsNumber rest) :
    tokens? (intText n ++ rest) = (tokens? rest).map (.scalar (.int n) :: ·) := by
  have hread := readScalar?_intText hn h
  obtain ⟨c, t, hct⟩ := List.exists_cons_of_ne_nil (Decimal.digits_ne_nil n.natAbs)
  have hc : isAsciiDigit c = true :=
    Decimal.isAsciiDigit_of_mem_digits (n := n.natAbs) (hct ▸ List.mem_cons_self)
  rw [intText, hct, List.append_assoc, List.cons_append] at hread ⊢
  exact tokens?_signed hc hread

theorem tokens?_number {x : Float} (hx : x.isFinite = true) {rest : Text} (h : EndsNumber rest) :
    tokens? (numberLayout.text x ++ rest) = (tokens? rest).map (.scalar (.real x) :: ·) := by
  have hread := readScalar?_number hx h
  obtain ⟨d, hd⟩ := Dyadic.exists_of_isFinite hx
  obtain ⟨w, f, e, hw, -, -, htext⟩ := exists_parts_layout numberLayout d.shortest
  obtain ⟨c, t, rfl⟩ := List.exists_cons_of_ne_nil hw.ne_nil
  rw [RecordLayout.text, hd] at hread ⊢
  dsimp only at hread ⊢
  rw [htext, List.append_assoc, List.cons_append, List.cons_append, List.cons_append] at hread ⊢
  exact tokens?_signed (hw.isDigit c List.mem_cons_self) hread

mutual

/-- The scanner reads the tokens of a written value, however it is indented. -/
theorem tokens?_written : ∀ (v : Json) (level : ℕ), isRegular v = true → isWritable v = true →
    ∀ {rest : Text}, EndsNumber rest →
      tokens? (written indent level v ++ rest) = (tokens? rest).map (tokens v ++ ·)
  | .null, _, _, _, rest, _ => tokens?_scalar (c := 'n') (t := 'u' :: 'l' :: 'l' :: rest) (by decide)
      rfl (by decide) rfl
  | .bool true, _, _, _, rest, _ =>
      tokens?_scalar (c := 't') (t := 'r' :: 'u' :: 'e' :: rest) (by decide) rfl (by decide) rfl
  | .bool false, _, _, _, rest, _ =>
      tokens?_scalar (c := 'f') (t := 'a' :: 'l' :: 's' :: 'e' :: rest) (by decide) rfl (by decide)
        rfl
  | .int n, _, _, hw, _, h => tokens?_intText hw h
  | .real x, _, hv, _, _, h => tokens?_number hv h
  | .text s, _, _, _, rest, _ => tokens?_writtenText s rest
  | .list [], _, _, _, rest, _ => by
      change tokens? ('[' :: ']' :: rest) = _
      rw [tokens?_punctuation rfl, tokens?_punctuation rfl, Option.map_map]
      rfl
  | .list (v :: items), level, hv, hw, rest, _ => by
      rw [isRegular, areRegular, Bool.and_eq_true] at hv
      rw [isWritable, areWritable, Bool.and_eq_true] at hw
      have hend : EndsNumber (lineBreak indent level ++ ']' :: rest) :=
        endsNumber_lineBreak indent level (endsNumber_cons (by decide))
      rw [written]
      simp only [List.append_assoc, List.cons_append, List.nil_append]
      rw [tokens?_punctuation rfl, tokens?_lineBreak,
        tokens?_written v _ hv.1 hw.1 (endsNumber_items indent _ items hend),
        tokens?_items items _ hv.2 hw.2 hend, tokens?_lineBreak, tokens?_punctuation rfl]
      simp [tokens, Option.map_map, Function.comp_def]
  | .object [], _, _, _, rest, _ => by
      change tokens? ('\x7b' :: '\x7d' :: rest) = _
      rw [tokens?_punctuation rfl, tokens?_punctuation rfl, Option.map_map]
      rfl
  | .object ((key, v) :: members), level, hv, hw, rest, _ => by
      rw [isRegular, haveRegular, Bool.and_eq_true, Bool.and_eq_true] at hv
      rw [isWritable, haveWritable, Bool.and_eq_true] at hw
      have hend : EndsNumber (lineBreak indent level ++ '\x7d' :: rest) :=
        endsNumber_lineBreak indent level (endsNumber_cons (by decide))
      rw [written]
      simp only [List.append_assoc, List.cons_append, List.nil_append]
      rw [tokens?_punctuation rfl, tokens?_lineBreak, tokens?_key,
        tokens?_written v _ hv.2.1 hw.1 (endsNumber_members indent _ members hend),
        tokens?_members members _ hv.2.2 hw.2 hend, tokens?_lineBreak, tokens?_punctuation rfl]
      simp [tokens, Option.map_map, Function.comp_def]

theorem tokens?_items : ∀ (items : List Json) (level : ℕ), areRegular items = true →
    areWritable items = true → ∀ {rest : Text}, EndsNumber rest →
      tokens? (writtenItems indent level items ++ rest) = (tokens? rest).map (itemTokens items ++ ·)
  | [], _, _, _, rest, _ => by simp [writtenItems, itemTokens]
  | v :: items, level, hv, hw, rest, h => by
      rw [areRegular, Bool.and_eq_true] at hv
      rw [areWritable, Bool.and_eq_true] at hw
      rw [writtenItems, List.append_assoc, List.append_assoc, tokens?_between,
        tokens?_written v _ hv.1 hw.1 (endsNumber_items indent _ items h),
        tokens?_items items _ hv.2 hw.2 h]
      simp [itemTokens, Option.map_map, Function.comp_def]

theorem tokens?_members : ∀ (members : List (String × Json)) (level : ℕ),
    haveRegular members = true → haveWritable members = true → ∀ {rest : Text}, EndsNumber rest →
      tokens? (writtenMembers indent level members ++ rest) =
        (tokens? rest).map (memberTokens members ++ ·)
  | [], _, _, _, rest, _ => by simp [writtenMembers, memberTokens]
  | (key, v) :: members, level, hv, hw, rest, h => by
      rw [haveRegular, Bool.and_eq_true] at hv
      rw [haveWritable, Bool.and_eq_true] at hw
      rw [writtenMembers]
      simp only [List.append_assoc, List.cons_append, List.nil_append]
      rw [tokens?_between, tokens?_key,
        tokens?_written v _ hv.1 hw.1 (endsNumber_members indent _ members h),
        tokens?_members members _ hv.2 hw.2 h]
      simp [memberTokens, Option.map_map, Function.comp_def]

end

end written

/-! ### The machine -/

theorem foldlM_cons {s q : State} {t : Token} (h : step s t = some q) (ts : List Token) :
    (t :: ts).foldlM step s = ts.foldlM step q := by
  rw [List.foldlM_cons, h]
  rfl

theorem foldlM_firstItem (v : Json) (stack : List Frame) (ts : List Token) :
    (tokens v ++ ts).foldlM step (.firstItem stack) =
      (tokens v ++ ts).foldlM step (.value (.list [] :: stack)) := by
  obtain ⟨t, us, heq, ht⟩ := exists_tokens_eq v
  have hstep : step (.firstItem stack) t = step (.value (.list [] :: stack)) t := by
    cases t <;> first | rfl | exact absurd rfl ht
  rw [heq, List.cons_append, List.foldlM_cons, List.foldlM_cons, hstep]

mutual

/-- The machine takes the tokens of a value, and the value is complete behind them. -/
theorem foldlM_tokens : ∀ (v : Json), isRegular v = true → ∀ (stack : List Frame) (ts : List Token),
    (tokens v ++ ts).foldlM step (.value stack) = ts.foldlM step (afterValue v stack)
  | .null, _, _, ts => foldlM_cons rfl ts
  | .bool _, _, _, ts => foldlM_cons rfl ts
  | .int _, _, _, ts => foldlM_cons rfl ts
  | .real _, _, _, ts => foldlM_cons rfl ts
  | .text _, _, _, ts => foldlM_cons rfl ts
  | .list [], _, _, ts => (foldlM_cons rfl _).trans (foldlM_cons rfl ts)
  | .list (v :: items), hv, stack, ts => by
      rw [isRegular, areRegular, Bool.and_eq_true] at hv
      rw [tokens]
      simp only [List.append_assoc, List.cons_append, List.nil_append]
      rw [foldlM_cons (q := .firstItem stack) rfl, foldlM_firstItem, foldlM_tokens v hv.1,
        afterValue, foldlM_itemTokens items hv.2]
      refine (foldlM_cons rfl ts).trans ?_
      simp
  | .object [], _, _, ts => (foldlM_cons rfl _).trans (foldlM_cons rfl ts)
  | .object ((key, v) :: members), hv, stack, ts => by
      rw [isRegular, haveRegular, Bool.and_eq_true, Bool.and_eq_true, decide_eq_true_eq] at hv
      rw [tokens]
      simp only [List.append_assoc, List.cons_append, List.nil_append]
      rw [foldlM_cons (q := .firstKey stack) rfl, foldlM_cons (q := .colon [] key stack) rfl,
        foldlM_cons (q := .value (.object [] key :: stack)) rfl, foldlM_tokens v hv.2.1, afterValue,
        foldlM_memberTokens members hv.2.2]
      refine (foldlM_cons rfl ts).trans ?_
      simp [overlay_nil hv.1]

theorem foldlM_itemTokens : ∀ (items : List Json), areRegular items = true →
    ∀ (done : List Json) (stack : List Frame) (ts : List Token),
      (itemTokens items ++ ts).foldlM step (.afterItem done stack) =
        ts.foldlM step (.afterItem (items.reverse ++ done) stack)
  | [], _, _, _, _ => rfl
  | v :: items, hv, done, stack, ts => by
      rw [areRegular, Bool.and_eq_true] at hv
      rw [itemTokens]
      simp only [List.append_assoc, List.cons_append]
      rw [foldlM_cons (q := .value (.list done :: stack)) rfl, foldlM_tokens v hv.1, afterValue,
        foldlM_itemTokens items hv.2]
      simp

theorem foldlM_memberTokens : ∀ (members : List (String × Json)), haveRegular members = true →
    ∀ (done : Members) (stack : List Frame) (ts : List Token),
      (memberTokens members ++ ts).foldlM step (.afterMember done stack) =
        ts.foldlM step (.afterMember (members.reverse ++ done) stack)
  | [], _, _, _, _ => rfl
  | (key, v) :: members, hv, done, stack, ts => by
      rw [haveRegular, Bool.and_eq_true] at hv
      rw [memberTokens]
      simp only [List.append_assoc, List.cons_append]
      rw [foldlM_cons (q := .nextKey done stack) rfl, foldlM_cons (q := .colon done key stack) rfl,
        foldlM_cons (q := .value (.object done key :: stack)) rfl, foldlM_tokens v hv.1, afterValue,
        foldlM_memberTokens members hv.2]
      simp

end

/-- A regular value that can be written is read back, however it is indented. -/
theorem read_written (indent : Indent) {v : Json} (hv : isRegular v = true)
    (hw : isWritable v = true) : read (written indent 0 v) = .ok v := by
  have hscan := tokens?_written indent v 0 hv hw endsNumber_nil
  have hnil : tokens? [] = some [] := by rw [tokens?]
  rw [List.append_nil, hnil, Option.map_some, List.append_nil] at hscan
  have hfold := foldlM_tokens v hv [] []
  rw [List.append_nil] at hfold
  rw [read, hscan]
  dsimp only
  rw [ofTokens, hfold]
  rfl

end PocketCalculator.Json
