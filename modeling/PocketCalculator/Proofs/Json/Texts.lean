import PocketCalculator.Json.Printer
import PocketCalculator.Json.Token
import Mathlib.Data.List.Basic
import Mathlib.Tactic

/-! # Written texts read back

A character is written as itself, by a short escape, or by its code units in four hexadecimal digits
each.  All three are read as its code units (`readUnits?_escapeChar`), and code units are joined to
the characters that they came from (`joinUnits_codeUnits`).  So reading takes a written text off
whatever follows it: `readToken?_writtenText`. -/

namespace PocketCalculator.Json

/-! ### Four hexadecimal digits -/

theorem hexValue?_digitChar {k : ℕ} (h : k < 16) : hexValue? k.digitChar = some k := by
  have key : ∀ k < 16, hexValue? k.digitChar = some k := by decide
  exact key k h

theorem hex_succ {width : ℕ} (n : ℕ) (hw : 0 < width) :
    Quoted.hex (width + 1) n = Quoted.hex width (n / 16) ++ [(n % 16).digitChar] := by
  rw [Quoted.hex, Quoted.hex, Text.padLeft, Text.padLeft]
  rcases Nat.lt_or_ge n 16 with hlt | hge
  · have hzero : n / 16 = 0 := Nat.div_eq_of_lt hlt
    obtain ⟨w, rfl⟩ := Nat.exists_eq_succ_of_ne_zero hw.ne'
    rw [Nat.toDigits_of_lt_base hlt, hzero, Nat.toDigits_zero, Nat.mod_eq_of_lt hlt]
    simp [← List.replicate_succ']
  · rw [Nat.toDigits_of_base_le (by decide) hge, ← List.append_assoc]
    simp

theorem hex_one {n : ℕ} (h : n < 16) : Quoted.hex 1 n = [n.digitChar] := by
  rw [Quoted.hex, Text.padLeft, Nat.toDigits_of_lt_base h]
  rfl

theorem hex_four {n : ℕ} (h : n < 0x10000) : Quoted.hex 4 n =
    [(n / 4096).digitChar, (n / 256 % 16).digitChar, (n / 16 % 16).digitChar,
      (n % 16).digitChar] := by
  rw [hex_succ n (by decide), hex_succ _ (by decide), hex_succ _ (by decide), hex_one (by omega)]
  simp only [Nat.div_div_eq_div_mul, Nat.reduceMul]
  rfl

theorem readUnits?_unitEscape {n : ℕ} (h : n < 0x10000) (rest : Text) :
    readUnits? (unitEscape n ++ rest) = (readUnits? rest).map fun r => (n :: r.1, r.2) := by
  have hunit : hexUnit? (n / 4096).digitChar (n / 256 % 16).digitChar (n / 16 % 16).digitChar
      (n % 16).digitChar = some n := by
    rw [hexUnit?, hexValue?_digitChar (by omega), hexValue?_digitChar (Nat.mod_lt _ (by decide)),
      hexValue?_digitChar (Nat.mod_lt _ (by decide)), hexValue?_digitChar (Nat.mod_lt _ (by decide))]
    change some (((n / 4096 * 16 + n / 256 % 16) * 16 + n / 16 % 16) * 16 + n % 16) = some n
    congr 1
    omega
  rw [unitEscape, hex_four h]
  change readUnits? ('\\' :: 'u' :: _ :: _ :: _ :: _ :: rest) = _
  rw [readUnits?, hunit]
  cases readUnits? rest <;> rfl

/-! ### Code units -/

/-- The code units of a character: itself, or the two halves of what is above the first plane. -/
def codeUnits (c : Char) : List ℕ :=
  if c.toNat < 0x10000 then [c.toNat]
  else [0xD800 + (c.toNat - 0x10000) / 0x400, 0xDC00 + (c.toNat - 0x10000) % 0x400]

theorem readUnits?_shortEscape {e c : Char} (he : e ≠ 'u') (h : shortEscape? e = some c)
    (rest : Text) :
    readUnits? ('\\' :: e :: rest) = (readUnits? rest).map fun r => (c.toNat :: r.1, r.2) := by
  rw [readUnits?, h]
  · cases readUnits? rest <;> rfl
  · exact fun _ _ _ _ _ h => absurd h he

theorem readUnits?_plain {c : Char} (hlow : 0x20 ≤ c.toNat) (hq : c ≠ '"') (hb : c ≠ '\\')
    (rest : Text) :
    readUnits? (c :: rest) = (readUnits? rest).map fun r => (c.toNat :: r.1, r.2) := by
  have hcontrol : ¬(decide (c.toNat < 0x20) || c == '\\') = true := by
    simp only [Bool.or_eq_true, decide_eq_true_eq, beq_iff_eq, not_or]
    exact ⟨not_lt.2 hlow, hb⟩
  rw [readUnits?, if_neg hcontrol]
  · cases readUnits? rest <;> rfl
  · exact hq
  · exact fun _ _ _ _ _ h => absurd h hb
  · exact fun _ _ h => absurd h hb

/-- A written character is read as its code units. -/
theorem readUnits?_escapeChar (c : Char) (rest : Text) :
    readUnits? (escapeChar c ++ rest) =
      (readUnits? rest).map fun r => (codeUnits c ++ r.1, r.2) := by
  have short {c e : Char} (he : e ≠ 'u') (h : shortEscape? e = some c) (hc : c.toNat < 0x10000) :
      readUnits? (['\\', e] ++ rest) = (readUnits? rest).map fun r => (codeUnits c ++ r.1, r.2) := by
    rw [codeUnits, if_pos hc]
    exact readUnits?_shortEscape he h rest
  rw [escapeChar]
  split
  · rename_i h
    rw [Bool.or_eq_true, decide_eq_true_eq, decide_eq_true_eq] at h
    rcases h with rfl | rfl <;> exact short (by decide) rfl (by decide)
  · rename_i h
    rw [Bool.or_eq_true, decide_eq_true_eq, decide_eq_true_eq, not_or] at h
    split_ifs with hn hr ht hf hback hplain hbmp
    · exact hn ▸ short (by decide) rfl (by decide)
    · exact hr ▸ short (by decide) rfl (by decide)
    · exact ht ▸ short (by decide) rfl (by decide)
    · exact hf ▸ short (by decide) rfl (by decide)
    · exact hback ▸ short (by decide) rfl (by decide)
    · rw [Bool.and_eq_true, decide_eq_true_eq, decide_eq_true_eq] at hplain
      rw [codeUnits, if_pos (by omega)]
      exact readUnits?_plain hplain.1 h.1 h.2 rest
    · rw [codeUnits, if_pos hbmp]
      exact readUnits?_unitEscape hbmp rest
    · have hvalid : c.toNat < 0x110000 := by
        rcases c.valid with hlow | hhigh
        · exact lt_trans hlow (by decide)
        · exact hhigh.2
      rw [codeUnits, if_neg hbmp, List.append_assoc, readUnits?_unitEscape (by omega),
        readUnits?_unitEscape (by omega), Option.map_map]
      rfl

theorem readUnits?_flatMap (t : Text) (rest : Text) :
    readUnits? (t.flatMap escapeChar ++ '"' :: rest) = some (t.flatMap codeUnits, rest) := by
  induction t with
  | nil => rfl
  | cons c t ih =>
      rw [List.flatMap_cons, List.append_assoc, readUnits?_escapeChar, ih]
      rfl

/-! ### Joining -/

theorem not_surrogate (c : Char) :
    isHighSurrogate c.toNat = false ∧ isLowSurrogate c.toNat = false := by
  have hvalid : c.toNat < 0xD800 ∨ 0xDFFF < c.toNat ∧ c.toNat < 0x110000 := c.valid
  simp only [isHighSurrogate, isLowSurrogate, Bool.and_eq_false_iff, decide_eq_false_iff_not]
  omega

theorem charOf_toNat (c : Char) : charOf c.toNat = c := by
  rw [charOf, (not_surrogate c).1, (not_surrogate c).2, Char.ofNat_toNat]
  rfl

theorem joinUnits_append (c : Char) (units : List ℕ) :
    joinUnits (codeUnits c ++ units) = c :: joinUnits units := by
  rw [codeUnits]
  split
  · cases units with
    | nil => exact congrArg (fun c => [c]) (charOf_toNat c)
    | cons m units =>
        rw [List.singleton_append, joinUnits, (not_surrogate c).1, Bool.false_and,
          if_neg Bool.false_ne_true, charOf_toNat]
  · rename_i hbmp
    have hvalid : c.toNat < 0xD800 ∨ 0xDFFF < c.toNat ∧ c.toNat < 0x110000 := c.valid
    have hjoined : 0x10000 + (0xD800 + (c.toNat - 0x10000) / 0x400 - 0xD800) * 0x400 +
        (0xDC00 + (c.toNat - 0x10000) % 0x400 - 0xDC00) = c.toNat := by omega
    rw [List.cons_append, List.singleton_append, joinUnits, if_pos, hjoined, Char.ofNat_toNat]
    simp only [isHighSurrogate, isLowSurrogate, Bool.and_eq_true, decide_eq_true_eq]
    omega

/-- Code units are joined to the characters that they came from. -/
theorem joinUnits_codeUnits (t : Text) : joinUnits (t.flatMap codeUnits) = t := by
  induction t with
  | nil => rfl
  | cons c t ih => rw [List.flatMap_cons, joinUnits_append, ih]

/-- A written text is read off whatever follows it. -/
theorem readToken?_writtenText (s : String) (rest : Text) :
    readToken? (writtenText s ++ rest) = some (.text s, rest) := by
  have hread := readUnits?_flatMap s.toList rest
  rw [writtenText, List.append_assoc, List.cons_append, List.singleton_append]
  change ((readUnits? _).map _) = _
  rw [hread, Option.map_some]
  dsimp only
  rw [joinUnits_codeUnits, String.ofList_toList]

end PocketCalculator.Json
