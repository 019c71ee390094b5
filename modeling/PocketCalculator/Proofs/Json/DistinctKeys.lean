import PocketCalculator.Json.Reader
import PocketCalculator.Proofs.Json.Members

/-! # The keys of an object that is read

An object that is read has each key once, also where its text repeats a key (`nodup_keys_of_read`).
The machine builds an object by laying its members over nothing, and no token brings an object of
its own (`Token.IsFlat`), so a complete value has this property after every step. -/

namespace PocketCalculator.Json

/-- A value that has no key twice when it is an object. -/
def DistinctKeys : Json → Prop
  | .object members => (keys members).Nodup
  | _ => True

/-! ### Tokens -/

/-- A token that brings no list or object with it. -/
def Token.IsFlat : Token → Prop
  | .scalar (.list _) | .scalar (.object _) => False
  | _ => True

theorem isFlat_punctuation? {c : Char} {p : Token} (h : punctuation? c = some p) : p.IsFlat := by
  unfold punctuation? at h
  split at h <;> cases h <;> trivial

theorem isFlat_wholeToken (negative : Bool) (digits : Text) :
    (wholeToken negative digits).IsFlat := by
  unfold wholeToken
  split <;> trivial

theorem isFlat_readUnsigned? {negative : Bool} {t rest : Text} {token : Token}
    (h : readUnsigned? negative t = some (token, rest)) : token.IsFlat := by
  obtain ⟨⟨whole, r⟩, -, h⟩ := Option.bind_eq_some_iff.1 h
  simp only at h
  split at h <;> cases h
  · exact isFlat_wholeToken negative whole
  · trivial

theorem isFlat_readScalar? {t rest : Text} {token : Token}
    (h : readScalar? t = some (token, rest)) : token.IsFlat := by
  have hwords : ∀ w ∈ wordValues, (Token.scalar w.2).IsFlat := by
    simp [wordValues, Token.IsFlat]
  unfold readScalar? at h
  split at h
  · rename_i r hr
    cases h
    obtain ⟨w, hw, hr⟩ := List.exists_of_findSome?_eq_some hr
    obtain ⟨_, _, he⟩ := Option.map_eq_some_iff.1 hr
    cases he
    exact hwords w hw
  · split at h <;> exact isFlat_readUnsigned? h

theorem isFlat_readToken? {t rest : Text} {token : Token}
    (h : readToken? t = some (token, rest)) : token.IsFlat := by
  unfold readToken? at h
  split at h
  · cases h
  · split at h
    · rename_i hp
      cases h
      exact isFlat_punctuation? hp
    · split at h
      · obtain ⟨_, _, he⟩ := Option.map_eq_some_iff.1 h
        cases he
        trivial
      · exact isFlat_readScalar? h

theorem isFlat_of_tokens? {t : Text} {ts : List Token} (h : tokens? t = some ts) :
    ∀ token ∈ ts, token.IsFlat := by
  fun_induction tokens? t generalizing ts
  case case1 => cases h; simp
  case case2 ih => exact ih h
  case case3 => cases h
  case case4 =>
    cases h
    simp [Token.IsFlat]
  case case5 hread ih =>
    obtain ⟨us, hus, rfl⟩ := Option.map_eq_some_iff.1 h
    rintro token (_ | ⟨_, htoken⟩)
    · exact isFlat_readToken? hread
    · exact ih hus token htoken

/-! ### The machine -/

/-- A state that has no value, or one without a key twice. -/
def State.IsDistinct : State → Prop
  | .complete v => v.DistinctKeys
  | _ => True

theorem distinctKeys_text (s : String) : DistinctKeys (.text s) :=
  True.intro

theorem distinctKeys_list (items : List Json) : DistinctKeys (.list items) :=
  True.intro

theorem distinctKeys_overlay (new : Members) : DistinctKeys (.object (overlay [] new)) :=
  nodup_keys_overlay (List.nodup_nil : (keys []).Nodup)

theorem isDistinct_afterValue {v : Json} (hv : v.DistinctKeys) (stack : List Frame) :
    (afterValue v stack).IsDistinct := by
  unfold afterValue
  split
  · exact hv
  · trivial
  · trivial

theorem isDistinct_startValue {stack : List Frame} {t : Token} {s : State} (ht : t.IsFlat)
    (h : startValue stack t = some s) : s.IsDistinct := by
  unfold startValue at h
  split at h <;> cases h
  · rename_i v
    refine isDistinct_afterValue ?_ stack
    cases v <;> trivial
  · exact isDistinct_afterValue (distinctKeys_text _) stack
  · trivial
  · trivial
  · trivial

theorem isDistinct_step {s s' : State} {t : Token} (ht : t.IsFlat) (h : step s t = some s') :
    s'.IsDistinct := by
  unfold step at h
  split at h
  case h_1 => exact isDistinct_startValue ht h
  case h_3 => exact isDistinct_startValue ht h
  case h_11 done _ =>
    cases h
    exact isDistinct_afterValue (distinctKeys_overlay _) _
  all_goals cases h
  all_goals
    first
    | exact isDistinct_afterValue (distinctKeys_list _) _
    | exact isDistinct_afterValue (distinctKeys_overlay []) _
    | exact True.intro

theorem isDistinct_foldlM {ts : List Token} (hts : ∀ token ∈ ts, token.IsFlat) {s s' : State}
    (hs : s.IsDistinct) (h : ts.foldlM step s = some s') : s'.IsDistinct := by
  induction ts generalizing s with
  | nil =>
      cases h
      exact hs
  | cons t ts ih =>
      rw [List.foldlM_cons] at h
      obtain ⟨s₁, h₁, h⟩ := Option.bind_eq_some_iff.1 h
      obtain ⟨ht, hts⟩ := List.forall_mem_cons.1 hts
      exact ih hts (isDistinct_step ht h₁) h

/-- No object that is read has a key twice. -/
theorem nodup_keys_of_read {t : Text} {members : Members} (h : read t = .ok (.object members)) :
    (keys members).Nodup := by
  unfold read at h
  split at h
  · rename_i ts hts
    unfold ofTokens at h
    split at h
    · rename_i v hv
      cases h
      exact isDistinct_foldlM (isFlat_of_tokens? hts) (s := .value []) True.intro hv
    · cases h
    · cases h
  · cases h

end PocketCalculator.Json
