import PocketCalculator.Text

/-! # JSON values

Values whose objects keep their members in order, and which tell whole numbers from real ones.
`Json.put` is how a member enters an object: a key that is there already keeps its place and takes
the new value.  `lookup_put` and `keys_put` say so. -/

namespace PocketCalculator

/-- A JSON value. -/
inductive Json where
  | null
  | bool (b : Bool)
  | int (n : Int)
  | real (x : Float)
  | text (s : String)
  | list (items : List Json)
  | object (members : List (String × Json))

namespace Json

/-- The members of an object, in order. -/
abbrev Members := List (String × Json)

/-- A member set in an object: in its old place, or behind all others. -/
def put : Members → String → Json → Members
  | [], key, v => [(key, v)]
  | (k, w) :: rest, key, v => if k = key then (key, v) :: rest else (k, w) :: put rest key v

/-- The members `new` set one after the other. -/
def overlay (base new : Members) : Members :=
  new.foldl (fun members m => put members m.1 m.2) base

theorem lookup_put (members : Members) (key k : String) (v : Json) :
    (put members key v).lookup k = if k = key then some v else members.lookup k := by
  induction members with
  | nil =>
    by_cases h : k = key
    · simp [put, h]
    · have : (k == key) = false := by simpa using h
      simp [put, List.lookup_cons, h, this]
  | cons m rest ih =>
    obtain ⟨l, w⟩ := m
    by_cases hl : l = key
    · subst hl
      by_cases hk : k = l
      · simp [put, hk]
      · have : (k == l) = false := by simpa using hk
        simp [put, List.lookup_cons, hk, this]
    · by_cases hk : k = l
      · subst hk
        simp [put, hl]
      · have : (k == l) = false := by simpa using hk
        simp [put, List.lookup_cons, hl, this, ih]

theorem keys_put (members : Members) (key : String) (v : Json) :
    (put members key v).map Prod.fst =
      if key ∈ members.map Prod.fst then members.map Prod.fst
      else members.map Prod.fst ++ [key] := by
  induction members with
  | nil => simp [put]
  | cons m rest ih =>
    obtain ⟨l, w⟩ := m
    by_cases hl : l = key
    · simp [put, hl]
    · have hk : ¬key = l := fun h => hl h.symm
      simp only [put, hl, if_false, List.map_cons, ih, List.mem_cons, hk, false_or]
      split <;> simp

end Json
end PocketCalculator
