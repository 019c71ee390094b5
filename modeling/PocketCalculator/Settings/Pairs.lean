import PocketCalculator.Format
import PocketCalculator.Json.Printer

/-! # Settings from pairs

A list of pairs can take the place of an object.  The key of a pair is a text, null, or a number,
and numbers of one value are one key however they are written; truth values count as one and zero.
A key that is there already keeps its place and its spelling and takes the new value. -/

namespace PocketCalculator

/-! ### Keys -/

/-- What tells keys apart. -/
inductive PairKey where
  | text (s : String)
  | null
  | whole (n : Int)
  /-- A number that is not whole, by its bits. -/
  | other (bits : UInt64)
  deriving DecidableEq, Repr

namespace PairKey

/-- The key of a double. -/
def ofFloat (x : Float) : PairKey :=
  match Dyadic.ofFloat? x with
  | some d => if d.isWhole then whole d.truncate else other x.toBits
  | none => other x.toBits

/-- The key of a value; lists and objects are no keys. -/
def ofJson? : Json → Option PairKey
  | .text s => some (text s)
  | .null => some null
  | .bool b => some (whole (if b then 1 else 0))
  | .int n => some (whole n)
  | .real x => some (ofFloat x)
  | .list _ | .object _ => none

end PairKey

/-! ### Pairs -/

/-- A key, the value that it was first given as, and what it holds. -/
structure Pair where
  key : PairKey
  name : Json
  value : Json

namespace Pair

/-- The pair of a member of an object. -/
def ofMember (m : String × Json) : Pair :=
  ⟨.text m.1, .text m.1, m.2⟩

/-- The pair of a key and a value. -/
def ofItems (key value : Json) : Except SettingsFault Pair :=
  match PairKey.ofJson? key with
  | some k => .ok ⟨k, key, value⟩
  | none => .error .noKey

/-- An item of a list as a pair: a list of two, a text of two characters, or the two keys of an
object. -/
def ofItem : Json → Except SettingsFault Pair
  | .list [key, value] => ofItems key value
  | .object [(key, _), (value, _)] => .ok (ofMember (key, .text value))
  | .text s =>
    match s.toList with
    | [a, b] => .ok (ofMember (String.singleton a, .text (String.singleton b)))
    | _ => .error .noPair
  | .list _ | .object _ => .error .noPair
  | _ => .error .noItems

/-- A pair put behind others, or in the place of the pair with its key. -/
def put : List Pair → Pair → List Pair
  | [], p => [p]
  | q :: rest, p => if q.key = p.key then { q with value := p.value } :: rest else q :: put rest p

/-- The spelling of a key as the name of a member: a text itself, and of other values what is
written for them. -/
def spelling : Json → String
  | .text s => s
  | v => String.ofList v.lineText

/-- The members of an object that writes the pairs. -/
def members (pairs : List Pair) : Json.Members :=
  Json.overlay [] (pairs.map fun p => (spelling p.name, p.value))

/-- A key in a listing: truth values are listed as numbers, and null cannot be listed. -/
def label : Json → Except SettingsFault Text
  | .text s => .ok s.toList
  | .bool b => .ok (if b then ['1'] else ['0'])
  | .int n => .ok (Json.intText n)
  | .real x => .ok (recordText x)
  | .null | .list _ | .object _ => .error .noKey

/-- A pair as a row of a listing. -/
def row (p : Pair) : Except SettingsFault (Text × Json) := do
  return (← label p.name, p.value)

end Pair

/-! ### Settings -/

namespace Settings

/-- The pairs that a value other than an object writes. -/
def pairsOf : Json → Except SettingsFault (List Pair)
  | .list items => items.mapM Pair.ofItem
  | .text s => if s = "" then .ok [] else .error .noPair
  | _ => .error .noItems

/-- Settings with the pairs of a value set in them. -/
def withPairs (base : Settings) (v : Json) : Except SettingsFault (List Pair) := do
  let pairs ← pairsOf v
  return pairs.foldl Pair.put (base.map Pair.ofMember)

/-- Settings with the content of a file set in them. -/
def withContent (base : Settings) : Json → Except SettingsFault Settings
  | .object members => .ok (Json.overlay base members)
  | v => (withPairs base v).map Pair.members

/-- Settings as the rows of a listing. -/
def rows (s : Settings) : List (Text × Json) :=
  s.map fun m => (m.1.toList, m.2)

/-- The rows of a listing of settings with the content of a file set in them. -/
def rowsWithContent (base : Settings) : Json → Except SettingsFault (List (Text × Json))
  | .object members => .ok (rows (Json.overlay base members))
  | v => do (← withPairs base v).mapM Pair.row

end Settings
end PocketCalculator
