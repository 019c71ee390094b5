import PocketCalculator.Expr.Parser
import PocketCalculator.Proofs.Number.Reading

/-! # The grammar of expressions

The tokens of an expression form phrases of seven kinds (`Derives`).  The grammar is ambiguous: in
`√ log 2 ²` the suffix may belong to the operand of the marker or to the root.  `Reads` is the
greedy reading from the left, in which every operand takes all suffixes that stand behind it; it
comes with the tree and with the tokens left over.

Every greedy reading is a derivation (`Reads.derives`), and whatever can be derived from readable
tokens can be read greedily (`Derives.exists_reads`).  The trees have operators on two levels only,
none of them inside an operand (`Reads.shape`). -/

namespace PocketCalculator

/-! ### Derivations -/

/-- The kinds of phrases, from an expression without its fraction down to a single unit. -/
inductive Phrase where
  | sum
  | term
  | signed
  | prefixed
  | postfixed
  | rooted
  | unit
  deriving DecidableEq, Repr

/-- `Derives p ts` says that the tokens `ts` form a phrase of the kind `p`. -/
inductive Derives : Phrase → List Token → Prop where
  | term {ts} (h : Derives .term ts) : Derives .sum ts
  | sum {ts us} (hl : Derives .sum ts) (op : Additive) (hr : Derives .term us) :
      Derives .sum (ts ++ .additive op :: us)
  | signed {ts} (h : Derives .signed ts) : Derives .term ts
  | product {ts us} (hl : Derives .term ts) (op : Multiplicative) (hr : Derives .signed us) :
      Derives .term (ts ++ .multiplicative op :: us)
  | sign {ts} (op : Additive) (h : Derives .signed ts) : Derives .signed (.additive op :: ts)
  | prefixed {ts} (h : Derives .prefixed ts) : Derives .signed ts
  | marker {ts} (m : Marker) (h : Derives .prefixed ts) : Derives .prefixed (.marker m :: ts)
  | markerMinus {ts} (m : Marker) (h : Derives .prefixed ts) :
      Derives .prefixed (.marker m :: .additive .minus :: ts)
  | postfixed {ts} (h : Derives .postfixed ts) : Derives .prefixed ts
  | suffix {ts} (h : Derives .postfixed ts) (s : Suffix) : Derives .postfixed (ts ++ [.suffix s])
  | rooted {ts} (h : Derives .rooted ts) : Derives .postfixed ts
  | rootMarker {ts} (m : Marker) (h : Derives .prefixed ts) :
      Derives .rooted (.root :: .marker m :: ts)
  | rootMarkerMinus {ts} (m : Marker) (h : Derives .prefixed ts) :
      Derives .rooted (.root :: .marker m :: .additive .minus :: ts)
  | rootMinus {ts} (h : Derives .rooted ts) : Derives .rooted (.root :: .additive .minus :: ts)
  | root {ts} (h : Derives .rooted ts) : Derives .rooted (.root :: ts)
  | unit {ts} (h : Derives .unit ts) : Derives .rooted ts
  | number (n : Numeral) : Derives .unit [.number n]
  | ans : Derives .unit [.ans]
  | blank : Derives .unit [.blank]
  | call {ts} (f : CircularFunction) (h : Derives .signed ts) :
      Derives .unit (.circular f :: .opening :: ts ++ [.closing])
  | group {ts} (h : Derives .signed ts) : Derives .unit (.opening :: ts ++ [.closing])

/-- Every number is well written, and the last result is there if it is named. -/
def Readable (ans : Option Float) (ts : List Token) : Prop :=
  (∀ n, .number n ∈ ts → n.WellWritten) ∧ (.ans ∈ ts → ans.isSome)

theorem readable_append {ans : Option Float} {ts us : List Token} :
    Readable ans (ts ++ us) ↔ Readable ans ts ∧ Readable ans us := by
  simp only [Readable, List.mem_append]
  constructor
  · rintro ⟨hn, ha⟩
    exact ⟨⟨fun n h => hn n (.inl h), fun h => ha (.inl h)⟩,
      ⟨fun n h => hn n (.inr h), fun h => ha (.inr h)⟩⟩
  · rintro ⟨⟨hn, ha⟩, ⟨hn', ha'⟩⟩
    exact ⟨fun n h => h.elim (hn n) (hn' n), fun h => h.elim ha ha'⟩

theorem readable_cons {ans : Option Float} {t : Token} {ts : List Token} :
    Readable ans (t :: ts) ↔ Readable ans [t] ∧ Readable ans ts :=
  @readable_append ans [t] ts

theorem readable_symbol {ans : Option Float} {t : Token} (h : t.isValue = false) :
    Readable ans [t] := by
  refine ⟨fun n hn => ?_, fun ha => ?_⟩
  · rw [← List.mem_singleton.1 hn] at h
    cases h
  · rw [← List.mem_singleton.1 ha] at h
    cases h

theorem Readable.cons {ans : Option Float} {t : Token} {ts : List Token} (h : Readable ans ts)
    (ht : t.isValue = false) : Readable ans (t :: ts) :=
  readable_cons.2 ⟨readable_symbol ht, h⟩

theorem Readable.tail {ans : Option Float} {t : Token} {ts : List Token}
    (h : Readable ans (t :: ts)) : Readable ans ts :=
  (readable_cons.1 h).2

/-! ### Suffixes -/

/-- No suffix comes next. -/
def Settled (ts : List Token) : Prop :=
  ∀ s us, ts ≠ .suffix s :: us

/-- The tokens behind all suffixes that come next. -/
def afterSuffixes : List Token → List Token
  | .suffix _ :: ts => afterSuffixes ts
  | ts => ts

theorem afterSuffixes_of_settled {ts : List Token} (h : Settled ts) : afterSuffixes ts = ts := by
  rw [afterSuffixes]
  exact h

theorem settled_afterSuffixes (ts : List Token) : Settled (afterSuffixes ts) := by
  fun_induction afterSuffixes ts with
  | case1 s ts ih => exact ih
  | case2 ts h => exact h

theorem exists_suffixes (ts : List Token) :
    ∃ ss : List Suffix, ts = ss.map .suffix ++ afterSuffixes ts := by
  fun_induction afterSuffixes ts with
  | case1 s ts ih =>
      obtain ⟨ss, h⟩ := ih
      exact ⟨s :: ss, by rw [List.map_cons, List.cons_append, ← h]⟩
  | case2 ts h => exact ⟨[], rfl⟩

theorem Derives.suffixes {ts : List Token} (h : Derives .postfixed ts) (ss : List Suffix) :
    Derives .postfixed (ts ++ ss.map .suffix) := by
  induction ss generalizing ts with
  | nil => simpa using h
  | cons s ss ih => simpa using ih (h.suffix s)

/-! ### The greedy reading -/

/-- `Reads ans p ts e rest` says that a phrase of the kind `p` is read greedily from the beginning
of `ts`, with the tree `e`, and `rest` is left over. -/
inductive Reads (ans : Option Float) : Phrase → List Token → Expr → List Token → Prop where
  | term {ts e rest} (h : Reads ans .term ts e rest) : Reads ans .sum ts e rest
  | sum {ts l us r rest} {op : Additive} (hl : Reads ans .sum ts l (.additive op :: us))
      (hr : Reads ans .term us r rest) : Reads ans .sum ts (.binary (.additive op) l r) rest
  | signed {ts e rest} (h : Reads ans .signed ts e rest) : Reads ans .term ts e rest
  | product {ts l us r rest} {op : Multiplicative}
      (hl : Reads ans .term ts l (.multiplicative op :: us)) (hr : Reads ans .signed us r rest) :
      Reads ans .term ts (.binary (.multiplicative op) l r) rest
  | plus {ts e rest} (h : Reads ans .signed ts e rest) :
      Reads ans .signed (.additive .plus :: ts) e rest
  /-- The sign of a literal is taken into the literal. -/
  | minusLiteral {ts x rest} (h : Reads ans .signed ts (.literal x) rest) :
      Reads ans .signed (.additive .minus :: ts) (.literal (-x)) rest
  | minus {ts e rest} (h : Reads ans .signed ts e rest) (hl : ∀ x, e ≠ .literal x) :
      Reads ans .signed (.additive .minus :: ts) (.neg e) rest
  | prefixed {ts e rest} (h : Reads ans .prefixed ts e rest) : Reads ans .signed ts e rest
  | marker {m ts e rest} (h : Reads ans .prefixed ts e rest) :
      Reads ans .prefixed (.marker m :: ts) (.apply (.marker m) e) rest
  | markerMinus {m ts e rest} (h : Reads ans .prefixed ts e rest) :
      Reads ans .prefixed (.marker m :: .additive .minus :: ts) (.apply (.marker m) (.neg e)) rest
  /-- Suffixes apply from the left, and all that follow are taken. -/
  | suffixes {ts e rest} {ss : List Suffix} (h : Reads ans .rooted ts e (ss.map .suffix ++ rest))
      (hs : Settled rest) :
      Reads ans .postfixed ts (ss.foldl (fun e s => .apply (.suffix s) e) e) rest
  | postfixed {ts e rest} (h : Reads ans .postfixed ts e rest) : Reads ans .prefixed ts e rest
  | rootMarker {m ts e rest} (h : Reads ans .prefixed ts e rest) :
      Reads ans .rooted (.root :: .marker m :: ts) (.apply .root (.apply (.marker m) e)) rest
  | rootMarkerMinus {m ts e rest} (h : Reads ans .prefixed ts e rest) :
      Reads ans .rooted (.root :: .marker m :: .additive .minus :: ts)
        (.apply .root (.apply (.marker m) (.neg e))) rest
  | rootMinus {ts e rest} (h : Reads ans .rooted ts e rest) :
      Reads ans .rooted (.root :: .additive .minus :: ts) (.apply .root (.neg e)) rest
  | root {ts e rest} (h : Reads ans .rooted ts e rest) :
      Reads ans .rooted (.root :: ts) (.apply .root e) rest
  | unit {ts e rest} (h : Reads ans .unit ts e rest) : Reads ans .rooted ts e rest
  | number {n x rest} (h : n.value = .ok x) : Reads ans .unit (.number n :: rest) (.literal x) rest
  | ans {x rest} (h : ans = some x) : Reads ans .unit (.ans :: rest) (.literal x) rest
  | blank {rest} : Reads ans .unit (.blank :: rest) .blank rest
  | call {f ts e rest} (h : Reads ans .signed ts e (.closing :: rest)) :
      Reads ans .unit (.circular f :: .opening :: ts) (.apply (.circular f) e) rest
  | group {ts e rest} (h : Reads ans .signed ts e (.closing :: rest)) :
      Reads ans .unit (.opening :: ts) e rest

variable {ans : Option Float} {p : Phrase} {ts rest : List Token} {e : Expr}

theorem readable_suffixes (ss : List Suffix) : Readable ans (ss.map .suffix) := by
  induction ss with
  | nil => exact ⟨fun n h => absurd h List.not_mem_nil, fun h => absurd h List.not_mem_nil⟩
  | cons s ss ih => exact ih.cons rfl

/-- A greedy reading is a derivation of the tokens that it takes, and these are readable. -/
theorem Reads.derives (h : Reads ans p ts e rest) :
    ∃ taken, ts = taken ++ rest ∧ Derives p taken ∧ Readable ans taken := by
  induction h with
  | term _ ih =>
      obtain ⟨us, rfl, hd, hr⟩ := ih
      exact ⟨us, rfl, hd.term, hr⟩
  | @sum ts l us r rest op _ _ ihl ihr =>
      obtain ⟨us₁, rfl, hd₁, hr₁⟩ := ihl
      obtain ⟨us₂, rfl, hd₂, hr₂⟩ := ihr
      refine ⟨us₁ ++ .additive op :: us₂, by simp, hd₁.sum op hd₂, ?_⟩
      exact readable_append.2 ⟨hr₁, hr₂.cons rfl⟩
  | signed _ ih =>
      obtain ⟨us, rfl, hd, hr⟩ := ih
      exact ⟨us, rfl, hd.signed, hr⟩
  | @product ts l us r rest op _ _ ihl ihr =>
      obtain ⟨us₁, rfl, hd₁, hr₁⟩ := ihl
      obtain ⟨us₂, rfl, hd₂, hr₂⟩ := ihr
      refine ⟨us₁ ++ .multiplicative op :: us₂, by simp, hd₁.product op hd₂, ?_⟩
      exact readable_append.2 ⟨hr₁, hr₂.cons rfl⟩
  | plus _ ih =>
      obtain ⟨us, rfl, hd, hr⟩ := ih
      exact ⟨_ :: us, rfl, hd.sign .plus, hr.cons rfl⟩
  | minusLiteral _ ih =>
      obtain ⟨us, rfl, hd, hr⟩ := ih
      exact ⟨_ :: us, rfl, hd.sign .minus, hr.cons rfl⟩
  | minus _ _ ih =>
      obtain ⟨us, rfl, hd, hr⟩ := ih
      exact ⟨_ :: us, rfl, hd.sign .minus, hr.cons rfl⟩
  | prefixed _ ih =>
      obtain ⟨us, rfl, hd, hr⟩ := ih
      exact ⟨us, rfl, hd.prefixed, hr⟩
  | @marker m _ _ _ _ ih =>
      obtain ⟨us, rfl, hd, hr⟩ := ih
      exact ⟨_ :: us, rfl, hd.marker m, hr.cons rfl⟩
  | @markerMinus m _ _ _ _ ih =>
      obtain ⟨us, rfl, hd, hr⟩ := ih
      exact ⟨_ :: _ :: us, rfl, hd.markerMinus m, (hr.cons rfl).cons rfl⟩
  | @suffixes _ _ _ ss _ _ ih =>
      obtain ⟨us, rfl, hd, hr⟩ := ih
      refine ⟨us ++ ss.map .suffix, by simp, hd.rooted.suffixes ss, ?_⟩
      exact readable_append.2 ⟨hr, readable_suffixes ss⟩
  | postfixed _ ih =>
      obtain ⟨us, rfl, hd, hr⟩ := ih
      exact ⟨us, rfl, hd.postfixed, hr⟩
  | @rootMarker m _ _ _ _ ih =>
      obtain ⟨us, rfl, hd, hr⟩ := ih
      exact ⟨_ :: _ :: us, rfl, hd.rootMarker m, (hr.cons rfl).cons rfl⟩
  | @rootMarkerMinus m _ _ _ _ ih =>
      obtain ⟨us, rfl, hd, hr⟩ := ih
      exact ⟨_ :: _ :: _ :: us, rfl, hd.rootMarkerMinus m, ((hr.cons rfl).cons rfl).cons rfl⟩
  | rootMinus _ ih =>
      obtain ⟨us, rfl, hd, hr⟩ := ih
      exact ⟨_ :: _ :: us, rfl, hd.rootMinus, (hr.cons rfl).cons rfl⟩
  | root _ ih =>
      obtain ⟨us, rfl, hd, hr⟩ := ih
      exact ⟨_ :: us, rfl, hd.root, hr.cons rfl⟩
  | unit _ ih =>
      obtain ⟨us, rfl, hd, hr⟩ := ih
      exact ⟨us, rfl, hd.unit, hr⟩
  | @number n x rest hx =>
      refine ⟨[.number n], rfl, .number n, fun m hm => ?_, fun ha => ?_⟩
      · cases List.mem_singleton.1 hm
        exact n.exists_value_iff.1 ⟨x, hx⟩
      · cases List.mem_singleton.1 ha
  | ans hx =>
      refine ⟨[.ans], rfl, .ans, fun m hm => ?_, fun _ => by rw [hx]; rfl⟩
      cases List.mem_singleton.1 hm
  | blank => exact ⟨[.blank], rfl, .blank, readable_symbol rfl⟩
  | @call f _ _ _ _ ih =>
      obtain ⟨us, rfl, hd, hr⟩ := ih
      refine ⟨.circular f :: .opening :: us ++ [.closing], by simp, hd.call f, ?_⟩
      exact ((readable_append.2 ⟨hr, readable_symbol rfl⟩).cons rfl).cons rfl
  | group _ ih =>
      obtain ⟨us, rfl, hd, hr⟩ := ih
      refine ⟨.opening :: us ++ [.closing], by simp, hd.group, ?_⟩
      exact (readable_append.2 ⟨hr, readable_symbol rfl⟩).cons rfl

/-! ### What can be derived can be read -/

/-- What may be left over by a phrase with `rest` behind it: a unit takes no suffix, a root takes
all of them or none, and every other phrase takes all of them. -/
def Phrase.Leaves (rest left : List Token) : Phrase → Prop
  | .unit => left = rest
  | .rooted => left = rest ∨ left = afterSuffixes rest
  | _ => left = afterSuffixes rest

theorem Derives.exists_reads (h : Derives p ts) (hr : Readable ans ts) (rest : List Token) :
    ∃ e left, Reads ans p (ts ++ rest) e left ∧ p.Leaves rest left := by
  induction h generalizing rest with
  | term _ ih =>
      obtain ⟨e, left, h, hl⟩ := ih hr rest
      exact ⟨e, left, h.term, hl⟩
  | @sum ts us _ op _ ihl ihr =>
      obtain ⟨h₁, h₂⟩ := readable_append.1 hr
      obtain ⟨l, _, hl, rfl⟩ := ihl h₁ (.additive op :: (us ++ rest))
      obtain ⟨r, left, hr, hleft⟩ := ihr h₂.tail rest
      refine ⟨.binary (.additive op) l r, left, ?_, hleft⟩
      rw [List.append_assoc]
      exact hl.sum hr
  | signed _ ih =>
      obtain ⟨e, left, h, hl⟩ := ih hr rest
      exact ⟨e, left, h.signed, hl⟩
  | @product ts us _ op _ ihl ihr =>
      obtain ⟨h₁, h₂⟩ := readable_append.1 hr
      obtain ⟨l, _, hl, rfl⟩ := ihl h₁ (.multiplicative op :: (us ++ rest))
      obtain ⟨r, left, hr, hleft⟩ := ihr h₂.tail rest
      refine ⟨.binary (.multiplicative op) l r, left, ?_, hleft⟩
      rw [List.append_assoc]
      exact hl.product hr
  | sign op _ ih =>
      obtain ⟨e, left, h, hl⟩ := ih hr.tail rest
      cases op with
      | plus => exact ⟨e, left, h.plus, hl⟩
      | minus =>
          by_cases hx : ∃ x, e = .literal x
          · obtain ⟨x, rfl⟩ := hx
            exact ⟨_, left, h.minusLiteral, hl⟩
          · exact ⟨_, left, h.minus (fun x hx' => hx ⟨x, hx'⟩), hl⟩
  | prefixed _ ih =>
      obtain ⟨e, left, h, hl⟩ := ih hr rest
      exact ⟨e, left, h.prefixed, hl⟩
  | marker m _ ih =>
      obtain ⟨e, left, h, hl⟩ := ih hr.tail rest
      exact ⟨_, left, h.marker, hl⟩
  | markerMinus m _ ih =>
      obtain ⟨e, left, h, hl⟩ := ih hr.tail.tail rest
      exact ⟨_, left, h.markerMinus, hl⟩
  | postfixed _ ih =>
      obtain ⟨e, left, h, hl⟩ := ih hr rest
      exact ⟨e, left, h.postfixed, hl⟩
  | @suffix ts _ s ih =>
      obtain ⟨e, left, h, hl⟩ := ih (readable_append.1 hr).1 (.suffix s :: rest)
      exact ⟨e, left, by rw [List.append_assoc]; exact h, hl⟩
  | rooted _ ih =>
      obtain ⟨e, left, h, hl⟩ := ih hr rest
      obtain ⟨ss, hs⟩ := exists_suffixes left
      have hleft : afterSuffixes left = afterSuffixes rest := by
        obtain rfl | rfl := hl
        · rfl
        · exact afterSuffixes_of_settled (settled_afterSuffixes rest)
      rw [hs, hleft] at h
      exact ⟨_, afterSuffixes rest, h.suffixes (settled_afterSuffixes rest), rfl⟩
  | rootMarker m _ ih =>
      obtain ⟨e, left, h, hl⟩ := ih hr.tail.tail rest
      exact ⟨_, left, h.rootMarker, .inr hl⟩
  | rootMarkerMinus m _ ih =>
      obtain ⟨e, left, h, hl⟩ := ih hr.tail.tail.tail rest
      exact ⟨_, left, h.rootMarkerMinus, .inr hl⟩
  | rootMinus _ ih =>
      obtain ⟨e, left, h, hl⟩ := ih hr.tail.tail rest
      exact ⟨_, left, h.rootMinus, hl⟩
  | root _ ih =>
      obtain ⟨e, left, h, hl⟩ := ih hr.tail rest
      exact ⟨_, left, h.root, hl⟩
  | unit _ ih =>
      obtain ⟨e, left, h, hl⟩ := ih hr rest
      exact ⟨e, left, h.unit, .inl hl⟩
  | number n =>
      obtain ⟨x, hx⟩ := n.exists_value_iff.2 (hr.1 n List.mem_cons_self)
      exact ⟨_, rest, .number hx, rfl⟩
  | ans =>
      obtain ⟨x, hx⟩ := Option.isSome_iff_exists.1 (hr.2 List.mem_cons_self)
      exact ⟨_, rest, .ans hx, rfl⟩
  | blank => exact ⟨_, rest, .blank, rfl⟩
  | call f _ ih =>
      obtain ⟨e, _, h, rfl⟩ := ih (readable_append.1 hr.tail.tail).1 (.closing :: rest)
      exact ⟨_, rest, by simpa using h.call, rfl⟩
  | group _ ih =>
      obtain ⟨e, _, h, rfl⟩ := ih (readable_append.1 hr.tail).1 (.closing :: rest)
      exact ⟨_, rest, by simpa using h.group, rfl⟩

/-! ### The shape of trees -/

namespace Expr

/-- No operator joins anything in the expression. -/
def IsOperand : Expr → Prop
  | blank | literal _ => True
  | neg e | apply _ e => IsOperand e
  | binary .. | foreign .. | fraction .. => False

/-- Operands joined from the left by operators of a term. -/
inductive IsTerm : Expr → Prop where
  | operand {e : Expr} (h : IsOperand e) : IsTerm e
  | product {l r : Expr} (hl : IsTerm l) (op : Multiplicative) (hr : IsOperand r) :
      IsTerm (binary (.multiplicative op) l r)

/-- Terms joined from the left by operators of a sum. -/
inductive IsSum : Expr → Prop where
  | term {e : Expr} (h : IsTerm e) : IsSum e
  | sum {l r : Expr} (hl : IsSum l) (op : Additive) (hr : IsTerm r) :
      IsSum (binary (.additive op) l r)

theorem IsOperand.suffixes {e : Expr} (h : e.IsOperand) (ss : List Suffix) :
    (ss.foldl (fun e s => apply (.suffix s) e) e).IsOperand := by
  induction ss generalizing e with
  | nil => exact h
  | cons s ss ih => exact ih h

theorem IsOperand.isBinary {e : Expr} (h : e.IsOperand) : e.isBinary = false := by
  cases e with
  | binary op l r => exact absurd h id
  | foreign s l r => exact absurd h id
  | _ => rfl

/-- The shape of the tree of a phrase. -/
def HasShape (e : Expr) : Phrase → Prop
  | .sum => e.IsSum
  | .term => e.IsTerm
  | _ => e.IsOperand

end Expr

theorem Reads.shape (h : Reads ans p ts e rest) : e.HasShape p := by
  induction h with
  | term _ ih => exact .term ih
  | sum _ _ ihl ihr => exact .sum ihl _ ihr
  | signed _ ih => exact .operand ih
  | product _ _ ihl ihr => exact .product ihl _ ihr
  | minusLiteral => trivial
  | suffixes _ _ ih => exact Expr.IsOperand.suffixes ih _
  | number => trivial
  | ans => trivial
  | blank => trivial
  | plus _ ih | minus _ _ ih | prefixed _ ih | marker _ ih | markerMinus _ ih | postfixed _ ih
  | rootMarker _ ih | rootMarkerMinus _ ih | rootMinus _ ih | root _ ih | unit _ ih
  | call _ ih | group _ ih => exact ih

end PocketCalculator
