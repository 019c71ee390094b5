import PocketCalculator.Json
import Mathlib.Data.List.Nodup

/-! # Members laid over others

Members with distinct keys, laid over others, decide what their keys hold (`lookup_overlay`).  The
keys that were there keep their places, and the new ones follow in their own order
(`keys_overlay`); so members laid over nothing are what they were (`overlay_nil`). -/

namespace PocketCalculator.Json

/-- The keys of an object, in order. -/
def keys (members : Members) : List String :=
  members.map Prod.fst

variable {base new : Members}

theorem overlay_cons (base : Members) (m : String × Json) (new : Members) :
    overlay base (m :: new) = overlay (put base m.1 m.2) new :=
  rfl

theorem lookup_eq_none_iff {k : String} : new.lookup k = none ↔ k ∉ keys new := by
  induction new with
  | nil => simp [keys]
  | cons m new ih =>
      obtain ⟨l, w⟩ := m
      rw [keys, List.map_cons, List.mem_cons, not_or, List.lookup_cons]
      by_cases hk : k = l
      · simp [hk]
      · have hne : (k == l) = false := by simpa using hk
        simp [hk, hne, ih, keys]

theorem keys_put_of_not_mem {key : String} (v : Json) (h : key ∉ keys base) :
    keys (put base key v) = keys base ++ [key] :=
  (keys_put base key v).trans (if_neg h)

theorem keys_put_of_mem {key : String} (v : Json) (h : key ∈ keys base) :
    keys (put base key v) = keys base :=
  (keys_put base key v).trans (if_pos h)

/-- What a key holds is decided by the members laid over the others, if they have it. -/
theorem lookup_overlay (h : (keys new).Nodup) (k : String) :
    (overlay base new).lookup k = (new.lookup k).or (base.lookup k) := by
  induction new generalizing base with
  | nil => rfl
  | cons m new ih =>
      obtain ⟨l, w⟩ := m
      obtain ⟨hl, hnew⟩ := List.nodup_cons.1 h
      rw [overlay_cons, ih hnew, lookup_put, List.lookup_cons]
      by_cases hk : k = l
      · subst hk
        rw [lookup_eq_none_iff.2 hl]
        simp
      · have hne : (k == l) = false := by simpa using hk
        rw [if_neg hk, hne]

/-- Keys keep their places, and new ones follow in their own order. -/
theorem keys_overlay (h : (keys new).Nodup) :
    keys (overlay base new) = keys base ++ (keys new).filter (· ∉ keys base) := by
  induction new generalizing base with
  | nil => simp [overlay, keys]
  | cons m new ih =>
      obtain ⟨l, w⟩ := m
      obtain ⟨hl, hnew⟩ := List.nodup_cons.1 h
      have hkeys : keys ((l, w) :: new) = l :: keys new := rfl
      rw [overlay_cons, ih hnew, hkeys]
      by_cases hmem : l ∈ keys base
      · rw [keys_put_of_mem w hmem, List.filter_cons_of_neg (by simpa using hmem)]
      · rw [keys_put_of_not_mem w hmem, List.filter_cons_of_pos (by simpa using hmem),
          List.append_assoc, List.singleton_append]
        congr 2
        refine List.filter_congr fun k hk => ?_
        have hne : k ≠ l := fun e => hl (e ▸ hk)
        simp [hne]

theorem nodup_keys_overlay (hbase : (keys base).Nodup) : (keys (overlay base new)).Nodup := by
  induction new generalizing base with
  | nil => exact hbase
  | cons m new ih =>
      refine ih ?_
      by_cases hmem : m.1 ∈ keys base
      · rwa [keys_put_of_mem m.2 hmem]
      · rw [keys_put_of_not_mem m.2 hmem]
        exact List.concat_eq_append ▸ hbase.concat hmem

theorem put_of_not_mem {key : String} (v : Json) (h : key ∉ keys base) :
    put base key v = base ++ [(key, v)] := by
  induction base with
  | nil => rfl
  | cons m base ih =>
      obtain ⟨l, w⟩ := m
      have hkeys : keys ((l, w) :: base) = l :: keys base := rfl
      rw [hkeys, List.mem_cons, not_or] at h
      rw [put, if_neg fun e => h.1 e.symm, ih h.2, List.cons_append]

theorem overlay_of_nodup (h : (keys (base ++ new)).Nodup) : overlay base new = base ++ new := by
  induction new generalizing base with
  | nil => exact (List.append_nil base).symm
  | cons m new ih =>
      have hmem : m.1 ∉ keys base := by
        rw [keys, List.map_append] at h
        intro hm
        exact List.disjoint_of_nodup_append h hm List.mem_cons_self
      rw [overlay_cons, put_of_not_mem m.2 hmem, ih]
      · rw [List.append_assoc, List.singleton_append]
      · rwa [List.append_assoc, List.singleton_append]

/-- Members with distinct keys are laid over nothing as they are. -/
theorem overlay_nil (h : (keys new).Nodup) : overlay [] new = new :=
  overlay_of_nodup h

end PocketCalculator.Json
