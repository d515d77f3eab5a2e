import Mathlib.Data.List.Nodup
import ByteMatch.Automaton.Matching
import ByteMatch.Loop

/-!
# ByteMatch.Proofs.Automaton.Matching

Finite maps between state numbers seen through `Matching.get?`.

* `Matching.get?_insert`, `Matching.get?_erase`, …: one lemma for each operation.
* `Matching.get?_rename`: the map after the states of its domain have moved.
* `Matching.size_eq`: the number of pairs, by a bound on the domain.
-/

namespace ByteMatch
namespace Matching

variable {m moved : Matching} {j k v n : Nat}

theorem get?_eq : m.get? k = (m.slots[k]?).getD none := by
  rw [get?, Array.getD_eq_getD_getElem?]

@[simp] theorem get?_empty : (∅ : Matching).get? k = none := by
  rw [get?_eq]
  rfl

@[simp] theorem get?_insert : (m.insert k v).get? j = if j = k then some v else m.get? j := by
  rw [get?_eq, get?_eq, insert, Array.getElem?_setIfInBounds]
  by_cases hjk : k = j
  · subst hjk
    rw [if_pos rfl, if_pos rfl, if_pos, Option.getD_some]
    rw [Array.size_append, Array.size_replicate]
    omega
  · rw [if_neg hjk, if_neg fun h => hjk h.symm, Array.getElem?_append]
    split
    · rfl
    · rename_i hj
      rw [Array.getElem?_eq_none (Nat.le_of_not_lt hj), Array.getElem?_replicate]
      split <;> rfl

@[simp] theorem get?_erase : (m.erase k).get? j = if j = k then none else m.get? j := by
  rw [get?_eq, get?_eq, erase, Array.getElem?_setIfInBounds]
  by_cases hjk : k = j
  · subst hjk
    rw [if_pos rfl, if_pos rfl]
    split <;> rfl
  · rw [if_neg hjk, if_neg fun h => hjk h.symm]

@[simp] theorem get?_mapValues {f : Nat → Nat} : (m.mapValues f).get? k = (m.get? k).map f := by
  rw [get?_eq, get?_eq, mapValues, Array.getElem?_map]
  cases m.slots[k]? <;> rfl

@[simp] theorem get?_filter {p : Nat → Nat → Bool} :
    (m.filter p).get? k = (m.get? k).filter (p k) := by
  rw [get?_eq, get?_eq, filter, Array.getElem?_mapIdx]
  cases m.slots[k]? <;> rfl

theorem contains_iff : m.contains k = true ↔ ∃ v, m.get? k = some v := Option.isSome_iff_exists

theorem apply_of_get? (h : m.get? k = some v) : m.apply k = v := by
  rw [apply, h, Option.getD_some]

theorem apply_of_none (h : m.get? k = none) : m.apply k = k := by
  rw [apply, h, Option.getD_none]

theorem apply_insert : (m.insert k v).apply j = if j = k then v else m.apply j := by
  rw [apply, get?_insert]
  split <;> rfl

theorem mem_toList : (k, v) ∈ m.toList ↔ m.get? k = some v := by
  rw [get?_eq, toList, List.mem_filterMap]
  constructor
  · rintro ⟨⟨o, i⟩, hmem, ho⟩
    rw [List.mem_zipIdx_iff_getElem?, Array.getElem?_toList] at hmem
    obtain ⟨w, rfl, heq⟩ := Option.map_eq_some_iff.1 ho
    obtain ⟨rfl, rfl⟩ := Prod.mk.inj heq
    rw [hmem, Option.getD_some]
  · intro h
    refine ⟨(some v, k), ?_, rfl⟩
    rw [List.mem_zipIdx_iff_getElem?, Array.getElem?_toList]
    cases hk : m.slots[k]? with
    | none => simp [hk] at h
    | some o => rw [hk, Option.getD_some] at h; rw [h]

theorem nodup_keys : (m.toList.map (·.1)).Nodup := by
  have hidx : m.toList.map (·.1) = m.slots.toList.zipIdx.filterMap fun e => e.1.map fun _ => e.2 := by
    rw [toList, List.map_filterMap]
    congr 1
    funext e
    cases h : e.1 <;> simp [h]
  rw [hidx]
  have hsub : (m.slots.toList.zipIdx.filterMap fun e => e.1.map fun _ => e.2).Sublist
      (m.slots.toList.zipIdx.map (·.2)) := by
    rw [← List.filterMap_eq_map]
    generalize m.slots.toList.zipIdx = l
    induction l with
    | nil => exact .slnil
    | cons e l ih =>
      obtain ⟨v, k⟩ := e
      cases v with
      | none => exact ih.cons _
      | some v => exact ih.cons_cons _
  refine hsub.nodup ?_
  rw [List.zipIdx_map_snd]
  exact List.nodup_range'

/-! ## Renaming -/

/-- Where a number is while those of `rest` are still to be renamed. -/
def place (moved : Matching) (rest : List (Nat × Nat)) (k : Nat) : Nat :=
  if k ∈ rest.map (·.1) then k else moved.apply k

theorem place_of_mem {rest : List (Nat × Nat)} (h : k ∈ rest.map (·.1)) : moved.place rest k = k :=
  if_pos h

theorem place_of_not_mem {rest : List (Nat × Nat)} (h : k ∉ rest.map (·.1)) :
    moved.place rest k = moved.apply k := if_neg h

theorem place_cons {rest : List (Nat × Nat)} (h : k ≠ j) :
    moved.place ((j, v) :: rest) k = moved.place rest k := by
  have hmem : k ∈ ((j, v) :: rest).map (·.1) ↔ k ∈ rest.map (·.1) := by
    rw [List.map_cons, List.mem_cons, or_iff_right h]
  simp only [place, hmem]

/-- The map while the numbers of `rest` are still to be renamed. -/
structure Renaming (m moved m' : Matching) (rest : List (Nat × Nat)) : Prop where
  nodup : (rest.map (·.1)).Nodup
  moves : ∀ k v, (k, v) ∈ rest → moved.get? k = some v
  get? : ∀ j v, m'.get? j = some v ↔ ∃ k, m.get? k = some v ∧ moved.place rest k = j

theorem Renaming.start : Renaming m moved m moved.toList := by
  refine ⟨nodup_keys, fun k v he => mem_toList.1 he, fun j v => ?_⟩
  have hplace : ∀ k, moved.place moved.toList k = k := by
    intro k
    by_cases hk : k ∈ moved.toList.map (·.1)
    · exact place_of_mem hk
    · rw [place_of_not_mem hk]
      refine apply_of_none (Option.eq_none_iff_forall_ne_some.2 fun w hw => hk ?_)
      exact List.mem_map.2 ⟨(k, w), mem_toList.2 hw, rfl⟩
  simp only [hplace, exists_eq_right]

section Rename

variable (hkey : ∀ k v, moved.get? k = some v → n ≤ k ∧ v < n)
include hkey

theorem place_ne_key {rest : List (Nat × Nat)} {old new : Nat} (hold : moved.get? old = some new)
    (hk : k ≠ old) : moved.place rest k ≠ old := by
  by_cases hmem : k ∈ rest.map (·.1)
  · rwa [place_of_mem hmem]
  · rw [place_of_not_mem hmem]
    cases hget : moved.get? k with
    | none => rwa [apply_of_none hget]
    | some w =>
      have := (hkey old new hold).1
      have := (hkey k w hget).2
      rw [apply_of_get? hget]
      omega

variable (hinj : ∀ k k', m.contains k = true → m.contains k' = true →
  moved.apply k = moved.apply k' → k = k')
include hinj

theorem Renaming.place_ne_value {rest : List (Nat × Nat)} {m' : Matching} {old new : Nat}
    (h : Renaming m moved m' ((old, new) :: rest)) (hk : m.contains k = true)
    (hold : m.contains old = true) (hne : k ≠ old) : moved.place rest k ≠ new := by
  have hmove := h.moves old new (by simp)
  by_cases hmem : k ∈ rest.map (·.1)
  · obtain ⟨⟨k', w⟩, he, rfl⟩ := List.mem_map.1 hmem
    have := (hkey old new hmove).2
    have := (hkey k' w (h.moves k' w (List.mem_cons_of_mem _ he))).1
    rw [place_of_mem hmem]
    omega
  · rw [place_of_not_mem hmem, ← apply_of_get? hmove]
    exact fun heq => hne (hinj k old hk hold heq)

section Step

variable {rest : List (Nat × Nat)} {m' : Matching} {old new : Nat}
  (h : Renaming m moved m' ((old, new) :: rest))
include h

omit hinj in
/-- A number that is still to be renamed has the partner that it had at first. -/
theorem Renaming.get?_old : m'.get? old = m.get? old := by
  refine Option.ext fun w => ?_
  rw [h.get?]
  constructor
  · rintro ⟨k, hk, hplace⟩
    by_cases hko : k = old
    · rwa [← hko]
    · rw [place_cons hko] at hplace
      exact absurd hplace (place_ne_key hkey (h.moves old new (by simp)) hko)
  · exact fun hw => ⟨old, hw, place_of_mem (by simp)⟩

omit hkey hinj in
theorem Renaming.place_old : moved.place rest old = new := by
  have hnodup : old ∉ rest.map (·.1) := (List.nodup_cons.1 h.nodup).1
  rw [place_of_not_mem hnodup, apply_of_get? (h.moves old new (by simp))]

theorem Renaming.get?_moved {w : Nat} (hw : m.get? old = some w) (j v : Nat) :
    ((m'.erase old).insert new w).get? j = some v ↔
      ∃ k, m.get? k = some v ∧ moved.place rest k = j := by
  have hmove := h.moves old new (by simp)
  have hold := contains_iff.2 ⟨w, hw⟩
  simp only [get?_insert, get?_erase]
  by_cases hj : j = new
  · rw [if_pos hj]
    constructor
    · exact fun hv => ⟨old, by rw [hw, ← hv], by rw [h.place_old, hj]⟩
    · rintro ⟨k, hk, hplace⟩
      by_cases hko : k = old
      · rw [← hw, ← hk, hko]
      · exact absurd (hplace.trans hj) (h.place_ne_value hkey hinj (contains_iff.2 ⟨v, hk⟩) hold hko)
  rw [if_neg hj]
  by_cases hjo : j = old
  · rw [if_pos hjo]
    refine ⟨fun h => (by cases h), ?_⟩
    rintro ⟨k, -, hplace⟩
    by_cases hko : k = old
    · rw [hko, h.place_old] at hplace
      exact absurd hplace.symm hj
    · exact absurd (hplace.trans hjo) (place_ne_key hkey hmove hko)
  · rw [if_neg hjo, h.get?]
    refine exists_congr fun k => and_congr_right fun hk => ?_
    by_cases hko : k = old
    · subst hko
      rw [place_of_mem (by simp), h.place_old]
      exact ⟨fun h => absurd h.symm hjo, fun h => absurd h.symm hj⟩
    · rw [place_cons hko]

theorem Renaming.step : Renaming m moved (match m'.get? old with
    | some v => (m'.erase old).insert new v
    | none => m') rest := by
  refine ⟨(List.nodup_cons.1 h.nodup).2, fun k v he => h.moves k v (List.mem_cons_of_mem _ he), ?_⟩
  rw [h.get?_old hkey]
  cases hget : m.get? old with
  | none =>
    -- the number has no partner
    intro j v
    rw [h.get?]
    refine exists_congr fun k => and_congr_right fun hk => ?_
    rw [place_cons]
    rintro rfl
    rw [hk] at hget
    cases hget
  | some w => exact h.get?_moved hkey hinj hget

end Step

theorem get?_rename :
    (m.rename moved).get? j = some v ↔ ∃ k, m.get? k = some v ∧ moved.apply k = j := by
  have hrename : m.rename moved = moved.toList.foldl (fun m' e => match m'.get? e.1 with
      | some v => (m'.erase e.1).insert e.2 v
      | none => m') m := rfl
  have hend := Loop.foldl_spec (fun m' rest => Renaming m moved m' rest)
    (fun _ _ _ h => h.step hkey hinj) Renaming.start
  rw [hrename, hend.get?]
  simp [place]

end Rename

/-! ## Size -/

/-- The number of numbers below `n` that satisfy `p` does not depend on `n` if all of them are
below it. -/
theorem countP_range_eq {p : Nat → Bool} {n n' : Nat} (h : ∀ k, p k = true → k < n)
    (h' : ∀ k, p k = true → k < n') : (List.range n).countP p = (List.range n').countP p := by
  rw [List.countP_eq_length_filter, List.countP_eq_length_filter]
  refine List.Perm.length_eq ?_
  rw [List.perm_ext_iff_of_nodup (List.nodup_range.filter _) (List.nodup_range.filter _)]
  intro k
  simp only [List.mem_filter, List.mem_range]
  exact ⟨fun hk => ⟨h' k hk.2, hk.2⟩, fun hk => ⟨h k hk.2, hk.2⟩⟩

theorem size_eq (h : ∀ k v, m.get? k = some v → k < n) : m.size = (List.range n).countP m.contains := by
  have hslots : m.size = (List.range m.slots.size).countP m.contains := by
    have hmap : m.slots.toList = (List.range m.slots.size).map m.get? := by
      refine List.ext_getElem (by simp) fun i hi hi' => ?_
      simp only [Array.length_toList] at hi
      rw [Array.getElem_toList, List.getElem_map, List.getElem_range, get?_eq,
        Array.getElem?_eq_getElem hi, Option.getD_some]
    rw [size, ← Array.countP_toList, hmap, List.countP_map]
    rfl
  rw [hslots]
  refine countP_range_eq (fun k hk => ?_) fun k hk => ?_
  · obtain ⟨v, hv⟩ := contains_iff.1 hk
    by_contra hlt
    rw [get?_eq, Array.getElem?_eq_none (Nat.le_of_not_lt hlt)] at hv
    cases hv
  · obtain ⟨v, hv⟩ := contains_iff.1 hk
    exact h k v hv

end Matching
end ByteMatch
