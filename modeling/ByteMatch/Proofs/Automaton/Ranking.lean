import ByteMatch.Automaton.Merge
import ByteMatch.Proofs.Automaton.Renumbering

/-!
# ByteMatch.Proofs.Automaton.Ranking

Numbering the states of an automaton breadth first.

* `Automaton.Ranked`: the order found so far, and the place of each state in it.
* `Automaton.RankLoop`, `Automaton.breadthFirst_spec`: the loop ends with all states that are reached.
* `Automaton.renumbered_spec`: the result is a renumbering, in which the root comes first.
* `Automaton.renumbered_eq_of_iso`: automata that are the same but for the numbers of their states are
  renumbered in the same way.
-/

namespace ByteMatch
namespace Automaton

variable {a b : Automaton} {root q d i k : Nat} {n n' : Ranking}

/-- An order without repetition, which starts with the root, and the places of its states. -/
structure Ranked (a : Automaton) (root : Nat) (n : Ranking) : Prop where
  size : n.place.size = a.size
  nodup : n.order.toList.Nodup
  reached : ∀ q, q ∈ n.order → a.Reaches root q
  first : n.order[0]? = some root
  place : ∀ q k, n.place.getD q none = some k ↔ n.order[k]? = some q

/-- The place of a state in the order, which is its new number. -/
def Ranking.placeOf (n : Ranking) (q : Nat) : Nat := (n.place.getD q none).getD 0

/-- The state at a place. -/
def Ranking.stateAt (n : Ranking) (k : Nat) : Nat := n.order.getD k 0

theorem stateAt_of_getElem? (h : n.order[k]? = some q) : n.stateAt k = q := by
  rw [Ranking.stateAt, Array.getD_eq_getD_getElem?, h, Option.getD_some]

namespace Ranked

theorem start (hroot : root < a.size) : Ranked a root (a.rankStart root) := by
  have hplace : ∀ q, (a.rankStart root).place.getD q none = if q = root then some 0 else none := by
    intro q
    rw [rankStart, Array.getD_eq_getD_getElem?, Array.getElem?_setIfInBounds,
      Array.getElem?_replicate]
    by_cases hq : q = root
    · rw [if_pos hq.symm, if_pos hq, if_pos (by simpa using hroot), Option.getD_some]
    · rw [if_neg (Ne.symm hq), if_neg hq]
      split <;> rfl
  refine ⟨by simp [rankStart], by simp [rankStart], ?_, rfl, fun q k => ?_⟩
  · intro q hq
    obtain rfl : q = root := by simpa [rankStart] using hq
    exact .refl
  · rw [hplace]
    cases k with
    | zero =>
      by_cases hq : q = root
      · simp [hq, rankStart]
      · simp [hq, rankStart, Ne.symm hq]
    | succ k =>
      by_cases hq : q = root <;> simp [hq, rankStart]

variable (h : Ranked a root n)
include h

theorem placeOf_eq (hk : n.order[k]? = some q) : n.placeOf q = k := by
  rw [Ranking.placeOf, (h.place q k).2 hk, Option.getD_some]

theorem getElem?_placeOf (hq : q ∈ n.order) : n.order[n.placeOf q]? = some q := by
  obtain ⟨k, hk⟩ := Array.mem_iff_getElem?.1 hq
  rw [h.placeOf_eq hk, hk]

theorem mem_order_iff : q ∈ n.order ↔ n.place.getD q none ≠ none := by
  rw [Array.mem_iff_getElem?, Option.ne_none_iff_exists']
  exact exists_congr fun k => (h.place q k).symm

theorem size_le (htarget : ∀ p c q, a.Edge p c q → q < a.size) (hroot : root < a.size) :
    n.order.size ≤ a.size := by
  rw [← Array.length_toList]
  exact length_le_of_nodup h.nodup fun q hq => (h.reached q (by simpa using hq)).lt htarget hroot

/-- The places of the states after one more has been put at the end. -/
theorem place_push (hlt : q < a.size) (hmem : q ∉ n.order) (p k : Nat) :
    (n.place.setIfInBounds q (some n.order.size)).getD p none = some k ↔
      (n.order.push q)[k]? = some p := by
  rw [Array.getD_eq_getD_getElem?, Array.getElem?_setIfInBounds, Array.getElem?_push]
  by_cases hp : q = p
  · subst hp
    rw [if_pos rfl, if_pos (by rw [h.size]; exact hlt), Option.getD_some]
    constructor
    · intro hk
      rw [if_pos (Option.some.inj hk).symm]
    · intro hk
      split at hk
      · rename_i hlast
        rw [hlast]
      · exact absurd (Array.mem_of_getElem? hk) hmem
  · rw [if_neg hp, ← Array.getD_eq_getD_getElem?, h.place]
    split
    · rename_i hlast
      rw [hlast, Array.getElem?_eq_none (Nat.le_refl _)]
      simp [hp]
    · rfl

omit h in
theorem getElem?_order_push {j x : Nat} (hj : n.order[j]? = some x) :
    (n.order.push q)[j]? = some x := by
  have hlt := (Array.getElem?_eq_some_iff.1 hj).1
  rw [Array.getElem?_push, if_neg (Nat.ne_of_lt hlt), hj]

theorem push (hq : a.Reaches root q) (hlt : q < a.size) (hmem : q ∉ n.order) :
    Ranked a root ⟨n.order.push q, n.place.setIfInBounds q (some n.order.size)⟩ where
  size := by rw [Array.size_setIfInBounds, h.size]
  nodup := by
    rw [Array.toList_push, List.nodup_append]
    refine ⟨h.nodup, by simp, ?_⟩
    rintro x hx y hy rfl
    rw [List.mem_singleton] at hy
    exact hmem (by simpa [hy] using hx)
  reached x hx := by
    rcases Array.mem_push.1 hx with hx | rfl
    · exact h.reached x hx
    · exact hq
  first := getElem?_order_push h.first
  place := h.place_push hlt hmem

theorem add (hq : a.Reaches root q) (hlt : q < a.size) : Ranked a root (n.add q) ∧
    q ∈ (n.add q).order ∧ ∀ k x : Nat, n.order[k]? = some x → (n.add q).order[k]? = some x := by
  unfold Ranking.add
  cases hplace : n.place.getD q none with
  | none =>
    have hmem : q ∉ n.order := fun hmem => h.mem_order_iff.1 hmem hplace
    simp only [Option.isNone_none, if_true]
    exact ⟨h.push hq hlt hmem, by simp, fun k x => getElem?_order_push⟩
  | some k =>
    have hmem : q ∈ n.order := h.mem_order_iff.2 (by simp [hplace])
    exact ⟨h, hmem, fun k x hk => hk⟩

theorem addAll {ds : List Nat} (hds : ∀ d ∈ ds, a.Reaches root d ∧ d < a.size) :
    Ranked a root (ds.foldl Ranking.add n) ∧ (∀ d ∈ ds, d ∈ (ds.foldl Ranking.add n).order) ∧
      ∀ k x : Nat, n.order[k]? = some x → (ds.foldl Ranking.add n).order[k]? = some x := by
  induction ds generalizing n with
  | nil => exact ⟨h, by simp, fun k x hk => hk⟩
  | cons d ds ih =>
    obtain ⟨hd, hlt⟩ := hds d (by simp)
    obtain ⟨hadd, hmem, hkept⟩ := h.add hd hlt
    obtain ⟨hrest, hall, hkept'⟩ := ih hadd fun d hd => hds d (List.mem_cons_of_mem _ hd)
    refine ⟨hrest, fun x hx => ?_, fun k x hk => hkept' k x (hkept k x hk)⟩
    rcases List.mem_cons.1 hx with rfl | hx
    · obtain ⟨k, hk⟩ := Array.mem_iff_getElem?.1 hmem
      exact Array.mem_iff_getElem?.2 ⟨k, hkept' k x hk⟩
    · exact hall x hx

end Ranked

/-- The children of the first `i` states have places. -/
def Scanned (a : Automaton) (n : Ranking) (i : Nat) : Prop :=
  ∀ j x : Nat, j < i → n.order[j]? = some x → ∀ d, a.Child x d → d ∈ n.order

theorem Scanned.of_mem (h : Scanned a n i) (hi : n.order.size ≤ i) (hq : q ∈ n.order)
    (hd : a.Child q d) : d ∈ n.order := by
  obtain ⟨j, hj⟩ := Array.mem_iff_getElem?.1 hq
  exact h j q (Nat.lt_of_lt_of_le (Array.getElem?_eq_some_iff.1 hj).1 hi) hj d hd

/-- A round keeps the places there are and gives the children of one more state theirs. -/
theorem Scanned.next (h : Scanned a n i) (hi : i < n.order.size)
    (hkept : ∀ k x : Nat, n.order[k]? = some x → n'.order[k]? = some x)
    (hall : ∀ d, a.Child n.order[i] d → d ∈ n'.order) : Scanned a n' (i + 1) := by
  intro j x hj hjx d hchild
  have hold := Array.getElem?_eq_getElem (show j < n.order.size by omega)
  have hx : x = n.order[j] := Option.some.inj (hjx.symm.trans (hkept j _ hold))
  rw [hx] at hchild
  rcases Nat.lt_or_eq_of_le (Nat.lt_succ_iff.1 hj) with hj | rfl
  · obtain ⟨k, hk⟩ := Array.mem_iff_getElem?.1 (h j _ hj hold d hchild)
    exact Array.mem_of_getElem? (hkept k d hk)
  · exact hall d hchild

/-- The loop that gives the states their places, in which the children of the first `s.1` ones have got
theirs. -/
structure RankLoop (a : Automaton) (root m : Nat) (s : Nat × Ranking) : Prop where
  variant : m + s.1 = a.size
  le : s.1 ≤ s.2.order.size
  ranked : Ranked a root s.2
  scanned : Scanned a s.2 s.1

/-- The children of all states with places have places. -/
structure RankEnd (a : Automaton) (root : Nat) (s : Nat × Ranking) : Prop where
  ranked : Ranked a root s.2
  closed : ∀ x, x ∈ s.2.order → ∀ d, a.Child x d → d ∈ s.2.order

section BreadthFirst

variable (htarget : ∀ p c q, a.Edge p c q → q < a.size) (hroot : root < a.size)
include htarget hroot

omit htarget in
theorem RankLoop.start : RankLoop a root a.size (0, a.rankStart root) where
  variant := rfl
  le := Nat.zero_le _
  ranked := .start hroot
  scanned j _ hj := absurd hj (Nat.not_lt_zero j)

theorem RankLoop.step {m : Nat} {s : Nat × Ranking} (h : RankLoop a root m s) :
    Loop.Advances a.rankStep (RankLoop a root) (RankEnd a root) m s := by
  obtain ⟨i, n⟩ := s
  obtain ⟨hm, hi, hrank, hscan⟩ := h
  simp only at hm hi hrank hscan
  rw [Loop.Advances, rankStep]
  by_cases hlt : i < n.order.size
  · rw [dif_pos hlt]
    have hx : a.Reaches root n.order[i] := hrank.reached _ (Array.getElem_mem hlt)
    have hds : ∀ d ∈ (a.state n.order[i]).transitions.dests, a.Reaches root d ∧ d < a.size := by
      intro d hd
      have hchild := mem_dests_iff.1 hd
      exact ⟨hx.tail hchild, htarget _ _ _ hchild.choose_spec⟩
    obtain ⟨hrank', hall, hkept⟩ := hrank.addAll hds
    have hsize := hrank.size_le htarget hroot
    refine .inr ⟨m - 1, _, by omega, rfl, by simp only; omega, ?_, hrank',
      hscan.next hlt hkept fun d hd => hall d (mem_dests_iff.2 hd)⟩
    exact (Array.getElem?_eq_some_iff.1 (hkept i _ (Array.getElem?_eq_getElem hlt))).1
  · rw [dif_neg hlt]
    exact .inl ⟨_, rfl, hrank, fun x hx d => hscan.of_mem (Nat.le_of_not_lt hlt) hx⟩

/-- The loop ends with all states that are reached. -/
theorem breadthFirst_spec :
    (∃ r, Loop.Ends a.rankStep (0, a.rankStart root) r ∧ a.breadthFirst root = r.2) ∧
      Ranked a root (a.breadthFirst root) ∧ ∀ q, q ∈ (a.breadthFirst root).order ↔ a.Reaches root q := by
  obtain ⟨hends, hrank, hclosed⟩ := Loop.ends_run (fun _ _ h => h.step htarget hroot)
    (RankLoop.start hroot) (Nat.lt_succ_self _)
  refine ⟨⟨_, hends, rfl⟩, hrank, fun q => ⟨hrank.reached q, fun hq => ?_⟩⟩
  induction hq with
  | refl => exact Array.mem_of_getElem? hrank.first
  | tail _ hchild ih => exact hclosed _ ih _ hchild

theorem renumbered_spec : ∃ σ τ, Renumbering (a.Reaches root) a (a.renumbered root) σ τ ∧
    σ root = 0 := by
  obtain ⟨-, hrank, hreach⟩ := breadthFirst_spec htarget hroot
  have hplace : ∀ q, a.Reaches root q →
      (a.breadthFirst root).order[(a.breadthFirst root).placeOf q]? = some q :=
    fun q hq => hrank.getElem?_placeOf ((hreach q).2 hq)
  have hsize : (a.renumbered root).size = (a.breadthFirst root).order.size := by
    rw [renumbered, Array.size_map]
  have hget : ∀ k, k < (a.renumbered root).size →
      (a.breadthFirst root).order[k]? = some ((a.breadthFirst root).stateAt k) := by
    intro k hk
    rw [hsize] at hk
    rw [Array.getElem?_eq_getElem hk, stateAt_of_getElem? (Array.getElem?_eq_getElem hk)]
  refine ⟨(a.breadthFirst root).placeOf, (a.breadthFirst root).stateAt, ⟨fun q hq => ?_, fun k hk => ?_,
    fun q hq => stateAt_of_getElem? (hplace q hq), fun k hk => hrank.placeOf_eq (hget k hk),
    fun q hq => ?_, fun p c q hp he => hp.tail ⟨c, he⟩⟩, hrank.placeOf_eq hrank.first⟩
  · rw [hsize]
    exact (Array.getElem?_eq_some_iff.1 (hplace q hq)).1
  · exact hrank.reached _ (Array.mem_of_getElem? (hget k hk))
  · rw [renumbered, state_eq_getD, Array.getElem?_map, hplace q hq]
    rfl

end BreadthFirst

/-! ## The order does not depend on the old numbers -/

section Iso

variable {ψ : Nat → Nat} {r : Nat}

/-- Orders of two automata whose states correspond. -/
structure SameRanking (a b : Automaton) (ψ : Nat → Nat) (n n' : Ranking) : Prop where
  size : n.place.size = a.size
  size' : n'.place.size = b.size
  order : n'.order = n.order.map ψ
  place : ∀ q, q < a.size → n'.place.getD (ψ q) none = n.place.getD q none
  lt : ∀ q, q ∈ n.order → q < a.size

variable (hlt : ∀ q, q < a.size → ψ q < b.size)
  (hinj : ∀ p q, p < a.size → q < a.size → ψ p = ψ q → p = q)
include hlt hinj

theorem SameRanking.add {n n' : Ranking} (h : SameRanking a b ψ n n') (hq : q < a.size) :
    SameRanking a b ψ (n.add q) (n'.add (ψ q)) := by
  unfold Ranking.add
  rw [h.place q hq]
  split
  · refine ⟨by rw [Array.size_setIfInBounds, h.size], by rw [Array.size_setIfInBounds, h.size'],
      by simp [h.order], fun x hx => ?_, fun x hx => ?_⟩
    · simp only [Array.getD_eq_getD_getElem?, Array.getElem?_setIfInBounds]
      by_cases hqx : q = x
      · subst hqx
        simp [h.size, h.size', hq, hlt q hq, h.order]
      · have hne : ψ q ≠ ψ x := fun heq => hqx (hinj q x hq hx heq)
        have := h.place x hx
        rw [Array.getD_eq_getD_getElem?, Array.getD_eq_getD_getElem?] at this
        rw [if_neg hne, if_neg hqx, this]
    · rcases Array.mem_push.1 hx with hx | rfl
      · exact h.lt x hx
      · exact hq
  · exact h

theorem SameRanking.addAll {n n' : Ranking} {ds : List Nat} (h : SameRanking a b ψ n n')
    (hds : ∀ d ∈ ds, d < a.size) :
    SameRanking a b ψ (ds.foldl Ranking.add n) ((ds.map ψ).foldl Ranking.add n') := by
  induction ds generalizing n n' with
  | nil => exact h
  | cons d ds ih =>
    exact ih (h.add hlt hinj (hds d (by simp))) fun d hd => hds d (List.mem_cons_of_mem _ hd)

/-- The loops that number the states of both automata have got to corresponding states. -/
structure SameStep (a b : Automaton) (ψ : Nat → Nat) (s s' : Nat × Ranking) : Prop where
  index : s.1 = s'.1
  ranking : SameRanking a b ψ s.2 s'.2

theorem SameStep.start (hroot : root < a.size) :
    SameStep a b ψ (0, a.rankStart root) (0, b.rankStart (ψ root)) := by
  refine ⟨rfl, by simp [rankStart], by simp [rankStart], by simp [rankStart], fun q hq => ?_,
    fun q hq => ?_⟩
  · simp only [rankStart, Array.getD_eq_getD_getElem?, Array.getElem?_setIfInBounds,
      Array.getElem?_replicate, Array.size_replicate, hlt q hq, hq, if_true]
    by_cases hqr : root = q
    · subst hqr
      simp [hlt _ hroot, hroot]
    · have hne : ψ root ≠ ψ q := fun heq => hqr (hinj root q hroot hq heq)
      rw [if_neg hne, if_neg hqr]
  · obtain rfl : q = root := by simpa [rankStart] using hq
    exact hroot

variable (htarget : ∀ p c q, a.Edge p c q → q < a.size)
  (hstate : ∀ q, q < a.size → b.state (ψ q) = (a.state q).mapDest ψ)
include htarget hstate

theorem SameStep.step {s s' : Nat × Ranking} (h : SameStep a b ψ s s') :
    (∃ r r', a.rankStep s = .done r ∧ b.rankStep s' = .done r' ∧ SameStep a b ψ r r') ∨
      ∃ t t', a.rankStep s = .yield t ∧ b.rankStep s' = .yield t' ∧ SameStep a b ψ t t' := by
  obtain ⟨i, n⟩ := s
  obtain ⟨i', n'⟩ := s'
  obtain ⟨heq, hsame⟩ := h
  simp only at heq hsame
  subst heq
  have hsize : n'.order.size = n.order.size := by rw [hsame.order, Array.size_map]
  rw [rankStep, rankStep]
  by_cases hi : i < n.order.size
  · have hi' : i < n'.order.size := by rwa [hsize]
    have hq := hsame.lt _ (Array.getElem_mem hi)
    have hget : n'.order[i] = ψ n.order[i] := by
      simp only [hsame.order, Array.getElem_map]
    have hdests : (b.state n'.order[i]).transitions.dests =
        (a.state n.order[i]).transitions.dests.map ψ := by
      rw [hget, hstate _ hq]
      simp [State.mapDest, Transitions.mapDest, Transitions.dests]
    rw [dif_pos hi, dif_pos hi', hdests]
    refine .inr ⟨_, _, rfl, rfl, rfl, hsame.addAll hlt hinj fun d hd => ?_⟩
    exact htarget _ _ _ (mem_dests_iff.1 hd).choose_spec
  · rw [dif_neg hi, dif_neg (by rwa [hsize])]
    exact .inl ⟨_, _, rfl, rfl, rfl, hsame⟩

variable (hroot : root < a.size)
include hroot

/-- The loops that number the states of both automata go through corresponding states. -/
theorem sameRanking_breadthFirst (htarget' : ∀ p c q, b.Edge p c q → q < b.size) :
    SameRanking a b ψ (a.breadthFirst root) (b.breadthFirst (ψ root)) := by
  obtain ⟨⟨r, hends, hr⟩, -⟩ := breadthFirst_spec htarget hroot
  obtain ⟨⟨r', hends', hr'⟩, -⟩ := breadthFirst_spec htarget' (hlt root hroot)
  obtain ⟨r₂, hends₂, -, hsame⟩ := hends.simulation
    (fun _ _ h => h.step hlt hinj htarget hstate) (SameStep.start hlt hinj hroot)
  rw [hr, hr', hends'.unique hends₂]
  exact hsame

/-- Automata that are the same but for the numbers of their states are renumbered in the same way. -/
theorem renumbered_eq_of_iso (htarget' : ∀ p c q, b.Edge p c q → q < b.size) :
    b.renumbered (ψ root) = a.renumbered root := by
  have hsame := sameRanking_breadthFirst hlt hinj htarget hstate hroot htarget'
  rw [renumbered, renumbered, hsame.order]
  simp only [Array.map_map]
  refine Array.map_congr_left fun q hq => ?_
  have hqlt := hsame.lt q hq
  rw [Function.comp_apply, hstate q hqlt, State.mapDest, State.mapDest, State.mapDest,
    Transitions.mapDest_mapDest]
  congr 1
  refine Transitions.mapDest_congr fun c d he => ?_
  rw [Function.comp_apply, hsame.place d (htarget q c d he)]

end Iso
end Automaton
end ByteMatch
