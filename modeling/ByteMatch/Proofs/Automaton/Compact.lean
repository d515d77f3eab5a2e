import Mathlib.Data.Set.Function
import ByteMatch.Automaton.Compact
import ByteMatch.Proofs.Automaton.Matching
import ByteMatch.Proofs.Automaton.Renumbering

/-!
# ByteMatch.Proofs.Automaton.Compact

Removing the holes of a tree.

* `Automaton.Moves`: what holds while the holes are filled. The states that are not holes are all
  still there, those that have moved at their new places.
* `Automaton.compact_spec`: compacting renumbers the states that are not holes.
* `Automaton.compact_renumbers`: how many there are, which of them move, and what is accepted.
-/

namespace ByteMatch
namespace Automaton

variable {a b : Automaton} {p q : Nat} {moved : Matching}

theorem state_pop_of_hole (h : (a.state (a.size - 1)).isHole = true) : state a.pop q = a.state q := by
  rw [state_eq_getD, state_eq_getD, Array.getElem?_pop]
  split
  · rfl
  · rename_i hq
    by_cases hqa : q < a.size
    · have hlast : q = a.size - 1 := by omega
      rw [State.isHole_iff] at h
      subst hlast
      rw [Option.getD_none, ← state_eq_getD, h]
    · rw [Array.getElem?_eq_none (Nat.le_of_not_lt hqa)]

/-- Holes at the end make no difference to the states, and afterwards the last state is not a
hole. -/
theorem dropHoles_spec (a : Automaton) : (∀ q, a.dropHoles.state q = a.state q) ∧
    (0 < a.dropHoles.size → (a.dropHoles.state (a.dropHoles.size - 1)).isHole = false) := by
  unfold dropHoles
  fun_induction Array.popWhile State.isHole a with
  | case1 a hsize hhole ih =>
    refine ⟨fun q => ?_, ih.2⟩
    rw [ih.1 q]
    refine state_pop_of_hole ?_
    rwa [state_of_lt (by omega)]
  | case2 a hsize hhole =>
    refine ⟨fun _ => rfl, fun _ => ?_⟩
    rw [state_of_lt (by omega)]
    simpa using hhole
  | case3 a hsize => exact ⟨fun _ => rfl, fun hpos => absurd hpos hsize⟩

/-- States of `a` that are not holes are in `b`, those that have moved at their new places, which
are filled holes below `slot` or at it. -/
structure Moves (a b : Automaton) (slot : Nat) (moved : Matching) : Prop where
  last : 0 < b.size → (b.state (b.size - 1)).isHole = false
  filled : ∀ p, p < slot → p < b.size → (b.state p).isHole = false
  key : ∀ k v, moved.get? k = some v → b.size ≤ k ∧ v ≤ slot ∧ (b.state v).isHole = false
  source : ∀ k v, moved.get? k = some v → (a.state k).isHole = false
  state : ∀ q, (a.state q).isHole = false → b.state (moved.apply q) = a.state q
  onto : ∀ p, (b.state p).isHole = false → ∃ q, (a.state q).isHole = false ∧ moved.apply q = p
  injective : ∀ q q', (a.state q).isHole = false → (a.state q').isHole = false →
    moved.apply q = moved.apply q' → q = q'

theorem Moves.start (a : Automaton) : Moves a a.dropHoles 0 ∅ := by
  obtain ⟨hstate, hlast⟩ := dropHoles_spec a
  have happly : ∀ q, (∅ : Matching).apply q = q := by simp [Matching.apply]
  refine ⟨hlast, fun p hp => absurd hp (Nat.not_lt_zero p), by simp, by simp, ?_, ?_, ?_⟩
  · intro q _
    rw [happly, hstate]
  · intro p hp
    rw [hstate] at hp
    exact ⟨p, hp, happly p⟩
  · intro q q' _ _ heq
    rwa [happly, happly] at heq

theorem Moves.skip {slot : Nat} (h : Moves a b slot moved) (hslot : (b.state slot).isHole = false) :
    Moves a b (slot + 1) moved where
  last := h.last
  filled p hp hpb := by
    rcases Nat.lt_or_eq_of_le (Nat.lt_succ_iff.1 hp) with hp | rfl
    · exact h.filled p hp hpb
    · exact hslot
  key k v hk := by
    obtain ⟨hk, hv, hlive⟩ := h.key k v hk
    exact ⟨hk, Nat.le_succ_of_le hv, hlive⟩
  source := h.source
  state := h.state
  onto := h.onto
  injective := h.injective

/-! ## Filling a hole -/

namespace Moves

variable {slot : Nat} (h : Moves a b slot moved)
include h

/-- A state that has not moved before is at its old place. -/
theorem apply_of_lt (hq : q < b.size) : moved.apply q = q := by
  cases hget : moved.get? q with
  | none => exact Matching.apply_of_none hget
  | some v => exact absurd (h.key q v hget).1 (Nat.not_le_of_lt hq)

variable (hhole : (b.state slot).isHole = true)
include hhole

theorem lt_last (hslot : slot < b.size) : slot < b.size - 1 := by
  have htop := h.last (by omega)
  rcases Nat.lt_or_eq_of_le (show slot ≤ b.size - 1 by omega) with hlt | heq
  · exact hlt
  · rw [← heq, hhole] at htop
    exact absurd htop (by simp)

theorem value_lt {k v : Nat} (hk : moved.get? k = some v) : v < slot := by
  obtain ⟨-, hv, hlive⟩ := h.key k v hk
  rcases Nat.lt_or_eq_of_le hv with hv | rfl
  · exact hv
  · rw [hhole] at hlive
    exact absurd hlive (by simp)

/-- No other state is where the hole is, or the last state. -/
theorem apply_ne (hslot : slot < b.size) (hq : (a.state q).isHole = false) (htop : q ≠ b.size - 1) :
    moved.apply q ≠ slot ∧ moved.apply q ≠ b.size - 1 := by
  constructor
  · intro heq
    have hstate := h.state q hq
    rw [heq] at hstate
    rw [← hstate, hhole] at hq
    exact absurd hq (by simp)
  · intro heq
    cases hget : moved.get? q with
    | none => exact htop ((Matching.apply_of_none hget).symm.trans heq)
    | some v =>
      have hlt := h.value_lt hhole hget
      have hle := h.lt_last hhole hslot
      rw [Matching.apply_of_get? hget] at heq
      omega

/-- The last state has not moved before, and it is one of `a` as well. -/
theorem live_last (hslot : slot < b.size) : (a.state (b.size - 1)).isHole = false := by
  obtain ⟨q, hq, heq⟩ := h.onto _ (h.last (by omega))
  by_cases htop : q = b.size - 1
  · rwa [htop] at hq
  · exact absurd heq (h.apply_ne hhole hslot hq htop).2

variable {filled : Automaton} (hslot : slot < b.size)
  (hfilled : ∀ p, filled.state p = if p = slot then b.state (b.size - 1)
    else if p = b.size - 1 then State.hole else b.state p)
include hslot hfilled

theorem state_filled (hq : (a.state q).isHole = false) :
    filled.state ((moved.insert (b.size - 1) slot).apply q) = a.state q := by
  rw [Matching.apply_insert]
  split
  · rename_i htop
    subst htop
    rw [hfilled, if_pos rfl, ← h.state _ hq, h.apply_of_lt (by omega)]
  · rename_i htop
    obtain ⟨hne, hne'⟩ := h.apply_ne hhole hslot hq htop
    rw [hfilled, if_neg hne, if_neg hne', h.state q hq]

theorem onto_filled (hp : (filled.state p).isHole = false) :
    ∃ q, (a.state q).isHole = false ∧ (moved.insert (b.size - 1) slot).apply q = p := by
  rw [hfilled] at hp
  by_cases hps : p = slot
  · exact ⟨b.size - 1, h.live_last hhole hslot, by rw [Matching.apply_insert, if_pos rfl, hps]⟩
  · rw [if_neg hps] at hp
    by_cases hptop : p = b.size - 1
    · rw [if_pos hptop] at hp
      exact absurd hp (by simp)
    · rw [if_neg hptop] at hp
      obtain ⟨q, hq, heq⟩ := h.onto p hp
      refine ⟨q, hq, ?_⟩
      rw [Matching.apply_insert, if_neg, heq]
      rintro rfl
      rw [h.apply_of_lt (by omega)] at heq
      exact hptop heq.symm

omit hfilled in
theorem injective_insert {q' : Nat} (hq : (a.state q).isHole = false)
    (hq' : (a.state q').isHole = false) (heq : (moved.insert (b.size - 1) slot).apply q =
      (moved.insert (b.size - 1) slot).apply q') : q = q' := by
  rw [Matching.apply_insert, Matching.apply_insert] at heq
  by_cases htop : q = b.size - 1
  · by_cases htop' : q' = b.size - 1
    · rw [htop, htop']
    · rw [if_pos htop, if_neg htop'] at heq
      exact absurd heq.symm (h.apply_ne hhole hslot hq' htop').1
  · by_cases htop' : q' = b.size - 1
    · rw [if_neg htop, if_pos htop'] at heq
      exact absurd heq (h.apply_ne hhole hslot hq htop).1
    · rw [if_neg htop, if_neg htop'] at heq
      exact h.injective q q' hq hq' heq

/-- The last state moves into a hole. -/
theorem insert (hsize : filled.size < b.size)
    (hlast : 0 < filled.size → (filled.state (filled.size - 1)).isHole = false) :
    Moves a filled slot (moved.insert (b.size - 1) slot) where
  last := hlast
  filled p hp hpf := by
    have hlt := h.lt_last hhole hslot
    rw [hfilled, if_neg (by omega), if_neg (by omega)]
    exact h.filled p hp (by omega)
  key k v hk := by
    rw [Matching.get?_insert] at hk
    split at hk
    · cases hk
      have hlive := h.last (by omega)
      refine ⟨by omega, Nat.le_refl _, ?_⟩
      rwa [hfilled, if_pos rfl]
    · obtain ⟨hkb, hv, hlive⟩ := h.key k v hk
      have hvalue := h.value_lt hhole hk
      have hlt := h.lt_last hhole hslot
      refine ⟨by omega, hv, ?_⟩
      rwa [hfilled, if_neg (by omega), if_neg (by omega)]
  source k v hk := by
    rw [Matching.get?_insert] at hk
    split at hk
    · rename_i htop
      rw [htop]
      exact h.live_last hhole hslot
    · exact h.source k v hk
  state q := h.state_filled hhole hslot hfilled
  onto p := h.onto_filled hhole hslot hfilled
  injective q q' := h.injective_insert hhole hslot

end Moves

theorem state_fillHole {slot : Nat} (hlt : slot < b.size - 1) (hslot : slot < b.size) :
    (dropHoles (b.set slot (b.state (b.size - 1))).pop).state p =
      if p = slot then b.state (b.size - 1) else if p = b.size - 1 then State.hole else b.state p := by
  rw [(dropHoles_spec _).1, state_eq_getD, Array.getElem?_pop, Array.size_set]
  by_cases hp : p < b.size - 1
  · rw [if_pos hp, Array.getElem?_set]
    by_cases hps : p = slot
    · subst hps
      simp
    · rw [if_neg (Ne.symm hps), if_neg hps, if_neg (Nat.ne_of_lt hp), state_eq_getD]
  · rw [if_neg hp, if_neg (by omega), Option.getD_none]
    split
    · rfl
    · exact (state_of_ge (by omega)).symm

theorem Moves.fill {slot : Nat} (h : Moves a b slot moved) (hslot : slot < b.size)
    (hhole : (b.state slot).isHole = true) {filled : Automaton}
    (hfilled : filled = dropHoles (b.set slot (b.state (b.size - 1))).pop) :
    filled.size < b.size ∧ Moves a filled slot (moved.insert (b.size - 1) slot) := by
  have hsize : filled.size < b.size := by
    have hle := size_dropHoles_le (b.set slot (b.state (b.size - 1))).pop
    rw [hfilled]
    simp only [Array.size_pop, Array.size_set] at hle
    omega
  have hstate := fun p => state_fillHole (p := p) (h.lt_last hhole hslot) hslot
  have hlast := (dropHoles_spec (b.set slot (b.state (b.size - 1))).pop).2
  rw [← hfilled] at hstate hlast
  exact ⟨hsize, h.insert hhole hslot hstate hsize hlast⟩

theorem fillHoles_spec {slot : Nat} (h : Moves a b slot moved) :
    ∃ last, Moves a (fillHoles b slot moved).1 last (fillHoles b slot moved).2 ∧
      (fillHoles b slot moved).1.size ≤ last := by
  fun_induction fillHoles b slot moved with
  | case1 b slot moved hslot hhole top filled ih =>
    rw [← state_of_lt hslot] at hhole
    exact ih (h.fill hslot hhole rfl).2
  | case2 b slot moved hslot hhole ih =>
    rw [← state_of_lt hslot] at hhole
    exact ih (h.skip (by simpa using hhole))
  | case3 b slot moved hslot => exact ⟨slot, h, Nat.le_of_not_lt hslot⟩

/-- Compacting renumbers the states that are not holes. -/
theorem compact_spec (a : Automaton)
    (hclosed : ∀ p c q, a.Edge p c q → (a.state q).isHole = false) :
    (∃ τ, Renumbering (fun q => (a.state q).isHole = false) a a.compact.1 a.compact.2.apply τ) ∧
    (∀ k v, a.compact.2.get? k = some v →
      (a.state k).isHole = false ∧ a.compact.1.size ≤ k ∧ v < a.compact.1.size) ∧
    ((a.state 0).isHole = false → a.compact.2.apply 0 = 0) := by
  obtain ⟨last, h, hlast⟩ := fillHoles_spec (Moves.start a)
  obtain ⟨filled, moved, hfill⟩ : ∃ filled moved, fillHoles a.dropHoles 0 ∅ = (filled, moved) :=
    ⟨_, _, rfl⟩
  have hcompact : a.compact = (filled.map (·.mapDest moved.apply), moved) := by
    rw [compact, hfill]
  rw [hfill] at h hlast
  rw [hcompact]
  simp only [Array.size_map] at hlast ⊢
  have hlive : ∀ p, p < filled.size → (filled.state p).isHole = false :=
    fun p hp => h.filled p (by omega) hp
  have hkey : ∀ k v, moved.get? k = some v →
      (a.state k).isHole = false ∧ filled.size ≤ k ∧ v < filled.size := by
    intro k v hk
    obtain ⟨hk', -, hv⟩ := h.key k v hk
    exact ⟨h.source k v hk, hk', lt_of_not_isHole hv⟩
  have hto : ∀ q, (a.state q).isHole = false → moved.apply q < filled.size := by
    intro q hq
    exact lt_of_not_isHole (by rwa [h.state q hq])
  refine ⟨?_, hkey, ?_⟩
  · choose! τ hτ hτ' using fun p (hp : p < filled.size) => h.onto p (hlive p hp)
    refine ⟨τ, ?_, ?_, ?_, ?_, ?_, fun p c q _ he => hclosed p c q he⟩
    · intro q hq
      rw [Array.size_map]
      exact hto q hq
    · intro p hp
      rw [Array.size_map] at hp
      exact hτ p hp
    · intro q hq
      exact h.injective _ _ (hτ _ (hto q hq)) hq (hτ' _ (hto q hq))
    · intro p hp
      rw [Array.size_map] at hp
      exact hτ' p hp
    · intro q hq
      rw [state_map State.mapDest_hole, h.state q hq]
  · intro h0
    unfold Matching.apply
    cases hget : moved.get? 0 with
    | none => rfl
    | some v => exact absurd (hkey 0 v hget).2 (by omega)

theorem Renumbering.size_eq {σ τ : Nat → Nat} {live : State → Bool}
    (h : Renumbering (fun q => live (a.state q) = true) a b σ τ)
    (hlt : ∀ q, live (a.state q) = true → q < a.size) : b.size = a.countP live := by
  have hnodup : ((List.range b.size).map τ).Nodup := by
    refine List.Nodup.map_on (fun p hp p' hp' heq => ?_) List.nodup_range
    exact h.injective_back (List.mem_range.1 hp) (List.mem_range.1 hp') heq
  have hperm : ((List.range b.size).map τ).Perm
      ((List.range a.size).filter fun q => live (a.state q)) := by
    refine (List.perm_ext_iff_of_nodup hnodup (List.nodup_range.filter _)).2 fun q => ?_
    simp only [List.mem_map, List.mem_filter, List.mem_range]
    constructor
    · rintro ⟨p, hp, rfl⟩
      have hlive := h.on_back p hp
      exact ⟨hlt _ hlive, hlive⟩
    · rintro ⟨-, hlive⟩
      exact ⟨σ q, h.lt q hlive, h.left_inv q hlive⟩
  have hlength := hperm.length_eq
  rwa [List.length_map, List.length_range, ← List.countP_eq_length_filter, ← countP_states] at hlength

/-- Compacting numbers the states that are not holes anew, without gaps and with the root at 0. A state
has moved if its old number is too large, and to where the answer tells. -/
theorem compact_renumbers (a : Automaton)
    (hclosed : ∀ p c q, a.Edge p c q → (a.state q).isHole = false)
    (hroot : (a.state 0).isHole = false) :
    a.compact.1.size = a.countP (!·.isHole) ∧
    Set.BijOn a.compact.2.apply {q | (a.state q).isHole = false} {p | p < a.compact.1.size} ∧
    a.compact.2.apply 0 = 0 ∧
    (∀ q, a.compact.2.contains q = true ↔ (a.state q).isHole = false ∧ a.compact.1.size ≤ q) ∧
    (∀ q, (a.state q).isHole = false →
      a.compact.1.state (a.compact.2.apply q) = (a.state q).mapDest a.compact.2.apply) ∧
    ∀ w, a.compact.1.accepts w = a.accepts w := by
  obtain ⟨⟨τ, h⟩, hkey, hzero⟩ := compact_spec a hclosed
  have hsize : a.compact.1.size = a.countP (!·.isHole) := by
    simp only [← Bool.not_eq_true'] at h
    refine h.size_eq fun q hq => lt_of_not_isHole ?_
    simpa using hq
  refine ⟨hsize, ⟨h.lt, fun q hq q' hq' heq => h.injective hq hq' heq, fun p hp => ?_⟩, hzero hroot,
    fun q => ?_, h.state, fun w => ?_⟩
  · exact ⟨τ p, h.on_back p hp, h.right_inv p hp⟩
  · rw [Matching.contains_iff]
    constructor
    · rintro ⟨v, hv⟩
      exact ⟨(hkey q v hv).1, (hkey q v hv).2.1⟩
    · rintro ⟨hlive, hq⟩
      -- a state that has not moved would still be at its old number
      cases hget : a.compact.2.get? q with
      | none =>
        have hlt := h.lt q hlive
        rw [Matching.apply_of_none hget] at hlt
        omega
      | some v => exact ⟨v, rfl⟩
  · have hstart := h.covers.acceptsFrom_eq (w := w) hroot
    rwa [hzero hroot] at hstart

/-- Three states and four holes, some of which are at the end only when state 5 has moved. -/
def gapped : Automaton :=
  let digit : ByteSet := .interval 0x30 0x39
  #[⟨.ofList [(.singleton 0x61, 2), (.singleton 0x62, 5)], none⟩, .hole, ⟨∅, some digit⟩, .hole, .hole,
    ⟨.ofList [(digit, 2)], some (.singleton 0x63)⟩, .hole]

theorem compact_renumbers_gapped : gapped.compact.1.size = 3 ∧ gapped.compact.2.toList = [(5, 1)] ∧
    Set.BijOn gapped.compact.2.apply {q | (gapped.state q).isHole = false} {p | p < 3} ∧
    ∀ w, gapped.compact.1.accepts w = gapped.accepts w := by
  have hdests : ∀ p < gapped.size, ∀ e ∈ (gapped.state p).transitions.entries,
      (gapped.state e.2).isHole = false := by decide +kernel
  have hclosed : ∀ p c q, gapped.Edge p c q → (gapped.state q).isHole = false :=
    fun p c q he => hdests p (lt_of_edge he) (c, q) he
  obtain ⟨hcount, hbij, -, -, -, haccepts⟩ := compact_renumbers gapped hclosed (by decide +kernel)
  have hsize : gapped.compact.1.size = 3 := hcount.trans (by decide +kernel)
  refine ⟨hsize, ?_, by rwa [hsize] at hbij, haccepts⟩
  decide +kernel

/-- Compacting a tree that covers a tree renumbers its states. -/
theorem Refines.compact {tree : Automaton} {holes : Bool} (h : Refines tree holes a)
    (htree : tree.WellFormed) (hpos : 0 < tree.size) :
    ∃ τ, Renumbering (a.Reaches 0) a a.compact.1 a.compact.2.apply τ ∧
      a.compact.2.apply 0 = 0 ∧
      ∀ k v, a.compact.2.get? k = some v → a.compact.1.size ≤ k ∧ v < a.compact.1.size := by
  have hlive : (fun q => (a.state q).isHole = false) = a.Reaches 0 :=
    funext fun q => propext (h.live_iff htree hpos)
  have hclosed : ∀ p c q, a.Edge p c q → (a.state q).isHole = false := by
    intro p c q he
    have hp := (h.live_iff htree hpos).1 (not_isHole_of_edge he)
    exact (h.live_iff htree hpos).2 (hp.tail ⟨c, he⟩)
  obtain ⟨⟨τ, hn⟩, hkey, hroot⟩ := compact_spec a hclosed
  rw [hlive] at hn
  exact ⟨τ, hn, hroot ((h.live_iff htree hpos).2 .refl), fun k v hk => (hkey k v hk).2⟩

end Automaton
end ByteMatch
