import ByteMatch.Proofs.Automaton.EmptyLeaves
import ByteMatch.Proofs.Automaton.Sound
import ByteMatch.Proofs.CharSet.Combination

/-!
# ByteMatch.Proofs.CharSet.Sound

Combining sets whose automata are sound. They need not accept something from each of their states.

* `Automaton.SoundTree.aligned`: with full leaves, sound trees become comparable.
* `Automaton.SoundTree.united`: the union of sound trees is sound.
* `Automaton.SoundTree.wellFormed_trimmed`: what is left of the left tree is well-formed, whatever has been
  done with its leaves.
* `CharSet.Sound`, and that each operation keeps it.
-/

namespace ByteMatch
namespace Alignment

open Automaton

variable {al : Alignment} {q : Nat}

theorem transitions_subtractLeaf {pairs : Matching} {b : Automaton} {s : State} {r : Nat} :
    ((subtractLeaf pairs b s r).state q).transitions = (b.state q).transitions := by
  rw [subtractLeaf]
  split
  · exact transitions_modify fun _ => rfl
  · rfl

/-- Subtracting changes leaves only. -/
theorem subtracted_spec : al.subtracted.size = al.left.size ∧
    ∀ q, (al.subtracted.state q).transitions = (al.left.state q).transitions := by
  refine foldl_states (a := al.right) (fun _ (b : Automaton) => b.size = al.left.size ∧
    ∀ q, (b.state q).transitions = (al.left.state q).transitions) (fun r b _ hb => ?_)
    ⟨rfl, fun _ => rfl⟩
  exact ⟨Comparable.size_subtractLeaf.trans hb.1, fun q => transitions_subtractLeaf.trans (hb.2 q)⟩

end Alignment

/-! ## Trees -/

namespace Automaton

open ByteMatch.Alignment

variable {a b t : Automaton} {q : Nat}

/-- The union with just a hole is the tree itself. -/
theorem united_start_hole : (start a #[State.hole]).united = a := rfl

namespace SoundTree

variable (ha : a.SoundTree) (hb : b.SoundTree) (hapos : 0 < a.size) (hbpos : 0 < b.size)
include ha hb hapos hbpos

theorem aligned : Aligned a.filled b.filled ((align a b).mapLeaf fun _ => ByteSet.all) := by
  have hleft := ha.forest hapos
  have hright := hb.forest hbpos
  rw [← align_mapLeaf]
  by_cases hsize : a.size < 2 ∨ b.size < 2
  · refine aligned_of_size_lt hleft (fun q hq => ?_) hright (fun q hq => ?_) ?_
    · exact reaches_filled.2 (ha.reachable q (size_filled ▸ hq))
    · exact reaches_filled.2 (hb.reachable q (size_filled ▸ hq))
    · rwa [size_filled, size_filled]
  · have hawf := ha.wellFormed_filled hapos (ha.live_root (by omega))
    have hbwf := hb.wellFormed_filled hbpos (hb.live_root (by omega))
    exact (align_spec hawf (isTree_filled.2 ha.isTree) (by rwa [size_filled]) hbwf
      (isTree_filled.2 hb.isTree) (by rwa [size_filled])).2

/-- What is left of the left tree when its leaves have been changed. -/
theorem wellFormed_trimmed (hsize : t.size = (align a b).left.size)
    (htrans : ∀ q, (t.state q).transitions = ((align a b).left.state q).transitions) :
    t.trim.compact.1.WellFormed ∧ t.trim.compact.1.IsTree := by
  have haligned := ha.aligned hb hapos hbpos
  obtain ⟨hforest, hfull⟩ := haligned.left.forest.of_transitions (b := t.dropEmptyLeaves)
    (haligned.left.full rfl) (by simpa using hsize)
    (fun q => by
      rw [state_dropEmptyLeaves]
      exact (htrans q).trans (by simp))
    (fun q leaf hleaf => by
      rw [state_dropEmptyLeaves] at hleaf
      have hsome := (Option.filter_eq_some_iff.1 hleaf).2
      exact ByteSet.isEmpty_eq_false_iff.1 (by simpa using hsome))
  exact wellFormed_compact_trim hforest hfull

/-- The union of sound trees is sound. -/
theorem united : (align a b).united.SoundTree := by
  cases hroot : (b.state 0).isHole with
  | true =>
    obtain rfl := hb.eq_hole hbpos hroot
    rw [align_of_size_lt hapos hbpos (.inr (by simp)), united_start_hole]
    exact ha
  | false =>
    have haligned := ha.aligned hb hapos hbpos
    have hleft := haligned.left.full rfl
    have hright := haligned.right.full rfl
    have hbwf := hb.wellFormed_filled hbpos hroot
    have hlive : ∀ r, r < ((align a b).mapLeaf fun _ => ByteSet.all).right.size →
        (((align a b).mapLeaf fun _ => ByteSet.all).right.state r).isHole = false :=
      fun r hr => (haligned.right.live_iff hbwf (by rwa [size_filled])).2 (hright r hr)
    have hadopt := adopt_spec haligned hlive
    have hforest := forest_united haligned hadopt hleft hright
    have hprod : ∀ q, q < ((align a b).mapLeaf fun _ => ByteSet.all).united.size →
        ((align a b).mapLeaf fun _ => ByteSet.all).united.Productive q := by
      intro q hq
      refine productive_united haligned hadopt hleft hright (fun q hq => ?_) (fun r hr => ?_) hq
      · cases hroot' : (a.state 0).isHole with
        | false =>
          have hawf := ha.wellFormed_filled hapos hroot'
          exact .inl (haligned.left.productive hawf (by rwa [size_filled]) (hleft q hq))
        | true =>
          -- the left tree is just its root, which has a partner
          obtain rfl := ha.eq_hole hapos hroot'
          rw [align_of_size_lt hapos hbpos (.inl (by simp))] at hq
          obtain rfl : q = 0 := by simpa [start] using hq
          exact .inr ⟨0, haligned.corr.root⟩
      · exact haligned.right.productive hbwf (by rwa [size_filled]) (hright r hr)
    rw [united_mapLeaf fun _ _ => by decide] at hforest hprod
    have hwf := hforest.wellFormed hprod
    refine hforest.soundTree (fun q hq => ?_) fun p c q he => ?_
    · exact reaches_filled.1 (hwf.reachable q (size_filled.symm ▸ hq))
    · rw [← isHole_filled]
      exact (hprod q (hforest.target_lt p c q (edge_filled.2 he))).not_isHole

end SoundTree
end Automaton

/-! ## Sets -/

/-- A set of characters whose automaton is sound, and a tree if it is in tree form. -/
structure CharSet.Sound (s : CharSet) : Prop where
  states : s.states.Sound
  tree : s.form = .tree → s.states.SoundTree

namespace CharSet

open Automaton

variable {a b c s : CharSet}

theorem WellFormed.sound (h : s.WellFormed) : s.Sound :=
  ⟨h.states.sound, fun hform => h.states.soundTree (h.tree hform)⟩

theorem sound_of_soundTree {e : Encoding} {t : Automaton} (h : t.SoundTree) : Sound ⟨e, t, .tree⟩ :=
  ⟨h.toSound, fun _ => h⟩

/-- A sound automaton of a single state has no transitions. -/
theorem Sound.soundTree_of_size_lt {t : Automaton} (h : t.Sound) (hsize : t.size < 2) : t.SoundTree where
  toSound := h
  reachable q hq := by
    obtain rfl : q = 0 := by omega
    exact .refl
  isTree := isTree_of_size_lt hsize

/-- The tree form of a sound set is sound, and it has states if the set does. -/
theorem Sound.soundTree_toTree (h : s.Sound) :
    s.toTree.states.SoundTree ∧ (s.isEmpty = false → 0 < s.toTree.states.size) := by
  have hpos := size_pos_iff (s := s)
  obtain ⟨e, states, form⟩ := s
  cases form with
  | tree => exact ⟨h.tree rfl, hpos.2⟩
  | graph =>
    by_cases hsize : states.size < 2
    · have htree : (CharSet.mk e states .graph).toTree = ⟨e, states, .tree⟩ := by
        simp [CharSet.toTree, size, hsize]
      rw [htree]
      exact ⟨Sound.soundTree_of_size_lt h.states hsize, hpos.2⟩
    · have htree : (CharSet.mk e states .graph).toTree = ⟨e, states.unfold, .tree⟩ := by
        simp [CharSet.toTree, size, hsize]
      have hstates : 0 < states.size := by omega
      obtain ⟨hsound, hroot⟩ := h.states.unfold hstates
      rw [htree]
      exact ⟨hsound, fun _ => hroot⟩

theorem Sound.toTree (h : s.Sound) : s.toTree.Sound :=
  ⟨h.soundTree_toTree.1.toSound, fun _ => h.soundTree_toTree.1⟩

theorem Sound.toGraph (h : s.Sound) : s.toGraph.Sound := by
  obtain ⟨e, states, form⟩ := s
  cases form with
  | graph => exact h
  | tree =>
    by_cases hsize : states.size < 2
    · simpa [CharSet.toGraph, size, hsize] using h
    · cases hmerge : states.merge? with
      | none =>
        have hempty := wellFormed_of_size_zero (a := #[]) rfl
        simpa [CharSet.toGraph, size, hsize, hmerge] using sound_of_soundTree (e := e) (hempty.1.soundTree hempty.2)
      | some g =>
        have hwf : g.WellFormed := wellFormed_merge? h.states.proper_filled hmerge
        have hsound : Sound ⟨e, g, .graph⟩ := by
          refine ⟨hwf.sound, fun hform => ?_⟩
          cases hform
        simpa [CharSet.toGraph, size, hsize, hmerge] using hsound

section Operations

variable (ha : a.Sound) (hb : b.Sound)
include ha hb

theorem Sound.union (h : a.union b = .ok c) : c.Sound := by
  rw [union_eq (encoding_of_ok h)] at h
  cases h
  cases hapos : a.isEmpty with
  | true => exact hb
  | false =>
    cases hbpos : b.isEmpty with
    | true => exact ha
    | false =>
      obtain ⟨hatree, hasize⟩ := ha.soundTree_toTree
      obtain ⟨hbtree, hbsize⟩ := hb.soundTree_toTree
      exact sound_of_soundTree (hatree.united hbtree (hasize hapos) (hbsize hbpos))

theorem Sound.ofTrimmed {t : Automaton} (hapos : a.isEmpty = false) (hbpos : b.isEmpty = false)
    (hsize : t.size = (a.align b).left.size)
    (htrans : ∀ q, (t.state q).transitions = ((a.align b).left.state q).transitions) :
    (a.ofTrimmed t).Sound := by
  obtain ⟨hatree, hasize⟩ := ha.soundTree_toTree
  obtain ⟨hbtree, hbsize⟩ := hb.soundTree_toTree
  obtain ⟨hwf, htree⟩ := hatree.wellFormed_trimmed hbtree (hasize hapos) (hbsize hbpos) hsize htrans
  exact sound_of_soundTree (hwf.soundTree htree)

theorem Sound.intersect (h : a.intersect b = .ok c) : c.Sound := by
  have hempty := (wellFormed_empty a.encoding).sound
  rw [intersect_eq (encoding_of_ok h)] at h
  cases h
  cases hapos : a.isEmpty with
  | true => exact hempty
  | false =>
    cases hbpos : b.isEmpty with
    | true => exact hempty
    | false =>
      exact ha.ofTrimmed hb hapos hbpos Alignment.Comparable.size_intersected fun _ =>
        Alignment.Comparable.transitions_intersected

theorem Sound.difference (h : a.difference b = .ok c) : c.Sound := by
  rw [difference_eq (encoding_of_ok h)] at h
  cases h
  cases hapos : a.isEmpty with
  | true => exact ha
  | false =>
    cases hbpos : b.isEmpty with
    | true => exact ha
    | false =>
      exact ha.ofTrimmed hb hapos hbpos Alignment.subtracted_spec.1 Alignment.subtracted_spec.2

end Operations
end CharSet
end ByteMatch
