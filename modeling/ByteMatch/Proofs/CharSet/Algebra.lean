import ByteMatch.Proofs.Automaton.Trim
import ByteMatch.Proofs.Automaton.Unfold
import ByteMatch.Proofs.CharSet.Union

/-!
# ByteMatch.Proofs.CharSet.Algebra

Union, intersection and difference of character sets.

* `CharSet.toTree_spec`: the tree form of a well-formed set.
* `CharSet.align_spec`: aligning two well-formed sets makes their trees comparable.
* `CharSet.accepts_union_intersect_difference`: what the results accept, and that all loops end.
-/

namespace ByteMatch
namespace CharSet

open Automaton

variable {a b s : CharSet}

/-! ## Tree form -/

/-- The loop that makes a tree of a set in graph form ends. -/
def ToTreeEnds (s : CharSet) : Prop :=
  s.form = .graph → ¬ s.size < 2 →
    ∃ u, Loop.Ends s.states.unfoldStep s.states.unfoldStart u ∧ s.toTree.states = u.tree

theorem isTree_of_size_lt {a : Automaton} (h : a.size < 2) : a.IsTree :=
  fun q hq hne => absurd hq (by omega)

theorem toTree_spec (h : s.WellFormed) : s.ToTreeEnds ∧ s.toTree.states.WellFormed ∧
    s.toTree.states.IsTree ∧ (0 < s.toTree.states.size ↔ 0 < s.states.size) ∧
    ∀ w, s.toTree.accepts w = s.accepts w := by
  obtain ⟨e, states, form⟩ := s
  cases form with
  | tree => exact ⟨fun hform => (nomatch hform), h.states, h.tree rfl, Iff.rfl, fun _ => rfl⟩
  | graph =>
    have hwf : states.WellFormed := h.states
    by_cases hsize : states.size < 2
    · have htree : (CharSet.mk e states .graph).toTree = ⟨e, states, .tree⟩ := by
        simp [toTree, size, hsize]
      rw [htree]
      exact ⟨fun _ hge => absurd hsize hge, hwf, isTree_of_size_lt hsize, Iff.rfl, fun _ => rfl⟩
    · have htree : (CharSet.mk e states .graph).toTree = ⟨e, states.unfold, .tree⟩ := by
        simp [toTree, size, hsize]
      have hpos : 0 < states.size := by omega
      obtain ⟨⟨u, hends, hu⟩, f, hf⟩ := unfold_spec hwf.toProper hwf.acyclic hpos
      refine ⟨fun _ _ => ⟨u, hends, by rw [htree, hu]⟩, ?_⟩
      rw [htree]
      exact ⟨hf.wellFormed hwf hpos, hf.isTree hwf hpos,
        iff_of_true (hf.forest.root_lt 0 (by simp)) hpos, hf.accepts_eq⟩

/-! ## Aligned sets -/

/-- The loops end that make two sets comparable. -/
def AlignEnds (a b : CharSet) : Prop :=
  a.ToTreeEnds ∧ b.ToTreeEnds ∧ Automaton.AlignEnds a.toTree.states b.toTree.states

theorem size_pos_iff : 0 < s.states.size ↔ s.isEmpty = false := by
  rw [isEmpty, Array.isEmpty_eq_false_iff, Array.size_pos_iff]

section Align

variable (ha : a.WellFormed) (hb : b.WellFormed) (hapos : a.isEmpty = false)
  (hbpos : b.isEmpty = false)
include ha hb hapos hbpos

theorem align_spec : AlignEnds a b ∧
    Alignment.Aligned a.toTree.states b.toTree.states (a.align b) := by
  obtain ⟨haends, hawf, hatree, hasize, -⟩ := toTree_spec ha
  obtain ⟨hbends, hbwf, hbtree, hbsize, -⟩ := toTree_spec hb
  obtain ⟨hends, haligned⟩ := Automaton.align_spec hawf hatree (hasize.2 (size_pos_iff.2 hapos))
    hbwf hbtree (hbsize.2 (size_pos_iff.2 hbpos))
  exact ⟨⟨haends, hbends, hends⟩, haligned⟩

theorem accepts_align (w : List UInt8) :
    (a.align b).left.accepts w = a.accepts w ∧ (a.align b).right.accepts w = b.accepts w := by
  obtain ⟨-, haligned⟩ := align_spec ha hb hapos hbpos
  rw [haligned.left.accepts_eq, haligned.right.accepts_eq]
  exact ⟨(toTree_spec ha).2.2.2.2 w, (toTree_spec hb).2.2.2.2 w⟩

/-- In aligned trees all states lead to leaves. -/
theorem live_align (r : Nat) (hr : r < (a.align b).right.size) :
    ((a.align b).right.state r).isHole = false := by
  obtain ⟨-, hbwf, -, hbsize, -⟩ := toTree_spec hb
  obtain ⟨-, haligned⟩ := align_spec ha hb hapos hbpos
  exact (haligned.right.live_iff hbwf (hbsize.2 (size_pos_iff.2 hbpos))).2
    (haligned.right.full rfl r hr)

end Align

/-- Aligning ends for empty sets too, as it does nothing with them. -/
theorem alignEnds (ha : a.WellFormed) (hb : b.WellFormed) : AlignEnds a b := by
  refine ⟨(toTree_spec ha).1, (toTree_spec hb).1, fun hasize hbsize => ?_⟩
  have hapos := size_pos_iff.1 ((toTree_spec ha).2.2.2.1.1 (Nat.lt_of_succ_lt hasize))
  have hbpos := size_pos_iff.1 ((toTree_spec hb).2.2.2.1.1 (Nat.lt_of_succ_lt hbsize))
  exact (align_spec ha hb hapos hbpos).1.2.2 hasize hbsize

/-! ## The operations -/

theorem accepts_of_isEmpty (h : s.isEmpty = true) (w : List UInt8) : s.accepts w = false := by
  rw [accepts, Automaton.accepts, Array.isEmpty_iff.1 h]
  exact acceptsFrom_of_isHole rfl

/-- The loops end that combine two sets. An empty set is not aligned with the other one. -/
def CombineEnds (a b : CharSet) : Prop :=
  a.isEmpty = false → b.isEmpty = false → AlignEnds a b ∧
    TrimEnds (a.align b).intersected ∧ TrimEnds (a.align b).subtracted

section Operations

variable (he : a.encoding = b.encoding)
include he

theorem sameEncoding_of_eq : sameEncoding a b = .ok () := if_pos he

theorem union_eq : a.union b = .ok (if a.isEmpty then b else if b.isEmpty then a
    else { a with states := (a.align b).united, form := .tree }) := by
  rw [union, sameEncoding_of_eq he]
  cases a.isEmpty <;> cases b.isEmpty <;> rfl

theorem intersect_eq : a.intersect b = .ok (if a.isEmpty || b.isEmpty then empty a.encoding
    else a.ofTrimmed (a.align b).intersected) := by
  rw [intersect, sameEncoding_of_eq he]
  cases a.isEmpty <;> cases b.isEmpty <;> rfl

theorem difference_eq : a.difference b = .ok (if a.isEmpty || b.isEmpty then a
    else a.ofTrimmed (a.align b).subtracted) := by
  rw [difference, sameEncoding_of_eq he]
  cases a.isEmpty <;> cases b.isEmpty <;> rfl

end Operations

/-- The results of combining two sets that are not empty. -/
theorem accepts_combined (ha : a.WellFormed) (hb : b.WellFormed) (hapos : a.isEmpty = false)
    (hbpos : b.isEmpty = false) (w : List UInt8) :
    (a.align b).united.accepts w = (a.accepts w || b.accepts w) ∧
      (a.ofTrimmed (a.align b).intersected).accepts w = (a.accepts w && b.accepts w) ∧
      (a.ofTrimmed (a.align b).subtracted).accepts w = (a.accepts w && !b.accepts w) := by
  obtain ⟨-, haligned⟩ := align_spec ha hb hapos hbpos
  obtain ⟨hleft, hright⟩ := accepts_align ha hb hapos hbpos w
  have hadopt := Alignment.adopt_spec haligned (live_align ha hb hapos hbpos)
  obtain ⟨hforest, hfull⟩ := haligned.forest_intersected (haligned.left.full rfl)
  obtain ⟨hforest', hfull'⟩ := haligned.forest_subtracted (haligned.left.full rfl)
  refine ⟨?_, ?_, ?_⟩
  · rw [Alignment.accepts_united haligned hadopt, hleft, hright]
  · rw [accepts, ofTrimmed, accepts_compact_trim hforest hfull, haligned.accepts_intersected, hleft,
      hright]
  · rw [accepts, ofTrimmed, accepts_compact_trim hforest' hfull', haligned.accepts_subtracted, hleft,
      hright]

theorem combineEnds (ha : a.WellFormed) (hb : b.WellFormed) : CombineEnds a b := by
  intro hapos hbpos
  obtain ⟨hends, haligned⟩ := align_spec ha hb hapos hbpos
  obtain ⟨hforest, -⟩ := haligned.forest_intersected (haligned.left.full rfl)
  obtain ⟨hforest', -⟩ := haligned.forest_subtracted (haligned.left.full rfl)
  exact ⟨hends, hforest.trim_spec.1, hforest'.trim_spec.1⟩

/-- Of two well-formed sets with the same encoding, the union accepts what either accepts, the
intersection what both accept, and the difference what the first one accepts and the second one
does not. All loops on the way end. -/
theorem accepts_union_intersect_difference (ha : a.WellFormed) (hb : b.WellFormed)
    (he : a.encoding = b.encoding) : ∃ u i d,
      a.union b = .ok u ∧ a.intersect b = .ok i ∧ a.difference b = .ok d ∧
      (∀ w, u.accepts w = (a.accepts w || b.accepts w)) ∧
      (∀ w, i.accepts w = (a.accepts w && b.accepts w)) ∧
      (∀ w, d.accepts w = (a.accepts w && !b.accepts w)) ∧ CombineEnds a b := by
  refine ⟨_, _, _, union_eq he, intersect_eq he, difference_eq he, ?_⟩
  have hends := combineEnds ha hb
  cases hapos : a.isEmpty with
  | true =>
    have hnone := accepts_of_isEmpty hapos
    refine ⟨fun w => by simp [hnone w], fun w => ?_, fun w => by simp [hnone w], hends⟩
    rw [hnone w]
    exact accepts_of_isEmpty rfl w
  | false =>
    cases hbpos : b.isEmpty with
    | true =>
      have hnone := accepts_of_isEmpty hbpos
      refine ⟨fun w => by simp [hnone w], fun w => ?_, fun w => by simp [hnone w], hends⟩
      rw [hnone w, Bool.and_false]
      exact accepts_of_isEmpty rfl w
    | false =>
      have hcombined := accepts_combined ha hb hapos hbpos
      exact ⟨fun w => (hcombined w).1, fun w => (hcombined w).2.1, fun w => (hcombined w).2.2, hends⟩

/-! ## An example -/

/-- A tree with characters of one, two and three bytes. -/
def shortTree : CharSet where
  encoding := .utf8
  states := #[
    ⟨.ofList [(.interval 0xC3 0xC5, 1), (.interval 0xE0 0xE0, 2)], some (.interval 0x41 0x5A)⟩,
    ⟨∅, some (.interval 0x80 0xBF)⟩,
    ⟨.ofList [(.interval 0xA0 0xBF, 3)], none⟩,
    ⟨∅, some (.interval 0x80 0xBF)⟩]
  form := .tree

/-- A graph whose labels overlap those of `shortTree`. -/
def shortGraph : CharSet where
  encoding := .utf8
  states := #[
    ⟨.ofList [(.interval 0xC4 0xC6, 2), (.interval 0xE0 0xE1, 1)], some (.interval 0x50 0x61)⟩,
    ⟨.ofList [(.interval 0x90 0xAF, 2)], none⟩,
    ⟨∅, some (.interval 0x90 0xBF)⟩]
  form := .graph

theorem wellFormed_shortTree : shortTree.WellFormed where
  states := .of_ascending (by decide +kernel) (by decide +kernel) (by decide +kernel)
    (by decide +kernel) (by decide +kernel)
  tree _ := WellFormed.isTree (.of_ascending (by decide +kernel) (by decide +kernel)
    (by decide +kernel) (by decide +kernel) (by decide +kernel)) (by decide +kernel)

theorem wellFormed_shortGraph : shortGraph.WellFormed where
  states := .of_ascending (by decide +kernel) (by decide +kernel) (by decide +kernel)
    (by decide +kernel) (by decide +kernel)
  tree h := nomatch h

theorem accepts_union_intersect_difference_short :
    shortTree.WellFormed ∧ shortGraph.WellFormed ∧ shortTree.encoding = shortGraph.encoding ∧
    ∃ u i d, shortTree.union shortGraph = .ok u ∧ shortTree.intersect shortGraph = .ok i ∧
      shortTree.difference shortGraph = .ok d ∧
      (∀ w, u.accepts w = (shortTree.accepts w || shortGraph.accepts w)) ∧
      (∀ w, i.accepts w = (shortTree.accepts w && shortGraph.accepts w)) ∧
      (∀ w, d.accepts w = (shortTree.accepts w && !shortGraph.accepts w)) ∧
      CombineEnds shortTree shortGraph :=
  ⟨wellFormed_shortTree, wellFormed_shortGraph, rfl,
    accepts_union_intersect_difference wellFormed_shortTree wellFormed_shortGraph rfl⟩

end CharSet
end ByteMatch
