import ByteMatch.Proofs.CharSet.Graph

/-!
# ByteMatch.Proofs.CharSet.NormalForm

Every presentation of a set of characters has the same smallest graph.

* `CharSet.wellFormed_toTree`, `CharSet.wellFormed_toGraph`: both forms are well-formed, and they accept
  the same.
* `CharSet.states_toGraph_toTree_eq`: sets that accept the same lead to the same states, whatever
  their forms, labels and numbers.
-/

namespace ByteMatch
namespace Automaton

variable {a b : Automaton}

/-- A well-formed automaton of less than two states has only a leaf, as a transition would be a
cycle. -/
theorem WellFormed.transitions_of_size_lt (h : a.WellFormed) (hsize : a.size < 2) (q : Nat) :
    (a.state q).transitions = ∅ := by
  refine Transitions.eq_empty_of_isEmpty ?_
  by_contra hne
  obtain ⟨⟨c, r⟩, he⟩ := Transitions.isEmpty_eq_false_iff.1 (Bool.not_eq_true _ ▸ hne)
  have hq : q < a.size := lt_of_edge he
  have hr : r < a.size := h.target_lt q c r he
  obtain rfl : q = r := by omega
  exact h.acyclic q (.single ⟨c, he⟩)

theorem WellFormed.eq_of_size_lt (ha : a.WellFormed) (hb : b.WellFormed) (hsize : a.size = b.size)
    (hlt : a.size < 2) (hsame : ∀ w, a.accepts w = b.accepts w) : a = b := by
  refine ext_state hsize fun q => ?_
  by_cases hq : q < a.size
  · obtain rfl : q = 0 := by omega
    have htransitions : (a.state 0).transitions = (b.state 0).transitions := by
      rw [ha.transitions_of_size_lt hlt, hb.transitions_of_size_lt (by omega)]
    have hleaf : (a.state 0).leaf = (b.state 0).leaf := by
      refine leaf_eq_of_completes ha.toProper hb.toProper fun x => ?_
      have := hsame [x]
      rwa [accepts, accepts, acceptsFrom_singleton, acceptsFrom_singleton] at this
    exact congrArg₂ State.mk htransitions hleaf
  · rw [state_of_ge (by omega), state_of_ge (by omega)]

end Automaton

namespace CharSet

open Automaton

variable {a b c : CharSet}

/-- Trees that accept the same become the same graph. -/
theorem states_toGraph_eq (ha : a.WellFormed) (hb : b.WellFormed) (hat : a.form = .tree)
    (hbt : b.form = .tree) (hsame : ∀ w, a.accepts w = b.accepts w) :
    a.toGraph.states = b.toGraph.states := by
  cases hempty : a.isEmpty with
  | true =>
    have hempty' : b.isEmpty = true :=
      (isEmpty_iff hb).2 fun w => by rw [← hsame, (isEmpty_iff ha).1 hempty w]
    have hsa : a.size = 0 := by simpa [isEmpty, size] using hempty
    have hsb : b.size = 0 := by simpa [isEmpty, size] using hempty'
    rw [toGraph_of_size_lt hat (by omega), toGraph_of_size_lt hbt (by omega)]
    exact Array.eq_empty_of_size_eq_zero hsa ▸ (Array.eq_empty_of_size_eq_zero hsb).symm
  | false =>
    have hapos : 0 < a.size := size_pos_iff.2 hempty
    have hbpos : 0 < b.size := by
      obtain ⟨w, hw⟩ := ha.states.productive_iff.1 (ha.states.productive 0 hapos)
      exact size_pos_of_accepts (w := w) (by rw [← hsame]; exact hw)
    obtain ⟨hawf, hasame, hamin⟩ := toGraph_spec ha hat hapos
    obtain ⟨hbwf, hbsame, hbmin⟩ := toGraph_spec hb hbt hbpos
    have hgraph : ∀ w, a.toGraph.accepts w = b.toGraph.accepts w := fun w => by
      rw [hasame, hbsame, hsame]
    have hsize : a.toGraph.size = b.toGraph.size := Nat.le_antisymm
      (hamin b.toGraph fun w => by rw [← hgraph, hasame])
      (hbmin a.toGraph fun w => by rw [hgraph, hbsame])
    by_cases hlt : a.toGraph.size < 2
    · exact hawf.states.eq_of_size_lt hbwf.states hsize hlt hgraph
    · have hage : ¬ a.size < 2 := fun h => hlt (by rwa [toGraph_of_size_lt hat h])
      have hbge : ¬ b.size < 2 := fun h => hlt (by rwa [hsize, toGraph_of_size_lt hbt h])
      obtain ⟨g, root, heq, hg, -, hgsame⟩ := exists_toGraph ha hat hage
      obtain ⟨g', root', heq', hg', -, hgsame'⟩ := exists_toGraph hb hbt hbge
      obtain ⟨ψ, rfl, hψ, hinj, hstate⟩ := hg.exists_iso hg' fun w => by
        rw [hgsame, hgsame', hsame]
      rw [heq, heq']
      exact (renumbered_eq_of_iso hψ hinj hg.target_lt hstate hg.root_lt hg'.target_lt).symm

theorem wellFormed_toTree (h : c.WellFormed) : c.toTree.WellFormed := by
  obtain ⟨-, hwf, htree, -⟩ := toTree_spec h
  exact ⟨hwf, fun _ => htree⟩

theorem accepts_toTree (h : c.WellFormed) (w : List UInt8) : c.toTree.accepts w = c.accepts w :=
  (toTree_spec h).2.2.2.2 w

theorem toGraph_of_graph (hform : c.form = .graph) : c.toGraph = c := by
  rw [toGraph, hform]

theorem wellFormed_toGraph (h : c.WellFormed) :
    c.toGraph.WellFormed ∧ ∀ w, c.toGraph.accepts w = c.accepts w := by
  cases hform : c.form with
  | graph =>
    rw [toGraph_of_graph hform]
    exact ⟨h, fun _ => rfl⟩
  | tree =>
    by_cases hpos : 0 < c.size
    · obtain ⟨hwf, hsame, -⟩ := toGraph_spec h hform hpos
      exact ⟨hwf, hsame⟩
    · rw [toGraph_of_size_lt hform (by omega)]
      exact ⟨h, fun _ => rfl⟩

theorem toGraph_toTree_spec (h : c.WellFormed) :
    c.toTree.toGraph.WellFormed ∧ ∀ w, c.toTree.toGraph.accepts w = c.accepts w := by
  obtain ⟨hwf, hsame⟩ := wellFormed_toGraph (wellFormed_toTree h)
  exact ⟨hwf, fun w => (hsame w).trans (accepts_toTree h w)⟩

theorem states_toGraph_toTree_eq (ha : a.WellFormed) (hb : b.WellFormed)
    (hsame : ∀ w, a.accepts w = b.accepts w) :
    a.toTree.toGraph.states = b.toTree.toGraph.states :=
  states_toGraph_eq (wellFormed_toTree ha) (wellFormed_toTree hb) form_toTree form_toTree fun w => by
    rw [accepts_toTree ha, accepts_toTree hb, hsame]

end CharSet
end ByteMatch
