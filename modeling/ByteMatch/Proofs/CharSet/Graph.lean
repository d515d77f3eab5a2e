import ByteMatch.Proofs.Automaton.Minimal
import ByteMatch.Proofs.CharSet.Equality

/-!
# ByteMatch.Proofs.CharSet.Graph

The form of a graph is the smallest one, and it does not depend on the tree that it is made from.

* `CharSet.ToGraphEnds`: the loops that merge the states of a tree end.
* `CharSet.exists_toGraph`: the states of the graph are those of a reduced automaton.
* `CharSet.toGraph_toTree_toGraph`: the graph is the same after it has been a tree.
* `CharSet.toGraph_minimal`: the graph accepts the same, nothing with less states does, and a tree
  made from it leads back to it.
-/

namespace ByteMatch
namespace CharSet

open Automaton

variable {c d : CharSet}

/-- The loops that resolve and number the states of a tree come to an end. -/
def ToGraphEnds (c : CharSet) : Prop :=
  c.form = .tree → ¬ c.size < 2 →
    Loop.Ends c.states.resolveStep ([.enter 0], .start c.size) ([], c.states.resolveAll) ∧
    ∃ root r, c.states.resolveAll.resolution 0 = .kept root ∧
      Loop.Ends c.states.resolveAll.graph.rankStep (0, c.states.resolveAll.graph.rankStart root) r

theorem toGraphEnds (h : c.WellFormed) : c.ToGraphEnds := by
  intro htree hsize
  have hpos : 0 < c.states.size := Nat.lt_of_lt_of_le (by decide) (Nat.le_of_not_lt hsize)
  obtain ⟨hends, hmerged, hkept⟩ := resolveAll_spec h.states (h.tree htree) hpos
  have hreduced := hmerged.reduced h.states hpos hkept
  obtain ⟨⟨r, hr, -⟩, -⟩ := breadthFirst_spec hreduced.target_lt hreduced.root_lt
  exact ⟨hends, _, r, (hkept 0 hpos).resolution, hr⟩

/-- The states of the graph are those of a reduced automaton, numbered breadth first. -/
theorem exists_toGraph (h : c.WellFormed) (htree : c.form = .tree) (hsize : ¬ c.size < 2) :
    ∃ (g : Automaton) (root : Nat), c.toGraph = ⟨c.encoding, g.renumbered root, .graph⟩ ∧
      g.Reduced root ∧ g.Acyclic ∧ ∀ w, g.acceptsFrom root w = c.accepts w := by
  have hpos : 0 < c.states.size := Nat.lt_of_lt_of_le (by decide) (Nat.le_of_not_lt hsize)
  obtain ⟨g, root, hmerge, hreduced, hacyc, haccepts⟩ := merge?_spec h.states (h.tree htree) hpos
  refine ⟨g, root, ?_, hreduced, hacyc, haccepts⟩
  rw [toGraph, htree]
  simp only [hsize, if_false, hmerge]

theorem toGraph_of_size_lt (htree : c.form = .tree) (hsize : c.size < 2) : c.toGraph = c := by
  rw [toGraph, htree]
  simp only [hsize, if_true]

theorem form_toTree : c.toTree.form = .tree := by
  rw [toTree]
  split
  · assumption
  · rfl

theorem size_pos_of_accepts {w : List UInt8} (h : c.accepts w = true) : 0 < c.size := by
  refine size_pos_iff.2 ?_
  rw [← Bool.not_eq_true]
  intro hempty
  rw [accepts_of_isEmpty hempty] at h
  cases h

/-- The graph accepts the same as the tree, and nothing with less states does. -/
theorem toGraph_spec (h : c.WellFormed) (htree : c.form = .tree) (hpos : 0 < c.size) :
    c.toGraph.WellFormed ∧ (∀ w, c.toGraph.accepts w = c.accepts w) ∧
      ∀ d : CharSet, (∀ w, d.accepts w = c.accepts w) → c.toGraph.size ≤ d.size := by
  by_cases hsize : c.size < 2
  · rw [toGraph_of_size_lt htree hsize]
    refine ⟨h, fun _ => rfl, fun d hsame => ?_⟩
    obtain ⟨w, hw⟩ := h.states.productive_iff.1 (h.states.productive 0 hpos)
    have := size_pos_of_accepts (c := d) (w := w) (by rw [hsame]; exact hw)
    omega
  · obtain ⟨g, root, heq, hreduced, hacyc, hsame⟩ := exists_toGraph h htree hsize
    obtain ⟨hwf, hmin, haccepts⟩ := hreduced.renumbered_spec hacyc
    rw [heq]
    refine ⟨⟨hwf, fun hform => nomatch hform⟩, fun w => (haccepts w).trans (hsame w),
      fun d hd => ?_⟩
    exact hmin.size_le fun w => ((haccepts w).trans (hsame w)).trans (hd w).symm

theorem toGraph_toTree_toGraph (h : c.WellFormed) (htree : c.form = .tree) (hpos : 0 < c.size) :
    c.toGraph.toTree.toGraph.states = c.toGraph.states := by
  obtain ⟨hwf, hsame, hmin⟩ := toGraph_spec h htree hpos
  obtain ⟨-, htwf, htisTree, -, htsame⟩ := toTree_spec hwf
  have hform : c.toGraph.toTree.form = .tree := form_toTree
  by_cases hsize : c.toGraph.size < 2
  · -- too small to be a tree of another form
    have hstates : c.toGraph.toTree.states = c.toGraph.states := by
      rw [toTree]
      split
      · rfl
      · simp only [hsize, if_true]
    have hsize' : c.toGraph.toTree.size < 2 := by rwa [size, hstates]
    rw [toGraph_of_size_lt hform hsize', hstates]
  · have hge : ¬ c.size < 2 := by
      intro hlt
      rw [toGraph_of_size_lt htree hlt] at hsize
      exact hsize hlt
    have hge' : ¬ c.toGraph.toTree.size < 2 := by
      have := hmin c.toGraph.toTree fun w => (htsame w).trans (hsame w)
      omega
    obtain ⟨g, root, heq, hg, -, hgsame⟩ := exists_toGraph h htree hge
    obtain ⟨g', root', heq', hg', -, hgsame'⟩ := exists_toGraph ⟨htwf, fun _ => htisTree⟩ hform hge'
    -- both trees lead to reduced automata that accept the same
    obtain ⟨ψ, rfl, hlt, hinj, hstate⟩ := hg.exists_iso hg' fun w => by
      rw [hgsame, hgsame', htsame, hsame]
    rw [heq', heq]
    exact renumbered_eq_of_iso hlt hinj hg.target_lt hstate hg.root_lt hg'.target_lt

/-- A tree becomes the smallest graph that accepts the same. A tree is made from it again, and that
one becomes the same graph, state by state. -/
theorem toGraph_minimal (h : c.WellFormed) (htree : c.form = .tree) (hpos : 0 < c.size) :
    c.ToGraphEnds ∧ (∀ w, c.toGraph.accepts w = c.accepts w) ∧
      c.toGraph.states.Acyclic ∧
      (∀ q, (c.toGraph.states.state q).transitions.Disjoint) ∧
      (∀ q, q < c.toGraph.size → c.toGraph.states.Reaches 0 q) ∧
      (∀ d : CharSet, d.WellFormed → (∀ w, d.accepts w = c.accepts w) →
        c.toGraph.size ≤ d.size) ∧
      c.toGraph.ToTreeEnds ∧ (∀ w, c.toGraph.toTree.accepts w = c.toGraph.accepts w) ∧
      c.toGraph.toTree.form = .tree ∧ c.toGraph.toTree.WellFormed ∧
      c.toGraph.toTree.toGraph.states = c.toGraph.states := by
  obtain ⟨hwf, hsame, hmin⟩ := toGraph_spec h htree hpos
  obtain ⟨hends, htwf, htisTree, -, htsame⟩ := toTree_spec hwf
  exact ⟨toGraphEnds h, hsame, hwf.states.acyclic, hwf.states.labels_disjoint, hwf.states.reachable,
    fun d _ => hmin d, hends, htsame, form_toTree, ⟨htwf, fun _ => htisTree⟩,
    toGraph_toTree_toGraph h htree hpos⟩

theorem toGraph_minimal_split :
    splitTree.WellFormed ∧ splitTree.form = .tree ∧ 0 < splitTree.size ∧
      splitTree.ToGraphEnds ∧ (∀ w, splitTree.toGraph.accepts w = splitTree.accepts w) ∧
      splitTree.toGraph.states.Acyclic ∧
      (∀ q, (splitTree.toGraph.states.state q).transitions.Disjoint) ∧
      (∀ q, q < splitTree.toGraph.size → splitTree.toGraph.states.Reaches 0 q) ∧
      (∀ d : CharSet, d.WellFormed → (∀ w, d.accepts w = splitTree.accepts w) →
        splitTree.toGraph.size ≤ d.size) ∧
      splitTree.toGraph.ToTreeEnds ∧
      (∀ w, splitTree.toGraph.toTree.accepts w = splitTree.toGraph.accepts w) ∧
      splitTree.toGraph.toTree.form = .tree ∧ splitTree.toGraph.toTree.WellFormed ∧
      splitTree.toGraph.toTree.toGraph.states = splitTree.toGraph.states :=
  ⟨wellFormed_splitTree, rfl, by decide,
    toGraph_minimal wellFormed_splitTree rfl (by decide)⟩

end CharSet
end ByteMatch
