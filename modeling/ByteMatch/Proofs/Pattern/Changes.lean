import ByteMatch.Proofs.Pattern.Tree

/-!
# ByteMatch.Proofs.Pattern.Changes

Changes to some of the nodes of a pattern.

* `Pattern.updateEach`, `Pattern.node_updateEach`: changes nodes one after the other, each with a number of
  its own.
* `Pattern.SameUpTo`: patterns whose nodes differ only in some of what is known about them.
* `Pattern.Tree.of_same`: a tree stays one if the children of its nodes do not change.
-/

namespace ByteMatch
namespace Pattern

variable {p q r : Pattern} {root i j k : Nat} {is : List Nat}

/-! ## Nodes with numbers -/

theorem size_update {f : Node → Node} : (p.update i f).nodes.size = p.nodes.size := by
  rw [update, Array.size_modify]

/-- Changes nodes one after the other. The first one has the number `k`. -/
def updateEach (f : Nat → Node → Node) (p : Pattern) : Nat → List Nat → Pattern
  | _, [] => p
  | k, i :: rest => updateEach f (p.update i (f k)) (k + 1) rest

section UpdateEach

variable {f : Nat → Node → Node}

theorem size_updateEach : (p.updateEach f k is).nodes.size = p.nodes.size := by
  induction is generalizing p k with
  | nil => rfl
  | cons i rest ih => rw [updateEach, ih, size_update]

theorem updateEach_eq : p.updateEach f k is = { p with nodes := (p.updateEach f k is).nodes } := by
  induction is generalizing p k with
  | nil => rfl
  | cons i rest ih => rw [updateEach, ih, update]

/-- Each node is changed with its own number. -/
theorem node_updateEach (hlt : ∀ i ∈ is, i < p.nodes.size) (hnodup : is.Nodup) :
    (p.updateEach f k is).node j = if j ∈ is then f (k + is.idxOf j) (p.node j) else p.node j := by
  induction is generalizing p k with
  | nil => rfl
  | cons i rest ih =>
    obtain ⟨hfresh, hnodup⟩ := List.nodup_cons.1 hnodup
    rw [updateEach, ih (fun j hj => by rw [size_update]; exact hlt j (List.mem_cons_of_mem _ hj)) hnodup]
    by_cases hij : i = j
    · subst hij
      have hi : i < p.nodes.size := hlt i List.mem_cons_self
      rw [if_neg hfresh, node_update, if_pos ⟨rfl, hi⟩, if_pos List.mem_cons_self, List.idxOf_cons_self]
      rfl
    · have hsame : (p.update i (f k)).node j = p.node j := by
        rw [node_update, if_neg fun h => hij h.1]
      rw [hsame, List.idxOf_cons_ne _ hij]
      by_cases hj : j ∈ rest
      · rw [if_pos hj, if_pos (List.mem_cons_of_mem _ hj), Nat.add_assoc, Nat.add_comm 1]
      · rw [if_neg hj, if_neg fun hmem => (List.mem_cons.1 hmem).elim (fun h => hij h.symm) hj]

end UpdateEach

/-! ## Nodes that are partly the same -/

/-- Patterns whose nodes agree in what `f` leaves of them. -/
structure SameUpTo (f : Node → Node) (p q : Pattern) : Prop where
  size : p.nodes.size = q.nodes.size
  node : ∀ i, f (p.node i) = f (q.node i)

namespace SameUpTo

variable {f : Node → Node}

theorem refl (p : Pattern) : p.SameUpTo f p := ⟨rfl, fun _ => rfl⟩

theorem symm (h : p.SameUpTo f q) : q.SameUpTo f p := ⟨h.size.symm, fun i => (h.node i).symm⟩

theorem trans (h : p.SameUpTo f q) (h' : q.SameUpTo f r) : p.SameUpTo f r :=
  ⟨h.size.trans h'.size, fun i => (h.node i).trans (h'.node i)⟩

theorem of_update {g : Node → Node} (hg : f (g (p.node i)) = f (p.node i)) :
    (p.update i g).SameUpTo f p := by
  refine ⟨size_update, fun j => ?_⟩
  rw [node_update]
  split
  · rename_i hij
    rw [← hij.1, hg]
  · rfl

/-- What can be read off the part that is the same. -/
theorem get {β : Type} (h : p.SameUpTo f q) (g : Node → β) (hg : ∀ n, g (f n) = g n) (i : Nat) :
    g (p.node i) = g (q.node i) := by
  rw [← hg (p.node i), h.node, hg]

end SameUpTo

theorem child_of_same (hchildren : ∀ i, (q.node i).children = (p.node i).children) : q.Child = p.Child := by
  funext i j
  rw [Child, Child, hchildren]

theorem reaches_of_same (hchildren : ∀ i, (q.node i).children = (p.node i).children) :
    q.Reaches = p.Reaches := by
  rw [Reaches, Reaches, child_of_same hchildren]

theorem Acyclic.of_same (h : p.Acyclic root) (hsize : q.nodes.size = p.nodes.size)
    (hchildren : ∀ i, (q.node i).children = (p.node i).children) : q.Acyclic root := by
  have hchild := child_of_same hchildren
  have hreaches := reaches_of_same hchildren
  refine ⟨?_, ?_⟩
  · rw [hreaches, hsize]
    exact h.lt
  · rw [hreaches, hchild]
    exact h.acyclic

theorem Tree.of_same (h : p.Tree root) (hsize : q.nodes.size = p.nodes.size)
    (hchildren : ∀ i, (q.node i).children = (p.node i).children) (hgroup : (q.node root).kind = .group) :
    q.Tree root := by
  have hchild := child_of_same hchildren
  have hreaches := reaches_of_same hchildren
  refine ⟨h.toAcyclic.of_same hsize hchildren, hgroup, ?_, ?_⟩
  · rw [hreaches, hchild]
    exact h.parent_unique
  · rw [hreaches]
    simpa only [hchildren] using h.children_nodup

end Pattern
end ByteMatch
