import Mathlib.Data.List.Nodup
import ByteMatch.Proofs.Pattern.Outline

/-!
# ByteMatch.Proofs.Pattern.Tree

Patterns whose nodes make a tree.

* `Pattern.Tree`: the root is a group, and each of the other nodes below it occurs once, as the child of one
  node.
* `Pattern.Tree.comparable`, `Pattern.Tree.sibling_eq`: of two nodes above a third one, one is above the
  other. So what is below two children of a node is different.
* `Pattern.Acyclic.mem_preorder`, `Pattern.Tree.preorder_nodup`: a walk comes to each node once.
* `Outline.postorder`: the order in which nodes are left. `Pattern.Tree.postorder_pairwise` says what it is.
-/

namespace ByteMatch
namespace Outline

mutual

/-- The places, each after those below it. -/
def postorder : Outline → List Nat
  | node i children => postorderList children ++ [i]

/-- The places of several outlines. -/
def postorderList : List Outline → List Nat
  | [] => []
  | o :: rest => postorder o ++ postorderList rest

end

theorem preorderList_map {f : Nat → Outline} {is : List Nat} :
    preorderList (is.map f) = is.flatMap fun i => (f i).preorder := by
  induction is with
  | nil => rfl
  | cons i rest ih => rw [List.map_cons, preorderList, ih, List.flatMap_cons]

theorem postorderList_map {f : Nat → Outline} {is : List Nat} :
    postorderList (is.map f) = is.flatMap fun i => (f i).postorder := by
  induction is with
  | nil => rfl
  | cons i rest ih => rw [List.map_cons, postorderList, ih, List.flatMap_cons]

end Outline

namespace Pattern

variable {p q : Pattern} {root i j k c d : Nat}

/-- The nodes below the root make a tree. The root is a group, and each other node occurs once among the
children of one node. -/
structure Tree (p : Pattern) (root : Nat) : Prop extends p.Acyclic root where
  root_group : (p.node root).kind = .group
  parent_unique : ∀ i j k, p.Reaches root i → p.Reaches root j → p.Child i k → p.Child j k → i = j
  children_nodup : ∀ i, p.Reaches root i → (p.node i).children.Nodup

/-! ## Walks -/

namespace Acyclic

variable (h : p.Acyclic root)
include h

theorem preorder_eq (hi : p.Reaches root i) : (p.outline i).preorder =
    i :: (p.node i).children.flatMap fun j => (p.outline j).preorder := by
  rw [h.outline_eq hi, Outline.preorder, Outline.preorderList_map]

theorem postorder_eq (hi : p.Reaches root i) : (p.outline i).postorder =
    ((p.node i).children.flatMap fun j => (p.outline j).postorder) ++ [i] := by
  rw [h.outline_eq hi, Outline.postorder, Outline.postorderList_map]

/-- A walk comes to the nodes below its start. -/
theorem mem_preorder (hi : p.Reaches root i) : j ∈ (p.outline i).preorder ↔ p.Reaches i j := by
  induction i, hi using h.induction with
  | step i hi ih =>
    rw [h.preorder_eq hi, List.mem_cons, List.mem_flatMap]
    constructor
    · rintro (rfl | ⟨c, hc, hj⟩)
      · exact .refl
      · exact .head hc ((ih c hc).1 hj)
    · intro hj
      rcases Relation.ReflTransGen.cases_head hj with rfl | ⟨c, hc, hj⟩
      · exact .inl rfl
      · exact .inr ⟨c, hc, (ih c hc).2 hj⟩

theorem postorder_perm (hi : p.Reaches root i) :
    (p.outline i).postorder.Perm (p.outline i).preorder := by
  induction i, hi using h.induction with
  | step i hi ih =>
    rw [h.preorder_eq hi, h.postorder_eq hi]
    refine (List.perm_append_singleton _ _).trans (.cons i ?_)
    exact .flatMap_left _ fun j hj => ih j hj

theorem mem_postorder (hi : p.Reaches root i) : j ∈ (p.outline i).postorder ↔ p.Reaches i j := by
  rw [(h.postorder_perm hi).mem_iff, h.mem_preorder hi]

/-- No node is below itself. -/
theorem not_reaches_of_child (hi : p.Reaches root i) (hchild : p.Child i j) : ¬ p.Reaches j i :=
  fun hback => h.acyclic i hi (.head' hchild hback)

theorem eq_of_reaches (hi : p.Reaches root i) (hij : p.Reaches i j) (hji : p.Reaches j i) : i = j := by
  rcases Relation.ReflTransGen.cases_head hij with rfl | ⟨c, hc, hcj⟩
  · rfl
  · exact absurd (hcj.trans hji) (h.not_reaches_of_child hi hc)

end Acyclic

namespace Tree

variable (h : p.Tree root)
include h

/-- Of two nodes above a third one, one is above the other. -/
theorem comparable (hi : p.Reaches root i) (hj : p.Reaches root j) (hik : p.Reaches i k)
    (hjk : p.Reaches j k) : p.Reaches i j ∨ p.Reaches j i := by
  induction hik with
  | refl => exact .inr hjk
  | @tail m k him hmk ih =>
    rcases Relation.ReflTransGen.cases_tail hjk with rfl | ⟨m', hjm, hmk'⟩
    · exact .inl (him.tail hmk)
    · obtain rfl := h.parent_unique m m' k (hi.trans him) (hj.trans hjm) hmk hmk'
      exact ih hjm

/-- The nodes below two children of a node are different. -/
theorem sibling_eq (hi : p.Reaches root i) (hc : p.Child i c) (hd : p.Child i d)
    (hck : p.Reaches c k) (hdk : p.Reaches d k) : c = d := by
  -- a child that is below a sibling would have its parent there, too
  have hbelow : ∀ {c d}, p.Child i c → p.Child i d → p.Reaches c d → c = d := by
    intro c d hc hd hcd
    rcases Relation.ReflTransGen.cases_tail hcd with heq | ⟨m, hcm, hmd⟩
    · exact heq.symm
    · obtain rfl := h.parent_unique m i d ((hi.tail hc).trans hcm) hi hmd hd
      exact absurd hcm (h.not_reaches_of_child hi hc)
  rcases h.comparable (hi.tail hc) (hi.tail hd) hck hdk with hcd | hdc
  · exact hbelow hc hd hcd
  · exact (hbelow hd hc hdc).symm

theorem preorder_nodup (hi : p.Reaches root i) : (p.outline i).preorder.Nodup := by
  have hacyclic := h.toAcyclic
  induction i, hi using hacyclic.induction with
  | step i hi ih =>
    rw [hacyclic.preorder_eq hi, List.nodup_cons, List.nodup_flatMap]
    refine ⟨fun hmem => ?_, ih, ?_⟩
    · obtain ⟨c, hc, hback⟩ := List.mem_flatMap.1 hmem
      exact h.not_reaches_of_child hi hc ((hacyclic.mem_preorder (hi.tail hc)).1 hback)
    · refine (List.pairwise_iff_forall_sublist.2 fun {c d} hsub => ?_)
      have hc : p.Child i c := hsub.subset (by simp)
      have hd : p.Child i d := hsub.subset (by simp)
      have hne : c ≠ d := by
        have := hsub.nodup (h.children_nodup i hi)
        simpa using this
      intro x hx hx'
      exact hne (h.sibling_eq hi hc hd ((hacyclic.mem_preorder (hi.tail hc)).1 hx)
        ((hacyclic.mem_preorder (hi.tail hd)).1 hx'))

/-- Of two nodes, the one that is left first is below the other one, or it is not above the other one and
has been entered first. The nodes are entered in the order of `rank`. -/
theorem postorder_pairwise {rank : Nat → Nat} (hi : p.Reaches root i)
    (hrank : (p.outline i).preorder.Pairwise (rank · < rank ·)) :
    (p.outline i).postorder.Pairwise fun a b =>
      p.Reaches b a ∨ (rank a < rank b ∧ ¬ p.Reaches a b) := by
  have hacyclic := h.toAcyclic
  induction i, hi using hacyclic.induction with
  | step i hi ih =>
    rw [hacyclic.preorder_eq hi, List.pairwise_cons, List.pairwise_flatMap] at hrank
    obtain ⟨-, hinner, hacross⟩ := hrank
    rw [hacyclic.postorder_eq hi, List.pairwise_append, List.pairwise_flatMap]
    refine ⟨⟨fun c hc => ih c hc (hinner c hc), ?_⟩, List.pairwise_singleton _ _, ?_⟩
    · refine List.pairwise_iff_forall_sublist.2 fun {c d} hsub a ha b hb => .inr ⟨?_, fun hab => ?_⟩
      · have hlt := List.pairwise_iff_forall_sublist.1 hacross hsub
        have hc : p.Child i c := hsub.subset (by simp)
        have hd : p.Child i d := hsub.subset (by simp)
        rw [(hacyclic.postorder_perm (hi.tail hc)).mem_iff] at ha
        rw [(hacyclic.postorder_perm (hi.tail hd)).mem_iff] at hb
        exact hlt a ha b hb
      · have hc : p.Child i c := hsub.subset (by simp)
        have hd : p.Child i d := hsub.subset (by simp)
        have hne : c ≠ d := by simpa using hsub.nodup (h.children_nodup i hi)
        rw [hacyclic.mem_postorder (hi.tail hc)] at ha
        rw [hacyclic.mem_postorder (hi.tail hd)] at hb
        exact hne (h.sibling_eq hi hc hd (ha.trans hab) hb)
    · intro a ha b hb
      obtain rfl := List.mem_singleton.1 hb
      obtain ⟨c, hc, ha⟩ := List.mem_flatMap.1 ha
      exact .inl (.head hc ((hacyclic.mem_postorder (hi.tail hc)).1 ha))

end Tree

/-- A pattern in which nodes come before their children, and each is the child of one node, is a tree. -/
theorem tree_of_lt (hroot : root < p.nodes.size) (hgroup : (p.node root).kind = .group)
    (hlt : ∀ i < p.nodes.size, ∀ j ∈ (p.node i).children, i < j ∧ j < p.nodes.size)
    (hunique : ∀ i < p.nodes.size, ∀ k ∈ (p.node i).children, ∀ j < p.nodes.size,
      k ∈ (p.node j).children → i = j)
    (hnodup : ∀ i < p.nodes.size, (p.node i).children.Nodup) : p.Tree root := by
  have hacyclic := acyclic_of_lt hroot hlt
  exact ⟨hacyclic, hgroup, fun i j k hi hj hik hjk =>
    hunique i (hacyclic.lt i hi) k hik j (hacyclic.lt j hj) hjk, fun i hi => hnodup i (hacyclic.lt i hi)⟩

end Pattern
end ByteMatch
