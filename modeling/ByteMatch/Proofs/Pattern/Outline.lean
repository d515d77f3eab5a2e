import Mathlib.Logic.Relation
import ByteMatch.Pattern.Outline
import ByteMatch.Proofs.Automaton.Paths

/-!
# ByteMatch.Proofs.Pattern.Outline

The nodes below a node, in patterns without cycles.

* `Pattern.Child`, `Pattern.Reaches`: what is below a node.
* `Pattern.Acyclic`: the nodes below the root are there, and none is below itself.
  `Pattern.acyclic_of_lt` is a simple condition for it.
* `Pattern.Acyclic.induction`: so what holds of a node if it holds of its children holds of all.
* `Pattern.Acyclic.outline_eq`, `Pattern.Acyclic.leading_eq`: outlines and chains of first children are
  complete.
* `Pattern.Alike`: patterns that differ only in what has been found out about their nodes.
-/

namespace ByteMatch

/-- What comes with a node, without what is found out about it while the pattern is compiled. -/
def Node.given (n : Node) : Node :=
  { n with
    attributes := { n.attributes with
      controlling := false, previewed := false, guardTested := false, atBufferStart := false,
      referenced := false }
    mark := none
    guard := none }

namespace Pattern

variable {p q r : Pattern} {root i j n m : Nat}

/-- A node is a child of another one. -/
def Child (p : Pattern) (i j : Nat) : Prop := j ∈ (p.node i).children

/-- A node is another one or below it. -/
def Reaches (p : Pattern) : Nat → Nat → Prop := Relation.ReflTransGen p.Child

/-- The nodes below the root are nodes of the pattern, and none is below itself. -/
structure Acyclic (p : Pattern) (root : Nat) : Prop where
  lt : ∀ i, p.Reaches root i → i < p.nodes.size
  acyclic : ∀ i, p.Reaches root i → ¬ Relation.TransGen p.Child i i

/-- Chains of children from a node have at most `n` nodes. -/
def Fits (p : Pattern) : Nat → Nat → Prop
  | 0, _ => False
  | n + 1, i => ∀ j ∈ (p.node i).children, p.Fits n j

/-- A chain that is too long consists of different nodes below its start. -/
theorem exists_chain (hacyc : p.Acyclic root) (hi : p.Reaches root i) (h : ¬ p.Fits n i) :
    ∃ l : List Nat, l.length = n + 1 ∧ l.Nodup ∧ ∀ x ∈ l, p.Reaches i x := by
  induction n generalizing i with
  | zero => exact ⟨[i], rfl, by simp, by simpa using .refl⟩
  | succ n ih =>
    simp only [Fits, not_forall] at h
    obtain ⟨j, hchild, hj⟩ := h
    obtain ⟨l, hlen, hnodup, hl⟩ := ih (hi.tail hchild) hj
    have hfresh : i ∉ l := fun hmem => hacyc.acyclic i hi (.head' hchild (hl i hmem))
    refine ⟨i :: l, by simp [hlen], List.nodup_cons.2 ⟨hfresh, hnodup⟩, fun x hx => ?_⟩
    rcases List.mem_cons.1 hx with rfl | hx
    · exact .refl
    · exact .head hchild (hl x hx)

theorem outlineTo_eq (h : p.Fits n i) (hle : n ≤ m) : p.outlineTo m i = p.outlineTo n i := by
  induction n generalizing i m with
  | zero => exact h.elim
  | succ n ih =>
    obtain ⟨m, rfl⟩ : ∃ k, m = k + 1 := ⟨m - 1, by omega⟩
    rw [outlineTo, outlineTo]
    congr 1
    exact List.map_congr_left fun j hj => ih (h j hj) (by omega)

theorem leadingTo_eq (h : p.Fits n i) (hle : n ≤ m) : p.leadingTo m i = p.leadingTo n i := by
  induction n generalizing i m with
  | zero => exact h.elim
  | succ n ih =>
    obtain ⟨m, rfl⟩ : ∃ k, m = k + 1 := ⟨m - 1, by omega⟩
    rw [leadingTo, leadingTo]
    cases hc : (p.node i).children with
    | nil => rfl
    | cons j rest =>
      simp only
      rw [ih (h j (by simp [hc])) (by omega)]

namespace Acyclic

variable (h : p.Acyclic root)
include h

theorem fits (hi : p.Reaches root i) : p.Fits p.nodes.size i := by
  by_contra hnot
  obtain ⟨l, hlen, hnodup, hl⟩ := exists_chain h hi hnot
  have := Automaton.length_le_of_nodup hnodup fun x hx => h.lt x (hi.trans (hl x hx))
  omega

/-- What holds of a node if it holds of its children holds of all nodes. -/
theorem induction {motive : (i : Nat) → p.Reaches root i → Prop}
    (step : ∀ i (hi : p.Reaches root i),
      (∀ j (hj : j ∈ (p.node i).children), motive j (hi.tail hj)) → motive i hi)
    (i : Nat) (hi : p.Reaches root i) : motive i hi := by
  have key : ∀ n i, p.Fits n i → ∀ hi : p.Reaches root i, motive i hi := by
    intro n
    induction n with
    | zero => exact fun i hfits => hfits.elim
    | succ n ih => exact fun i hfits hi => step i hi fun j hj => ih j (hfits j hj) (hi.tail hj)
  exact key _ i (h.fits hi) hi

theorem exists_fits (hi : p.Reaches root i) :
    ∃ n, p.nodes.size = n + 1 ∧ ∀ j ∈ (p.node i).children, p.Fits n j := by
  have hfits := h.fits hi
  cases hsize : p.nodes.size with
  | zero =>
    rw [hsize] at hfits
    exact hfits.elim
  | succ n =>
    rw [hsize] at hfits
    exact ⟨n, rfl, hfits⟩

theorem outline_eq (hi : p.Reaches root i) :
    p.outline i = .node i ((p.node i).children.map p.outline) := by
  obtain ⟨n, hsize, hfits⟩ := h.exists_fits hi
  rw [outline, hsize, outlineTo]
  congr 1
  refine List.map_congr_left fun j hj => ?_
  rw [outline, hsize, outlineTo_eq (hfits j hj) (Nat.le_succ n)]

theorem place_outline (hi : p.Reaches root i) : (p.outline i).place = i := by
  rw [h.outline_eq hi, Outline.place]

/-- The chain of first children goes on from the first child. -/
theorem leading_eq (hi : p.Reaches root i) : p.leading i =
    i :: match (p.node i).children with
      | [] => []
      | j :: _ => p.leading j := by
  obtain ⟨n, hsize, hfits⟩ := h.exists_fits hi
  rw [leading, hsize, leadingTo]
  cases hc : (p.node i).children with
  | nil => rfl
  | cons j rest =>
    simp only
    rw [leading, hsize, leadingTo_eq (hfits j (by simp [hc])) (Nat.le_succ n)]

end Acyclic

/-- A pattern in which nodes come before their children has no cycles. -/
theorem acyclic_of_lt (hroot : root < p.nodes.size)
    (h : ∀ i < p.nodes.size, ∀ j ∈ (p.node i).children, i < j ∧ j < p.nodes.size) :
    p.Acyclic root := by
  have hlt : ∀ i, p.Reaches root i → i < p.nodes.size := by
    intro i hi
    induction hi with
    | refl => exact hroot
    | tail _ hchild ih => exact (h _ ih _ hchild).2
  refine ⟨hlt, fun i hi hcycle => ?_⟩
  have hbelow : ∀ j, Relation.TransGen p.Child i j → i < j ∧ j < p.nodes.size := by
    intro j hj
    induction hj with
    | single hchild => exact h i (hlt i hi) _ hchild
    | tail _ hchild ih =>
      obtain ⟨hnext, hsize⟩ := h _ ih.2 _ hchild
      exact ⟨Nat.lt_trans ih.1 hnext, hsize⟩
  exact Nat.lt_irrefl _ (hbelow i hcycle).1

/-! ## Changes to nodes -/

/-- Patterns that differ only in what has been found out about their nodes. -/
def Alike (p q : Pattern) : Prop :=
  p.nodes.size = q.nodes.size ∧ ∀ i, (p.node i).given = (q.node i).given

theorem node_update {f : Node → Node} :
    (p.update i f).node j = if i = j ∧ j < p.nodes.size then f (p.node j) else p.node j := by
  rw [update, node, node, Array.getD_eq_getD_getElem?, Array.getD_eq_getD_getElem?,
    Array.getElem?_modify]
  by_cases hj : j < p.nodes.size
  · rw [Array.getElem?_eq_getElem hj]
    by_cases hij : i = j <;> simp [hij, hj]
  · rw [Array.getElem?_eq_none (Nat.le_of_not_lt hj)]
    by_cases hij : i = j <;> simp [hij, hj]

theorem alike_update {f : Node → Node} (hf : ∀ n, (f n).given = n.given) :
    (p.update i f).Alike p := by
  refine ⟨by simp [update], fun j => ?_⟩
  rw [node_update]
  split
  · exact hf _
  · rfl

theorem alike_updateAttributes {f : Attributes → Attributes}
    (hf : ∀ n : Node, { n with attributes := f n.attributes }.given = n.given) :
    (p.updateAttributes i f).Alike p := alike_update hf

/-- What is below a node depends on the children only. -/
theorem outline_of_same (hsize : p.nodes.size = q.nodes.size)
    (hchildren : ∀ i, (p.node i).children = (q.node i).children) : p.outline = q.outline := by
  have key : ∀ n i, p.outlineTo n i = q.outlineTo n i := by
    intro n
    induction n with
    | zero => exact fun i => rfl
    | succ n ih =>
      intro i
      rw [outlineTo, outlineTo, hchildren]
      congr 1
      exact List.map_congr_left fun j _ => ih j
  funext i
  rw [outline, outline, hsize, key]

namespace Alike

theorem refl (p : Pattern) : p.Alike p := ⟨rfl, fun _ => rfl⟩

theorem trans (h : p.Alike q) (h' : q.Alike r) : p.Alike r :=
  ⟨h.1.trans h'.1, fun i => (h.2 i).trans (h'.2 i)⟩

variable (h : p.Alike q)
include h

theorem kind (i : Nat) : (p.node i).kind = (q.node i).kind := by
  have hgiven := congrArg Node.kind (h.2 i)
  exact hgiven

theorem children (i : Nat) : (p.node i).children = (q.node i).children := by
  have hgiven := congrArg Node.children (h.2 i)
  exact hgiven

theorem preview (i : Nat) : (p.node i).preview = (q.node i).preview := by
  have hgiven := congrArg Node.preview (h.2 i)
  exact hgiven

theorem lookAhead (i : Nat) : (p.node i).lookAhead = (q.node i).lookAhead := by
  have hgiven := congrArg Node.lookAhead (h.2 i)
  exact hgiven

theorem attributes {i : Nat} {β : Type} (f : Attributes → β)
    (hf : ∀ n : Node, f n.given.attributes = f n.attributes) :
    f (p.node i).attributes = f (q.node i).attributes := by
  rw [← hf (p.node i), h.2 i, hf]

theorem outline : p.outline = q.outline := outline_of_same h.1 h.children

theorem leading : p.leading = q.leading := by
  have key : ∀ n i, p.leadingTo n i = q.leadingTo n i := by
    intro n
    induction n with
    | zero => exact fun i => rfl
    | succ n ih =>
      intro i
      rw [leadingTo, leadingTo, h.children]
      cases (q.node i).children with
      | nil => rfl
      | cons j rest => simp only [ih]
  funext i
  rw [Pattern.leading, Pattern.leading, h.1, key]

end Alike
end Pattern
end ByteMatch
