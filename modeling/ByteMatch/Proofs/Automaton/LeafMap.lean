import ByteMatch.CharSet.Algebra
import ByteMatch.Proofs.Automaton.Paths

/-!
# ByteMatch.Proofs.Automaton.LeafMap

What is done to trees does not depend on the bytes of their leaves.

Changing the bytes of all leaves first and then walking through trees, aligning them or unfolding a graph
gives the same result as the other way round. So what is known of automata without empty leaves, of which
each state accepts something, carries over to those that have some.

* `Automaton.mapLeaf`: the automaton with other bytes in its leaves.
* `Automaton.copySubtree_mapLeaf`, `Automaton.eraseSubtree_mapLeaf`, `Automaton.compact_mapLeaf`,
  `Automaton.unfold_mapLeaf`: walks through one automaton.
* `Automaton.align_mapLeaf`: the walk through two trees.
* `Alignment.united_mapLeaf`: their union, which adds bytes to leaves.
-/

namespace ByteMatch

variable {g : ByteSet → ByteSet}

namespace State

/-- The state with other bytes in its leaf. -/
def mapLeaf (g : ByteSet → ByteSet) (s : State) : State := { s with leaf := s.leaf.map g }

variable {s : State}

@[simp] theorem transitions_mapLeaf : (s.mapLeaf g).transitions = s.transitions := rfl

@[simp] theorem leaf_mapLeaf : (s.mapLeaf g).leaf = s.leaf.map g := rfl

@[simp] theorem mapLeaf_hole : hole.mapLeaf g = hole := rfl

@[simp] theorem isHole_mapLeaf : (s.mapLeaf g).isHole = s.isHole := by
  rw [isHole, isHole, transitions_mapLeaf, leaf_mapLeaf, Option.isNone_map]

end State

namespace Automaton

/-- The automaton with other bytes in its leaves. -/
def mapLeaf (g : ByteSet → ByteSet) (a : Automaton) : Automaton := a.map (State.mapLeaf g)

variable {a b : Automaton} {p q : Nat} {c : ByteSet}

@[simp] theorem size_mapLeaf : (a.mapLeaf g).size = a.size := Array.size_map

@[simp] theorem state_mapLeaf : (a.mapLeaf g).state q = (a.state q).mapLeaf g := state_map rfl

theorem edge_mapLeaf : (a.mapLeaf g).Edge p c q ↔ a.Edge p c q := by
  rw [Edge, state_mapLeaf, State.transitions_mapLeaf, Edge]

theorem child_mapLeaf : (a.mapLeaf g).Child = a.Child := by
  funext p q
  exact propext (exists_congr fun _ => edge_mapLeaf)

theorem reaches_mapLeaf : (a.mapLeaf g).Reaches p q ↔ a.Reaches p q := by
  rw [Reaches, child_mapLeaf, Reaches]

theorem acyclic_mapLeaf : (a.mapLeaf g).Acyclic ↔ a.Acyclic := by
  rw [Acyclic, child_mapLeaf, Acyclic]

theorem mapLeaf_modify {f f' : State → State} (h : ∀ s, (f s).mapLeaf g = f' (s.mapLeaf g)) :
    mapLeaf g (a.modify q f) = (a.mapLeaf g).modify q f' := by
  refine ext_state (by simp) fun p => ?_
  rw [state_mapLeaf, state_modify, state_modify, size_mapLeaf, state_mapLeaf]
  split
  · exact h _
  · rfl

theorem mapLeaf_setIfInBounds {s : State} :
    mapLeaf g (a.setIfInBounds q s) = (a.mapLeaf g).setIfInBounds q (s.mapLeaf g) := by
  rw [mapLeaf, mapLeaf, Array.map_setIfInBounds]

theorem mapLeaf_push {s : State} : mapLeaf g (a.push s) = (a.mapLeaf g).push (s.mapLeaf g) :=
  Array.map_push

theorem mapLeaf_append : mapLeaf g (a ++ b) = a.mapLeaf g ++ b.mapLeaf g := Array.map_append

theorem mapLeaf_replicate_hole {n : Nat} :
    mapLeaf g (Array.replicate n State.hole) = Array.replicate n State.hole := by
  rw [mapLeaf, Array.map_replicate, State.mapLeaf_hole]

/-! ## Subtrees -/

theorem copyStep_mapLeaf (s : List (Nat × Nat) × Automaton) :
    copyStep (s.1, s.2.mapLeaf g) = Loop.mapStep (fun s => (s.1, s.2.mapLeaf g)) (copyStep s) := by
  obtain ⟨work, a⟩ := s
  cases work with
  | nil => rfl
  | cons e rest =>
    simp only [copyStep, Loop.mapStep, size_mapLeaf, state_mapLeaf, State.transitions_mapLeaf,
      mapLeaf_append, mapLeaf_replicate_hole, mapLeaf_setIfInBounds]
    rfl

theorem copySubtree_mapLeaf : (a.mapLeaf g).copySubtree q = (a.copySubtree q).mapLeaf g := by
  have hstart : (a.mapLeaf g).copyStart q = ((a.copyStart q).1, (a.copyStart q).2.mapLeaf g) := by
    rw [copyStart, copyStart, size_mapLeaf, mapLeaf_push]
    rfl
  rw [copySubtree, copySubtree, hstart, size_mapLeaf, Loop.run_map copyStep_mapLeaf]

theorem eraseStep_mapLeaf (s : List Nat × Automaton) :
    eraseStep (s.1, s.2.mapLeaf g) = Loop.mapStep (fun s => (s.1, s.2.mapLeaf g)) (eraseStep s) := by
  obtain ⟨work, a⟩ := s
  cases work with
  | nil => rfl
  | cons q rest =>
    simp only [eraseStep, Loop.mapStep, state_mapLeaf, State.transitions_mapLeaf, mapLeaf_setIfInBounds,
      State.mapLeaf_hole]

theorem eraseSubtree_mapLeaf : (a.mapLeaf g).eraseSubtree q = (a.eraseSubtree q).mapLeaf g := by
  rw [eraseSubtree, eraseSubtree, size_mapLeaf]
  exact congrArg Prod.snd (Loop.run_map eraseStep_mapLeaf (a.size + 1) ([q], a))

/-! ## Holes -/

theorem popWhile_map {α : Type} {f : α → α} {holds : α → Bool} (h : ∀ x, holds (f x) = holds x)
    (xs : Array α) : (xs.map f).popWhile holds = (xs.popWhile holds).map f := by
  fun_induction Array.popWhile holds xs with
  | case1 xs hpos hlast ih =>
    rw [Array.popWhile]
    simp only [Array.size_map, hpos, dite_true, Array.getElem_map, h, hlast, if_true]
    rw [← ih, Array.map_pop]
  | case2 xs hpos hlast =>
    rw [Array.popWhile]
    simp only [Array.size_map, hpos, dite_true, Array.getElem_map, h, hlast, Bool.false_eq_true, if_false]
  | case3 xs hpos =>
    rw [Array.popWhile]
    simp only [Array.size_map, hpos, dite_false]

theorem dropHoles_mapLeaf : (a.mapLeaf g).dropHoles = a.dropHoles.mapLeaf g :=
  popWhile_map (fun _ => State.isHole_mapLeaf) a

theorem isHole_getElem_mapLeaf (h : q < (a.mapLeaf g).size) (h' : q < a.size) :
    (a.mapLeaf g)[q].isHole = a[q].isHole := by
  rw [← state_of_lt h, state_mapLeaf, State.isHole_mapLeaf, state_of_lt h']

theorem fillHoles_mapLeaf {slot : Nat} {moved : Matching} : (a.mapLeaf g).fillHoles slot moved =
    ((a.fillHoles slot moved).1.mapLeaf g, (a.fillHoles slot moved).2) := by
  fun_induction fillHoles a slot moved with
  | case1 a slot moved hlt hhole top filled ih =>
    have hlt' : slot < (a.mapLeaf g).size := by rwa [size_mapLeaf]
    have hset : (a.mapLeaf g).set slot ((a.state top).mapLeaf g) hlt' =
        mapLeaf g (a.set slot (a.state top)) := by
      simp only [mapLeaf, Array.map_set]
    have hfilled : dropHoles ((a.mapLeaf g).set slot ((a.state top).mapLeaf g) hlt').pop =
        filled.mapLeaf g := by
      rw [hset, ← dropHoles_mapLeaf]
      simp only [mapLeaf, Array.map_pop]
    rw [fillHoles, dif_pos hlt', isHole_getElem_mapLeaf hlt' hlt, if_pos hhole]
    simp only [size_mapLeaf, state_mapLeaf]
    exact hfilled ▸ ih
  | case2 a slot moved hlt hhole ih =>
    have hlt' : slot < (a.mapLeaf g).size := by rwa [size_mapLeaf]
    rw [fillHoles, dif_pos hlt', isHole_getElem_mapLeaf hlt' hlt, if_neg hhole]
    exact ih
  | case3 a slot moved hlt =>
    rw [fillHoles, dif_neg (by rwa [size_mapLeaf])]

theorem compact_mapLeaf : (a.mapLeaf g).compact = (a.compact.1.mapLeaf g, a.compact.2) := by
  simp only [compact, dropHoles_mapLeaf, fillHoles_mapLeaf]
  simp only [mapLeaf, Array.map_map]
  rfl

end Automaton

/-! ## Unfolding -/

/-- The tree on the way to completion, with other bytes in its leaves. -/
def Unfolding.mapLeaf (g : ByteSet → ByteSet) (u : Unfolding) : Unfolding :=
  { u with tree := u.tree.mapLeaf g }

namespace Automaton

variable {a : Automaton} {u : Unfolding}

theorem unfoldChild_mapLeaf {child : Nat} :
    (a.mapLeaf g).unfoldChild (u.mapLeaf g) child = (a.unfoldChild u child).mapLeaf g := by
  simp only [unfoldChild, Unfolding.mapLeaf, state_mapLeaf, size_mapLeaf, State.transitions_mapLeaf,
    mapLeaf_push]
  rfl

theorem unfoldState_mapLeaf {pair : Nat × Nat} :
    (a.mapLeaf g).unfoldState (u.mapLeaf g) pair = (a.unfoldState u pair).mapLeaf g := by
  simp only [unfoldState, state_mapLeaf, State.transitions_mapLeaf]
  rw [← List.foldl_hom (Unfolding.mapLeaf g) (H := fun u child => unfoldChild_mapLeaf)]
  congr 1
  simp only [Unfolding.mapLeaf, size_mapLeaf]
  rw [mapLeaf_modify]
  intro s
  rfl

theorem unfoldStep_mapLeaf (u : Unfolding) :
    (a.mapLeaf g).unfoldStep (u.mapLeaf g) = Loop.mapStep (Unfolding.mapLeaf g) (a.unfoldStep u) := by
  rw [unfoldStep, unfoldStep]
  by_cases hnext : u.next.isEmpty = true
  · rw [if_pos hnext, if_pos (show (u.mapLeaf g).next.isEmpty = true from hnext)]
    rfl
  · rw [if_neg hnext, if_neg (show ¬ (u.mapLeaf g).next.isEmpty = true from hnext)]
    rw [Loop.mapStep, ← List.foldl_hom (Unfolding.mapLeaf g) (H := fun u pair => unfoldState_mapLeaf)]
    rfl

theorem unfold_mapLeaf : (a.mapLeaf g).unfold = a.unfold.mapLeaf g := by
  have hstart : (a.mapLeaf g).unfoldStart = a.unfoldStart.mapLeaf g := by
    rw [unfoldStart, state_mapLeaf]
    simp [unfoldStart, Unfolding.mapLeaf, mapLeaf, State.mapLeaf]
  rw [unfold, unfold, size_mapLeaf, hstart, Loop.run_map unfoldStep_mapLeaf]
  rfl

end Automaton

/-! ## Aligning -/

namespace Alignment

/-- The alignment, with other bytes in the leaves of both trees. -/
def mapLeaf (g : ByteSet → ByteSet) (al : Alignment) : Alignment :=
  { al with left := al.left.mapLeaf g, right := al.right.mapLeaf g }

variable {al : Alignment} {a : Automaton} {l r q dest nextL nextR : Nat} {code codeL codeR rest : ByteSet}

@[simp] theorem left_mapLeaf : (al.mapLeaf g).left = al.left.mapLeaf g := rfl

@[simp] theorem right_mapLeaf : (al.mapLeaf g).right = al.right.mapLeaf g := rfl

@[simp] theorem pairs_mapLeaf : (al.mapLeaf g).pairs = al.pairs := rfl

theorem pair_mapLeaf : (al.mapLeaf g).pair l r = (al.pair l r).mapLeaf g := by
  simp only [pair, mapLeaf, Automaton.state_mapLeaf, State.transitions_mapLeaf]

theorem narrow_mapLeaf :
    narrow (a.mapLeaf g) q code rest dest = (narrow a q code rest dest).mapLeaf g := by
  rw [narrow, narrow, Automaton.mapLeaf_modify]
  intro s
  dsimp only
  split <;> rfl

theorem branchOff_mapLeaf : branchOff (a.mapLeaf g) q code dest = (branchOff a q code dest).mapLeaf g := by
  rw [branchOff, branchOff, Automaton.copySubtree_mapLeaf, Automaton.size_mapLeaf,
    Automaton.mapLeaf_modify]
  exact fun _ => rfl

theorem cut_mapLeaf : (al.mapLeaf g).cut l r codeL nextL codeR nextR =
    (al.cut l r codeL nextL codeR nextR).mapLeaf g := by
  have hcopied : ({ al.mapLeaf g with
      left := branchOff (narrow (al.mapLeaf g).left l codeL (codeL \ (codeL ∩ codeR)) nextL) l
        (codeL ∩ codeR) nextL
      right := branchOff (narrow (al.mapLeaf g).right r codeR (codeR \ (codeL ∩ codeR)) nextR) r
        (codeL ∩ codeR) nextR } : Alignment).pair (al.mapLeaf g).left.size (al.mapLeaf g).right.size =
      mapLeaf g (({ al with
        left := branchOff (narrow al.left l codeL (codeL \ (codeL ∩ codeR)) nextL) l
          (codeL ∩ codeR) nextL
        right := branchOff (narrow al.right r codeR (codeR \ (codeL ∩ codeR)) nextR) r
          (codeL ∩ codeR) nextR } : Alignment).pair al.left.size al.right.size) := by
    rw [← pair_mapLeaf]
    simp only [mapLeaf, narrow_mapLeaf, branchOff_mapLeaf, Automaton.size_mapLeaf]
  rw [cut, cut]
  simp only [hcopied]
  split <;> split <;> simp only [mapLeaf, Automaton.eraseSubtree_mapLeaf]

theorem splitAgainst_mapLeaf {others : List (ByteSet × Nat)} :
    splitAgainst l r nextL codeL others (al.mapLeaf g) =
      (splitAgainst l r nextL codeL others al).mapLeaf g := by
  induction others generalizing codeL al with
  | nil => rfl
  | cons e others ih =>
    obtain ⟨codeR, nextR⟩ := e
    rw [splitAgainst, splitAgainst]
    split
    · exact pair_mapLeaf
    · simp only [cut_mapLeaf]
      split
      · rfl
      · exact ih

theorem candidates_mapLeaf : (al.mapLeaf g).candidates r codeL = al.candidates r codeL := by
  rw [candidates, candidates, right_mapLeaf, Automaton.state_mapLeaf, State.transitions_mapLeaf]

theorem splitLabels_mapLeaf {labels : List (ByteSet × Nat)} :
    (al.mapLeaf g).splitLabels l r labels = (al.splitLabels l r labels).mapLeaf g := by
  rw [splitLabels, splitLabels]
  refine List.foldl_hom _ fun al e => ?_
  simp only [candidates_mapLeaf, splitAgainst_mapLeaf]

theorem alignStates_mapLeaf : (al.mapLeaf g).alignStates l r = (al.alignStates l r).mapLeaf g := by
  rw [alignStates, alignStates, left_mapLeaf, Automaton.state_mapLeaf, State.transitions_mapLeaf,
    splitLabels_mapLeaf]

theorem alignLevel_mapLeaf {level : List (Nat × Nat)} :
    (al.mapLeaf g).alignLevel level = (al.alignLevel level).mapLeaf g := by
  have hstep : ∀ (al : Alignment) (pairs : List (Nat × Nat)),
      pairs.foldl (fun al e => al.alignStates e.1 e.2) (al.mapLeaf g) =
        (pairs.foldl (fun al e => al.alignStates e.1 e.2) al).mapLeaf g := by
    intro al pairs
    refine List.foldl_hom (mapLeaf g) fun al e => ?_
    exact alignStates_mapLeaf
  exact hstep { al with found := [] } level

theorem alignStep_mapLeaf (g : ByteSet → ByteSet) (s : List (Nat × Nat) × Alignment) :
    alignStep (s.1, s.2.mapLeaf g) = Loop.mapStep (fun s => (s.1, s.2.mapLeaf g)) (alignStep s) := by
  obtain ⟨level, al⟩ := s
  cases level with
  | nil => rfl
  | cons pair level =>
    simp only [alignStep, Loop.mapStep, alignLevel_mapLeaf]
    rfl

theorem compactLeft_mapLeaf : (al.mapLeaf g).compactLeft = al.compactLeft.mapLeaf g := by
  rw [compactLeft, compactLeft]
  simp only [left_mapLeaf, Automaton.compact_mapLeaf, Automaton.state_mapLeaf, State.isHole_mapLeaf]
  split <;> rename_i hholes
  · rw [if_pos (show al.leftHoles = true from hholes)]
    rfl
  · rw [if_neg (show ¬ al.leftHoles = true from hholes)]

theorem compactRight_mapLeaf : (al.mapLeaf g).compactRight = al.compactRight.mapLeaf g := by
  rw [compactRight, compactRight]
  simp only [right_mapLeaf, Automaton.compact_mapLeaf, Automaton.state_mapLeaf, State.isHole_mapLeaf]
  split <;> rename_i hholes
  · rw [if_pos (show al.rightHoles = true from hholes)]
    rfl
  · rw [if_neg (show ¬ al.rightHoles = true from hholes)]

end Alignment

namespace Automaton

open ByteMatch.Alignment

variable {left right : Automaton}

/-- Aligning does not look at the bytes of leaves. -/
theorem align_mapLeaf : align (left.mapLeaf g) (right.mapLeaf g) = (align left right).mapLeaf g := by
  have hempty : ∀ a : Automaton, (a.mapLeaf g).isEmpty = a.isEmpty := by
    intro a
    rw [mapLeaf, Array.isEmpty, Array.isEmpty, Array.size_map]
  rw [align, align, size_mapLeaf, size_mapLeaf, hempty, hempty]
  split
  · rfl
  · have hrun := Loop.run_map (alignStep_mapLeaf g) (left.size + 1)
      ([(0, 0)], ⟨left, right, (∅ : Matching).insert 0 0, [], false, false⟩)
    rw [← compactRight_mapLeaf, ← compactLeft_mapLeaf]
    exact congrArg (fun s => s.2.compactLeft.compactRight) hrun

/-- A loop over the states of the automaton. -/
theorem foldl_states_mapLeaf {σ : Type} {φ : σ → σ} {f f' : σ → State × Nat → σ}
    (h : ∀ s e, f' (φ s) (e.1.mapLeaf g, e.2) = φ (f s e)) (a : Automaton) (s : σ) :
    (a.mapLeaf g).toList.zipIdx.foldl f' (φ s) = φ (a.toList.zipIdx.foldl f s) := by
  rw [mapLeaf, Array.toList_map, List.zipIdx_map, List.foldl_map]
  exact List.foldl_hom φ fun s e => h s e

end Automaton

/-! ## Unions -/

namespace Alignment

open Automaton

variable {al : Alignment}

theorem adopt_mapLeaf : (al.mapLeaf g).adopt = al.adopt.mapLeaf g := by
  refine foldl_states_mapLeaf (fun whole e => ?_) al.right al
  obtain ⟨s, r⟩ := e
  simp only [adoptState, State.isHole_mapLeaf, pairs_mapLeaf, left_mapLeaf, size_mapLeaf]
  split
  · rfl
  · simp only [mapLeaf, mapLeaf_push, State.mapLeaf_hole]

theorem graftTransition_mapLeaf {pairs : Matching} {old l next : Nat} {a : Automaton} {code : ByteSet} :
    graftTransition pairs old l (a.mapLeaf g) code next =
      (graftTransition pairs old l a code next).mapLeaf g := by
  rw [graftTransition, graftTransition]
  split
  · split
    · rw [mapLeaf_modify]
      exact fun _ => rfl
    · rfl
  · rfl

section Graft

variable (hg : ∀ x y, g (x ∪ y) = g x ∪ g y)
include hg

theorem addLeaf_mapLeaf {s : State} {leaf : ByteSet} :
    (s.addLeaf leaf).mapLeaf g = (s.mapLeaf g).addLeaf (g leaf) := by
  have hempty : ∀ bytes : ByteSet, ∅ ∪ bytes = bytes := fun bytes => ByteSet.ext_mem fun x => by
    rw [ByteSet.mem_union]
    exact or_iff_right ByteSet.not_mem_empty
  rw [State.addLeaf, State.addLeaf, State.mapLeaf, State.mapLeaf]
  cases s.leaf with
  | none => simp only [Option.getD_none, Option.map_none, Option.map_some, hempty]
  | some bytes => simp only [Option.getD_some, Option.map_some, hg]

theorem graft_mapLeaf (pairs : Matching) (old : Nat) (a : Automaton) (s : State) (r : Nat) :
    graft pairs old (a.mapLeaf g) (s.mapLeaf g) r = (graft pairs old a s r).mapLeaf g := by
  rw [graft, graft]
  split
  · rfl
  · rename_i l _
    have hedges : s.transitions.entries.foldl
        (fun a e => graftTransition pairs old l a e.1 e.2) (a.mapLeaf g) =
          (s.transitions.entries.foldl
            (fun a e => graftTransition pairs old l a e.1 e.2) a).mapLeaf g := by
      refine List.foldl_hom (Automaton.mapLeaf g) fun a e => ?_
      exact graftTransition_mapLeaf
    simp only [State.transitions_mapLeaf, State.leaf_mapLeaf, hedges]
    cases s.leaf with
    | none => rfl
    | some leaf =>
      simp only [Option.map_some]
      rw [mapLeaf_modify]
      exact fun _ => addLeaf_mapLeaf hg

/-- The union does not look at the bytes of leaves either, but it adds some to others. -/
theorem united_mapLeaf : (al.mapLeaf g).united = al.united.mapLeaf g := by
  rw [united, united, adopt_mapLeaf]
  simp only [pairs_mapLeaf, left_mapLeaf, right_mapLeaf, size_mapLeaf]
  refine foldl_states_mapLeaf (fun (a : Automaton) e => ?_) al.adopt.right al.adopt.left
  exact graft_mapLeaf hg al.adopt.pairs al.left.size a e.1 e.2

end Graft
end Alignment
end ByteMatch
