import ByteMatch.Proofs.Automaton.Correspondence
import ByteMatch.Proofs.Automaton.Matching
import ByteMatch.Proofs.Automaton.Renumbering

/-!
# ByteMatch.Proofs.Automaton.Cut

Two trees on the way to being comparable, and what one cut does to them.

* `Alignment.Aligning`: the invariant of the walk through both trees. They cover the trees that the
  walk started from, and corresponding states are settled unless they are still to be looked at.
* `Alignment.cut_eq`: a cut splits a transition on both sides, and takes the copies as
  corresponding.
* `Alignment.Aligning.pair`, `Alignment.Aligning.cut`: the two things that are done to an alignment
  keep the invariant.
-/

namespace ByteMatch
namespace Automaton

variable {tree a : Automaton} {q dest : Nat} {code common : ByteSet} {holes : Bool}

theorem Refines.split (h : Refines tree holes a) (he : a.Edge q code dest)
    (hsub : ∀ x, x ∈ common → x ∈ code) (hcommon : ∃ x, x ∈ common) :
    Refines tree (holes || (code \ common).isEmpty) (a.splitEdge q code common dest) := by
  obtain ⟨hs, -, -⟩ := splitEdge_spec h.forest he hsub hcommon
  obtain ⟨f, hf0, hcover⟩ := h.cover
  obtain ⟨g, hg, hcover'⟩ := hs.cover
  refine ⟨hs.forest, ⟨f ∘ g, ?_, hcover'.trans hcover ?_⟩, ?_⟩
  · rw [Function.comp_apply, hg 0 h.size_pos, hf0]
  · intro p hp
    have := hcover'.reaches hs.forest.toProper .refl hp
    rwa [hg 0 h.size_pos] at this
  · intro hfull p hp
    rw [Bool.or_eq_false_iff] at hfull
    by_cases hpa : p < a.size
    · refine hs.reached p (h.full hfull.1 p hpa) fun hempty => ?_
      rw [hempty] at hfull
      exact absurd hfull.2 (by simp)
    · exact hs.fresh p (Nat.le_of_not_lt hpa) hp

/-- A split does not change the length of a path to a state that was there before. -/
theorem Split.path_old {b : Automaton} (hs : Split a q code common dest b) (h : a.Forest [0])
    {p n : Nat} (hp : p < a.size) (hpath : b.Path 0 n p) : a.Path 0 n p := by
  obtain ⟨f, hf, hcover⟩ := hs.cover
  have := (hcover.path hs.forest.toProper .refl hpath).2
  rwa [hf 0 (h.root_lt 0 (by simp)), hf p hp] at this

end Automaton

namespace Alignment

open Automaton

variable {al : Alignment} {left₀ right₀ : Automaton} {k l r nextL nextR : Nat}
  {codeL codeR c : ByteSet} {todo : List (Nat × Nat)}

/-- The states `l` of the left tree and `r` of the right tree correspond. -/
def Paired (al : Alignment) (l r : Nat) : Prop := al.pairs.get? r = some l

/-! ## Splitting and pairing -/

/-- Splits the transitions over two labels in both trees. -/
def split (al : Alignment) (l r : Nat) (codeL : ByteSet) (nextL : Nat) (codeR : ByteSet)
    (nextR : Nat) : Alignment :=
  let common := codeL ∩ codeR
  { al with
    left := al.left.splitEdge l codeL common nextL
    right := al.right.splitEdge r codeR common nextR
    leftHoles := al.leftHoles || (codeL \ common).isEmpty
    rightHoles := al.rightHoles || (codeR \ common).isEmpty }

/-- The walks through subtrees end that a cut starts. -/
def CutEnds (al : Alignment) (l r : Nat) (codeL : ByteSet) (nextL : Nat) (codeR : ByteSet)
    (nextR : Nat) : Prop :=
  let common := codeL ∩ codeR
  let narrowL := narrow al.left l codeL (codeL \ common) nextL
  let narrowR := narrow al.right r codeR (codeR \ common) nextR
  Loop.Ends copyStep (narrowL.copyStart nextL) ([], narrowL.copySubtree nextL) ∧
  Loop.Ends copyStep (narrowR.copyStart nextR) ([], narrowR.copySubtree nextR) ∧
  ((codeL \ common).isEmpty = true → Loop.Ends eraseStep ([nextL], al.left.branch l codeL common nextL)
    ([], (al.left.branch l codeL common nextL).eraseSubtree nextL)) ∧
  ((codeR \ common).isEmpty = true → Loop.Ends eraseStep ([nextR], al.right.branch r codeR common nextR)
    ([], (al.right.branch r codeR common nextR).eraseSubtree nextR))

theorem paired_pair {x y : Nat} :
    (al.pair l r).Paired x y ↔ if y = r then x = l else al.Paired x y := by
  show (al.pairs.insert r l).get? y = some x ↔ _
  rw [Matching.get?_insert]
  split
  · rw [Option.some.injEq, eq_comm]
  · rfl

/-- A pair is noted for the next level if both states have labels. -/
theorem mem_found_pair {e : Nat × Nat} : e ∈ (al.pair l r).found ↔
    (e = (l, r) ∧ (al.left.state l).transitions.isEmpty = false ∧
      (al.right.state r).transitions.isEmpty = false) ∨ e ∈ al.found := by
  rw [Alignment.pair]
  cases (al.left.state l).transitions.isEmpty <;> cases (al.right.state r).transitions.isEmpty <;>
    simp

section Cut

variable (hl : al.left.Forest [0]) (hr : al.right.Forest [0]) (heL : al.left.Edge l codeL nextL)
  (heR : al.right.Edge r codeR nextR) (hcommon : ∃ x, x ∈ codeL ∩ codeR)
include hl hr heL heR hcommon

/-- A cut splits both transitions, and takes the copies as corresponding. Erasing what is left of
the old subtrees does not change the copies. -/
theorem cut_eq : al.cut l r codeL nextL codeR nextR =
    (al.split l r codeL nextL codeR nextR).pair al.left.size al.right.size := by
  have hsubL : ∀ x, x ∈ codeL ∩ codeR → x ∈ codeL := fun x hx => (ByteSet.mem_inter.1 hx).1
  have hsubR : ∀ x, x ∈ codeL ∩ codeR → x ∈ codeR := fun x hx => (ByteSet.mem_inter.1 hx).2
  obtain ⟨-, -, hcopyL⟩ := splitEdge_spec hl heL hsubL hcommon
  obtain ⟨-, -, hcopyR⟩ := splitEdge_spec hr heR hsubR hcommon
  have hbranchL : branchOff (narrow al.left l codeL (codeL \ (codeL ∩ codeR)) nextL) l
      (codeL ∩ codeR) nextL = al.left.branch l codeL (codeL ∩ codeR) nextL := rfl
  have hbranchR : branchOff (narrow al.right r codeR (codeR \ (codeL ∩ codeR)) nextR) r
      (codeL ∩ codeR) nextR = al.right.branch r codeR (codeL ∩ codeR) nextR := rfl
  simp only [cut, pair, hbranchL, hbranchR, ← hcopyL, ← hcopyR, split]
  by_cases hrestL : (codeL \ (codeL ∩ codeR)).isEmpty = true <;>
    by_cases hrestR : (codeR \ (codeL ∩ codeR)).isEmpty = true <;>
    simp [splitEdge, hrestL, hrestR]

theorem cutEnds : al.CutEnds l r codeL nextL codeR nextR := by
  have hsubL : ∀ x, x ∈ codeL ∩ codeR → x ∈ codeL := fun x hx => (ByteSet.mem_inter.1 hx).1
  have hsubR : ∀ x, x ∈ codeL ∩ codeR → x ∈ codeR := fun x hx => (ByteSet.mem_inter.1 hx).2
  exact ⟨(branch_spec hl heL hsubL hcommon).1, (branch_spec hr heR hsubR hcommon).1,
    (splitEdge_spec hl heL hsubL hcommon).2.1, (splitEdge_spec hr heR hsubR hcommon).2.1⟩

end Cut

/-! ## The invariant -/

/-- The state of the walk while the pairs of `todo` on level `k` are still to be looked at, and
those found so far on the next level. -/
structure Aligning (left₀ right₀ : Automaton) (k : Nat) (todo : List (Nat × Nat)) (al : Alignment) :
    Prop where
  left : Refines left₀ al.leftHoles al.left
  right : Refines right₀ al.rightHoles al.right
  corr : Correspondence al.left al.right al.Paired
  settled : ∀ l r, al.Paired l r → (l, r) ∈ todo ∨ (l, r) ∈ al.found ∨
    Settled al.left al.right al.Paired l r
  todo_paired : ∀ l r, (l, r) ∈ todo → al.Paired l r
  found_paired : ∀ l r, (l, r) ∈ al.found → al.Paired l r
  todo_depth : ∀ l r, (l, r) ∈ todo → ∀ n, al.left.Path 0 n l → k ≤ n
  found_depth : ∀ l r, (l, r) ∈ al.found → ∀ n, al.left.Path 0 n l → k + 1 ≤ n

namespace Aligning

section Pair

variable (h : Aligning left₀ right₀ k todo al) (hpair : (l, r) ∈ todo)
  (he : al.left.Edge l c nextL) (he' : al.right.Edge r c nextR)
include h hpair he he'

theorem paired_pair_iff {x y : Nat} :
    (al.pair nextL nextR).Paired x y ↔ al.Paired x y ∨ (x = nextL ∧ y = nextR) := by
  have hcorr := h.corr.add h.left.forest h.right.forest (h.todo_paired l r hpair) he he'
  rw [paired_pair]
  split
  · rename_i hy
    subst hy
    constructor
    · exact fun hx => .inr ⟨hx, rfl⟩
    · rintro (hx | ⟨hx, -⟩)
      · exact hcorr.left_unique _ _ _ (.inl hx) (.inr ⟨rfl, rfl⟩)
      · exact hx
  · rename_i hy
    simp [hy]

omit he' in
/-- What a pair of the level has as children is on the next level. -/
theorem depth_child {n : Nat} (hpath : al.left.Path 0 n nextL) : k + 1 ≤ n := by
  cases hpath with
  | nil => exact absurd ⟨c, he⟩ (h.left.forest.root_orphan 0 (by simp) l)
  | snoc hpath hchild =>
    obtain rfl := h.left.forest.child_unique hchild ⟨c, he⟩
    exact Nat.succ_le_succ (h.todo_depth _ r hpair _ hpath)

/-- Two states that are reached over the same label from a pair of the level are taken as
corresponding. -/
theorem pair : Aligning left₀ right₀ k todo (al.pair nextL nextR) ∧
    ∀ x y, (al.pair nextL nextR).Paired x y ↔ al.Paired x y ∨ (x = nextL ∧ y = nextR) := by
  have hiff : ∀ x y, (al.pair nextL nextR).Paired x y ↔ al.Paired x y ∨ (x = nextL ∧ y = nextR) :=
    fun x y => paired_pair_iff h hpair he he'
  have hmono : ∀ x y, al.Paired x y → (al.pair nextL nextR).Paired x y :=
    fun x y hxy => (hiff x y).2 (.inl hxy)
  refine ⟨⟨h.left, h.right, ?_, ?_, ?_, ?_, h.todo_depth, ?_⟩, hiff⟩
  · have heq : (al.pair nextL nextR).Paired = fun x y => al.Paired x y ∨ (x = nextL ∧ y = nextR) :=
      funext₂ fun x y => propext (hiff x y)
    rw [heq]
    exact h.corr.add h.left.forest h.right.forest (h.todo_paired l r hpair) he he'
  · intro x y hxy
    rcases (hiff x y).1 hxy with hxy | ⟨rfl, rfl⟩
    · exact (h.settled x y hxy).imp_right
        (.imp (fun hfound => mem_found_pair.2 (.inr hfound)) fun hs => hs.mono hmono)
    · -- a pair that is not looked at later has a state without labels
      by_cases hbranch : (al.left.state x).transitions.isEmpty = false ∧
          (al.right.state y).transitions.isEmpty = false
      · exact .inr (.inl (mem_found_pair.2 (.inl ⟨rfl, hbranch⟩)))
      · refine .inr (.inr fun d next hd d' next' hd' => absurd ⟨?_, ?_⟩ hbranch)
        · exact Transitions.isEmpty_eq_false_iff.2 ⟨_, hd⟩
        · exact Transitions.isEmpty_eq_false_iff.2 ⟨_, hd'⟩
  · exact fun x y hxy => hmono x y (h.todo_paired x y hxy)
  · intro x y hxy
    rcases mem_found_pair.1 hxy with ⟨heq, -⟩ | hxy
    · obtain ⟨rfl, rfl⟩ := Prod.mk.inj heq
      exact (hiff _ _).2 (.inr ⟨rfl, rfl⟩)
    · exact hmono x y (h.found_paired x y hxy)
  · intro x y hxy n hpath
    rcases mem_found_pair.1 hxy with ⟨heq, -⟩ | hxy
    · obtain ⟨rfl, rfl⟩ := Prod.mk.inj heq
      exact depth_child h hpair he hpath
    · exact h.found_depth x y hxy n hpath

end Pair

section Split

variable (h : Aligning left₀ right₀ k todo al) (hpair : (l, r) ∈ todo)
  (heL : al.left.Edge l codeL nextL) (heR : al.right.Edge r codeR nextR)
  (hcommon : ∃ x, x ∈ codeL ∩ codeR) (hne : codeR ≠ codeL)
include h hpair heL heR hcommon hne

theorem split : Aligning left₀ right₀ k todo (al.split l r codeL nextL codeR nextR) := by
  have hfL := h.left.forest
  have hfR := h.right.forest
  have hlr := h.todo_paired l r hpair
  have hsubL : ∀ x, x ∈ codeL ∩ codeR → x ∈ codeL := fun x hx => (ByteSet.mem_inter.1 hx).1
  have hsubR : ∀ x, x ∈ codeL ∩ codeR → x ∈ codeR := fun x hx => (ByteSet.mem_inter.1 hx).2
  obtain ⟨hsL, -, -⟩ := splitEdge_spec hfL heL hsubL hcommon
  obtain ⟨hsR, -, -⟩ := splitEdge_spec hfR heR hsubR hcommon
  obtain ⟨y, hy⟩ := hcommon
  -- the labels overlap and differ, so neither is a label on the other side
  have hdestL : ∀ r', ¬ al.Paired nextL r' := by
    refine h.corr.unpaired_of_edge hfL hlr heL fun next he => hne ?_
    exact (hfR.edge_unique heR he (hsubR y hy) (hsubL y hy)).1
  have hdestR : ∀ l', ¬ al.Paired l' nextR := by
    refine h.corr.swap.unpaired_of_edge hfR hlr heR fun next he => hne ?_
    exact (hfL.edge_unique he heL (hsubR y hy) (hsubL y hy)).1
  have hcorrL := h.corr.split hfL heL hdestL hsL
  have hcorr := (hcorrL.swap.split hfR heR hdestR hsR).swap
  have hstate : ∀ x y, al.Paired x y → x ≠ l →
      (al.left.splitEdge l codeL (codeL ∩ codeR) nextL).state x = al.left.state x ∧
      (al.right.splitEdge r codeR (codeL ∩ codeR) nextR).state y = al.right.state y := by
    intro x y hxy hx
    refine ⟨h.corr.state_split hfL hdestL hsL hxy hx, ?_⟩
    refine h.corr.swap.state_split hfR hdestR hsR hxy ?_
    rintro rfl
    exact hx (h.corr.left_unique _ _ _ hxy hlr)
  have hpath : ∀ x y n, al.Paired x y →
      (al.left.splitEdge l codeL (codeL ∩ codeR) nextL).Path 0 n x → al.left.Path 0 n x :=
    fun x y n hxy => hsL.path_old hfL (h.left.lt (h.corr.reached x y hxy).1)
  refine ⟨h.left.split heL hsubL ⟨y, hy⟩, h.right.split heR hsubR ⟨y, hy⟩, hcorr, ?_,
    h.todo_paired, h.found_paired, ?_, ?_⟩
  · intro x z hxz
    by_cases hx : x = l
    · subst hx
      obtain rfl := h.corr.right_unique _ _ _ hxz hlr
      exact .inl hpair
    · obtain ⟨hstateL, hstateR⟩ := hstate x z hxz hx
      exact (h.settled x z hxz).imp_right (.imp_right fun hs => hs.congr hstateL hstateR)
  · exact fun x y hxy n hn => h.todo_depth x y hxy n (hpath x y n (h.todo_paired x y hxy) hn)
  · exact fun x y hxy n hn => h.found_depth x y hxy n (hpath x y n (h.found_paired x y hxy) hn)

theorem cut : Aligning left₀ right₀ k todo (al.cut l r codeL nextL codeR nextR) ∧
    ∀ x y, (al.cut l r codeL nextL codeR nextR).Paired x y ↔
      al.Paired x y ∨ (x = al.left.size ∧ y = al.right.size) := by
  have hsubL : ∀ x, x ∈ codeL ∩ codeR → x ∈ codeL := fun x hx => (ByteSet.mem_inter.1 hx).1
  have hsubR : ∀ x, x ∈ codeL ∩ codeR → x ∈ codeR := fun x hx => (ByteSet.mem_inter.1 hx).2
  obtain ⟨hsL, -, -⟩ := splitEdge_spec h.left.forest heL hsubL hcommon
  obtain ⟨hsR, -, -⟩ := splitEdge_spec h.right.forest heR hsubR hcommon
  rw [cut_eq h.left.forest h.right.forest heL heR hcommon]
  exact (h.split hpair heL heR hcommon hne).pair hpair
    ((hsL.edge_here _ _).2 (.inl ⟨rfl, rfl⟩)) ((hsR.edge_here _ _).2 (.inl ⟨rfl, rfl⟩))

end Split
end Aligning
end Alignment
end ByteMatch
