import Mathlib.Data.List.Induction
import ByteMatch.Proofs.CharSet.Algebra

/-!
# ByteMatch.Proofs.CharSet.Lockstep

What two aligned sets have in common, seen from the bytes that are read.

* `Automaton.follow?`: the state that a string of bytes leads to.
* `Automaton.Correspondence.follow?_iff`, `Automaton.Correspondence.of_follow?`: strings of bytes lead to
  corresponding states, and to no others.
* `Alignment.Lockstep`: reading the same bytes, both trees go through corresponding states.
* `CharSet.align_lockstep`: aligning two sets ends, keeps what they accept, and makes two trees without
  holes that go in lockstep.
-/

namespace ByteMatch
namespace Automaton

variable {a left right : Automaton} {R : Nat → Nat → Prop} {p q l r : Nat} {w : List UInt8} {x : UInt8}

/-- The state that the bytes lead to from state `q`, if there are transitions for all of them. -/
def follow? (a : Automaton) (q : Nat) (w : List UInt8) : Option Nat :=
  w.foldlM (fun p x => (a.state p).transitions.step? x) q

@[simp] theorem follow?_nil : a.follow? q [] = some q := rfl

theorem follow?_concat : a.follow? q (w ++ [x]) = some r ↔
    ∃ p, a.follow? q w = some p ∧ (a.state p).transitions.step? x = some r := by
  rw [follow?, List.foldlM_append]
  simp only [List.foldlM_cons, List.foldlM_nil, bind_pure]
  exact Option.bind_eq_some_iff

/-! ## Corresponding states -/

section Trees

variable (hl : left.Forest [0]) (hr : right.Forest [0]) (h : Correspondence left right R)
include hl hr h

/-- A state of the left tree is reached by one path only, and its partner is at the end of the same path of
the right tree. The induction is on the bytes, the last of which leaves the parents of both. -/
theorem Correspondence.follow?_right (hR : R l r) (hw : left.follow? 0 w = some l) :
    right.follow? 0 w = some r := by
  induction w using List.reverseRecOn generalizing l r with
  | nil =>
    obtain rfl : 0 = l := Option.some.inj hw
    rw [h.right_unique _ _ _ hR h.root, follow?_nil]
  | append_singleton w x ih =>
    obtain ⟨p, hp, hstep⟩ := follow?_concat.1 hw
    obtain ⟨c, hx, he⟩ := hl.step?_iff.1 hstep
    obtain ⟨p', he', hR'⟩ := h.parent_of_edge hl hR he
    exact follow?_concat.2 ⟨p', ih hR' hp, hr.step?_iff.2 ⟨c, hx, he'⟩⟩

/-- Corresponding states are reached by the same strings of bytes. -/
theorem Correspondence.follow?_iff (hR : R l r) :
    left.follow? 0 w = some l ↔ right.follow? 0 w = some r :=
  ⟨h.follow?_right hl hr hR, h.swap.follow?_right hr hl hR⟩

/-- If the labels of corresponding states are settled, no string of bytes leads to states that do not
correspond. -/
theorem Correspondence.of_follow? (hsettled : ∀ l r, R l r → Settled left right R l r)
    (hw : left.follow? 0 w = some l) (hw' : right.follow? 0 w = some r) : R l r := by
  induction w using List.reverseRecOn generalizing l r with
  | nil =>
    obtain rfl : 0 = l := Option.some.inj hw
    obtain rfl : 0 = r := Option.some.inj hw'
    exact h.root
  | append_singleton w x ih =>
    obtain ⟨p, hp, hstep⟩ := follow?_concat.1 hw
    obtain ⟨p', hp', hstep'⟩ := follow?_concat.1 hw'
    obtain ⟨c, hx, he⟩ := hl.step?_iff.1 hstep
    obtain ⟨c', hx', he'⟩ := hr.step?_iff.1 hstep'
    rcases hsettled p p' (ih hp hp') c l he c' r he' with ⟨-, hR⟩ | hdisj
    · exact hR
    · exact absurd hx' (hdisj x hx)

end Trees
end Automaton

namespace Alignment

open Automaton

variable {al : Alignment} {left₀ right₀ : Automaton}

/-- Reading the same bytes, both trees go through corresponding states. -/
structure Lockstep (al : Alignment) : Prop where
  paired_lt : ∀ l r, al.Paired l r → l < al.left.size ∧ r < al.right.size
  injective : ∀ l r r', al.Paired l r → al.Paired l r' → r = r'
  /-- Labels that leave corresponding states are equal or disjoint. -/
  labels : ∀ l r c next c' next', al.Paired l r → al.left.Edge l c next → al.right.Edge r c' next' →
    c = c' ∨ ∀ x, x ∈ c → x ∉ c'
  /-- Equal labels that leave corresponding states lead to corresponding states. -/
  dests : ∀ l r c next next', al.Paired l r → al.left.Edge l c next → al.right.Edge r c next' →
    al.Paired next next'
  /-- No other states correspond, but for the roots. -/
  origin : ∀ l r, al.Paired l r → (l = 0 ∧ r = 0) ∨
    ∃ p p' c, al.Paired p p' ∧ al.left.Edge p c l ∧ al.right.Edge p' c r
  same_bytes : ∀ l r, al.Paired l r → ∀ w, al.left.follow? 0 w = some l ↔ al.right.follow? 0 w = some r
  /-- States that the same bytes lead to correspond. -/
  paired_of_bytes : ∀ w l r, l < al.left.size → r < al.right.size → al.left.follow? 0 w = some l →
    al.right.follow? 0 w = some r → al.Paired l r

theorem Aligned.lockstep (h : Aligned left₀ right₀ al) : al.Lockstep where
  paired_lt l r hlr := ⟨h.left.lt (h.corr.reached l r hlr).1, h.right.lt (h.corr.reached l r hlr).2⟩
  injective := h.corr.right_unique
  labels l r c next c' next' hlr he he' := (h.settled l r hlr c next he c' next' he').imp_left And.left
  dests l r c next next' hlr he he' := by
    rcases h.settled l r hlr c next he c next' he' with ⟨-, hnext⟩ | hdisj
    · exact hnext
    · obtain ⟨x, hx⟩ := h.left.forest.label_nonempty _ _ _ he
      exact absurd hx (hdisj x hx)
  origin l r hlr := (h.corr.parent l r hlr).imp_right fun ⟨p, p', c, he, he', hp⟩ =>
    ⟨p, p', c, hp, he, he'⟩
  same_bytes l r hlr w := h.corr.follow?_iff h.left.forest h.right.forest hlr
  paired_of_bytes w l r _ _ hw hw' :=
    h.corr.of_follow? h.left.forest h.right.forest h.settled hw hw'

/-- If one of the trees has no states, none correspond. -/
theorem Lockstep.of_isEmpty {left right : Automaton} (h : left.size = 0 ∨ right.size = 0) :
    (Automaton.align left right).left = left ∧ (Automaton.align left right).right = right ∧
      (Automaton.align left right).Lockstep := by
  have halign : Automaton.align left right = ⟨left, right, ∅, [], false, false⟩ := by
    have hsize : left.size < 2 ∨ right.size < 2 := by omega
    have hempty : (left.isEmpty || right.isEmpty) = true := by simpa using h
    rw [Automaton.align, if_pos (by simpa using hsize), hempty]
    rfl
  rw [halign]
  have hnone : ∀ l r, ¬ Paired ⟨left, right, ∅, [], false, false⟩ l r := fun l r hlr => by
    rw [Paired, Matching.get?_empty] at hlr
    cases hlr
  exact ⟨rfl, rfl, fun l r hlr => absurd hlr (hnone l r), fun l r _ hlr => absurd hlr (hnone l r),
    fun l r _ _ _ _ hlr => absurd hlr (hnone l r), fun l r _ _ _ hlr => absurd hlr (hnone l r),
    fun l r hlr => absurd hlr (hnone l r), fun l r hlr => absurd hlr (hnone l r),
    fun w l r hl hr => by simp only at hl hr; omega⟩

end Alignment

/-! ## Aligned sets -/

namespace CharSet

open Automaton

variable {a b s : CharSet}

/-- A tree of the encoding of `s`, without holes, that accepts the same as `s`. -/
structure TreeOf (s : CharSet) (tree : Automaton) : Prop where
  wellFormed : CharSet.WellFormed ⟨s.encoding, tree, .tree⟩
  live : ∀ q, q < tree.size → (tree.state q).isHole = false
  accepts_eq : ∀ w, tree.accepts w = s.accepts w

theorem TreeOf.toTree (h : s.WellFormed) : s.TreeOf s.toTree.states where
  wellFormed := ⟨(toTree_spec h).2.1, fun _ => (toTree_spec h).2.2.1⟩
  live q hq := ((toTree_spec h).2.1.productive q hq).not_isHole
  accepts_eq := (toTree_spec h).2.2.2.2

/-- What has become of the tree of a set that is not empty. -/
theorem TreeOf.of_refines {tree : Automaton} (h : s.WellFormed) (hpos : s.isEmpty = false)
    (ht : Refines s.toTree.states false tree) : s.TreeOf tree := by
  obtain ⟨-, hwf, -, hsize, hsame⟩ := toTree_spec h
  have hprod : ∀ q, q < tree.size → tree.Productive q := fun q hq =>
    ht.productive hwf (hsize.2 (size_pos_iff.2 hpos)) (ht.full rfl q hq)
  exact ⟨⟨ht.forest.wellFormed hprod, fun _ => ht.forest.isTree hprod⟩,
    fun q hq => (hprod q hq).not_isHole, fun w => (ht.accepts_eq w).trans (hsame w)⟩

/-- Aligning two well-formed sets ends. It keeps what they accept, and makes two trees without holes that go
in lockstep, from the roots on if there are roots. -/
theorem align_lockstep (ha : a.WellFormed) (hb : b.WellFormed) :
    AlignEnds a b ∧ a.TreeOf (a.align b).left ∧ b.TreeOf (a.align b).right ∧
      (a.isEmpty = false → b.isEmpty = false → (a.align b).Paired 0 0) ∧ (a.align b).Lockstep := by
  refine ⟨alignEnds ha hb, ?_⟩
  by_cases hempty : a.isEmpty = true ∨ b.isEmpty = true
  · have hsize : a.toTree.states.size = 0 ∨ b.toTree.states.size = 0 := by
      have hasize := (toTree_spec ha).2.2.2.1.trans size_pos_iff
      have hbsize := (toTree_spec hb).2.2.2.1.trans size_pos_iff
      rw [← Bool.not_eq_false, ← Bool.not_eq_false, ← hasize, ← hbsize] at hempty
      omega
    obtain ⟨hleft, hright, hstep⟩ := Alignment.Lockstep.of_isEmpty hsize
    rw [align, hleft, hright]
    refine ⟨.toTree ha, .toTree hb, fun hapos hbpos => ?_, hstep⟩
    simp [hapos, hbpos] at hempty
  · obtain ⟨hapos, hbpos⟩ := not_or.1 hempty
    rw [Bool.not_eq_true] at hapos hbpos
    obtain ⟨-, haligned⟩ := align_spec ha hb hapos hbpos
    exact ⟨.of_refines ha hapos haligned.left, .of_refines hb hbpos haligned.right,
      fun _ _ => haligned.corr.root, Alignment.Aligned.lockstep haligned⟩

theorem align_lockstep_short : shortTree.WellFormed ∧ shortGraph.WellFormed ∧
    AlignEnds shortTree shortGraph ∧ shortTree.TreeOf (shortTree.align shortGraph).left ∧
      shortGraph.TreeOf (shortTree.align shortGraph).right ∧
      (shortTree.isEmpty = false → shortGraph.isEmpty = false →
        (shortTree.align shortGraph).Paired 0 0) ∧
      (shortTree.align shortGraph).Lockstep :=
  ⟨wellFormed_shortTree, wellFormed_shortGraph,
    align_lockstep wellFormed_shortTree wellFormed_shortGraph⟩

end CharSet
end ByteMatch
