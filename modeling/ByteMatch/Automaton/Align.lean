import ByteMatch.Automaton.Compact
import ByteMatch.Automaton.Subtree

/-!
# ByteMatch.Automaton.Align

Making two trees comparable: afterwards, the labels that leave a state of one tree are equal to
or disjoint from those that leave the state of the other tree that is reached by the same bytes.

The trees are walked together, breadth first from the roots. Where a label on one side overlaps
one on the other side, the common bytes become a transition of their own on both sides, each to a
fresh copy of the subtree below, and the two labels are left with the rest of their bytes.

* `Alignment`: the two trees, which states correspond, and the pairs of states to look at next.
* `Alignment.cut`: one label of the left tree against one of the right tree.
* `Alignment.alignStates`: all labels of two corresponding states.
* `Automaton.align`: the whole walk. Corresponding states are at the same depth, so there are no
  more levels than states.
-/

namespace ByteMatch

/-- Two trees on the way to being comparable. -/
structure Alignment where
  left : Automaton
  right : Automaton
  /-- The state of the left tree that corresponds to a state of the right tree. -/
  pairs : Matching
  /-- The pairs of corresponding states, left first, found on this level, the last one first. -/
  found : List (Nat × Nat)
  leftHoles : Bool
  rightHoles : Bool

namespace Alignment

/-- Takes two states as corresponding. They are looked at later if both have transitions. -/
def pair (al : Alignment) (l r : Nat) : Alignment :=
  let branching :=
    !(al.left.state l).transitions.isEmpty && !(al.right.state r).transitions.isEmpty
  { al with
    pairs := al.pairs.insert r l
    found := if branching then (l, r) :: al.found else al.found }

/-- Replaces a label of a state by the rest of its bytes, if there are any. -/
def narrow (a : Automaton) (q : Nat) (code rest : ByteSet) (dest : Nat) : Automaton :=
  a.modify q fun s =>
    let s := s.eraseTransition code
    if rest.isEmpty then s else s.addTransition rest dest

/-- Moves common bytes to a fresh copy of the subtree below a destination. -/
def branchOff (a : Automaton) (q : Nat) (common : ByteSet) (dest : Nat) : Automaton :=
  let copy := a.size
  (a.copySubtree dest).modify q (·.addTransition common copy)

/-- Splits two labels that have bytes in common, those to `nextL` and `nextR`. The common bytes lead
to copies, which correspond. A subtree that nothing leads to any more is erased. -/
def cut (al : Alignment) (l r : Nat) (codeL : ByteSet) (nextL : Nat) (codeR : ByteSet) (nextR : Nat) :
    Alignment :=
  let common := codeL ∩ codeR
  let restL := codeL \ common
  let restR := codeR \ common
  -- the copies take the next free numbers of the two trees
  let copyL := al.left.size
  let copyR := al.right.size
  let al := { al with
    left := branchOff (narrow al.left l codeL restL nextL) l common nextL
    right := branchOff (narrow al.right r codeR restR nextR) r common nextR }
  let al := al.pair copyL copyR
  let al :=
    if restR.isEmpty then { al with right := al.right.eraseSubtree nextR, rightHoles := true }
    else al
  if restL.isEmpty then { al with left := al.left.eraseSubtree nextL, leftHoles := true } else al

/-- Splits a label of the left state `l`, with its destination, against labels of the right state
`r` that have bytes in common with it. An equal label ends the walk, and so does the last byte. -/
def splitAgainst (l r : Nat) (nextL : Nat) :
    ByteSet → List (ByteSet × Nat) → Alignment → Alignment
  | _, [], al => al
  | codeL, (codeR, nextR) :: others, al =>
    -- the labels of the right state are disjoint, so that no other one has bytes in common with it
    if codeR = codeL then al.pair nextL nextR
    else
      let al := al.cut l r codeL nextL codeR nextR
      let restL := codeL \ (codeL ∩ codeR)
      if restL.isEmpty then al else splitAgainst l r nextL restL others al

/-- The labels of a right state that have bytes in common with a label. -/
def candidates (al : Alignment) (r : Nat) (codeL : ByteSet) : List (ByteSet × Nat) :=
  (al.right.state r).transitions.entries.filter (·.1.intersects codeL)

def splitLabels (l r : Nat) (labels : List (ByteSet × Nat)) (al : Alignment) : Alignment :=
  labels.foldl (fun al (codeL, nextL) =>
    al.splitAgainst l r nextL codeL (al.candidates r codeL)) al

def alignStates (al : Alignment) (l r : Nat) : Alignment :=
  al.splitLabels l r (al.left.state l).transitions.entries

def alignLevel (level : List (Nat × Nat)) (al : Alignment) : Alignment :=
  level.foldl (fun al (l, r) => al.alignStates l r) { al with found := [] }

/-- Splits the labels of the pairs of a level, and takes the pairs found there next. -/
def alignStep : List (Nat × Nat) × Alignment → ForInStep (List (Nat × Nat) × Alignment)
  | ([], al) => .done ([], al)
  | (level, al) =>
    let al := al.alignLevel level
    .yield (al.found.reverse, al)

def compactLeft (al : Alignment) : Alignment :=
  if al.leftHoles then
    let pairs := al.pairs.filter fun _ l => !(al.left.state l).isHole
    let (left, moved) := al.left.compact
    { al with left, pairs := pairs.mapValues moved.apply }
  else al

def compactRight (al : Alignment) : Alignment :=
  if al.rightHoles then
    let pairs := al.pairs.filter fun r _ => !(al.right.state r).isHole
    let (right, moved) := al.right.compact
    { al with right, pairs := pairs.rename moved }
  else al

end Alignment

namespace Automaton

/-- Makes two trees comparable. The answer holds both trees without holes and which states of
them correspond. A tree of a single state has no labels to split. -/
def align (left right : Automaton) : Alignment :=
  if left.size < 2 || right.size < 2 then
    let pairs := if left.isEmpty || right.isEmpty then ∅ else (∅ : Matching).insert 0 0
    ⟨left, right, pairs, [], false, false⟩
  else
    let al : Alignment := ⟨left, right, (∅ : Matching).insert 0 0, [], false, false⟩
    ((Loop.run Alignment.alignStep (left.size + 1) ([(0, 0)], al)).2.compactLeft).compactRight

end Automaton
end ByteMatch
