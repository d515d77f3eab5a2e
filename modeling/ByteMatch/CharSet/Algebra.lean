import ByteMatch.CharSet
import ByteMatch.CharSet.Error

/-!
# ByteMatch.CharSet.Algebra

Union, intersection, difference, equality and concatenation of character sets.

All but concatenation align the trees of both sets first (`Automaton.align`). After that, the
leaves of corresponding states are combined, and only the union needs states of the right tree.

* `CharSet.union`, `CharSet.intersect`, `CharSet.difference`.
* `CharSet.equals`: whether two sets have the same characters.
* `CharSet.sequence`: the characters of one set, each followed by one of the other set.
-/

namespace ByteMatch
namespace Alignment

/-- Gives a fresh state of the left tree to a state of the right tree that has no partner. -/
def adoptState (al : Alignment) (s : State) (r : Nat) : Alignment :=
  if s.isHole || al.pairs.contains r then al
  else
    let l := al.left.size
    { al with left := al.left.push State.hole, pairs := al.pairs.insert r l }

def adopt (al : Alignment) : Alignment :=
  al.right.toList.zipIdx.foldl (fun al (s, r) => al.adoptState s r) al

/-- Adds a transition of a right state to its partner `l`. A transition between states below `old`
is there already. -/
def graftTransition (pairs : Matching) (old l : Nat) (left : Automaton) (code : ByteSet)
    (next : Nat) : Automaton :=
  match pairs.get? next with
  | some nextL =>
    if old ≤ l || old ≤ nextL then left.modify l (·.addTransition code nextL) else left
  | none => left

/-- Adds the transitions and the leaf of a right state to its partner. -/
def graft (pairs : Matching) (old : Nat) (left : Automaton) (s : State) (r : Nat) : Automaton :=
  match pairs.get? r with
  | none => left
  | some l =>
    let left := s.transitions.entries.foldl (fun left (code, next) =>
      graftTransition pairs old l left code next) left
    match s.leaf with
    | some leaf => left.modify l (·.addLeaf leaf)
    | none => left

/-- The left tree with all that the right tree accepts. -/
def united (al : Alignment) : Automaton :=
  let whole := al.adopt
  whole.right.toList.zipIdx.foldl
    (fun left (s, r) => graft whole.pairs al.left.size left s r) whole.left

/-- Notes the bytes that complete a character both in a right state and in its partner. -/
def shareLeaf (al : Alignment) (leaves : Array (Option ByteSet)) (s : State) (r : Nat) :
    Array (Option ByteSet) :=
  match s.leaf, al.pairs.get? r with
  | some leafR, some l =>
    match (al.left.state l).leaf with
    | some leafL =>
      let common := leafL ∩ leafR
      if common.isEmpty then leaves else leaves.setIfInBounds l (some common)
    | none => leaves
  | _, _ => leaves

def commonLeaves (al : Alignment) : Array (Option ByteSet) :=
  al.right.toList.zipIdx.foldl (fun leaves (s, r) => al.shareLeaf leaves s r)
    (Array.replicate al.left.size none)

/-- The left tree with the leaves that the right tree has too. -/
def intersected (al : Alignment) : Automaton :=
  let leaves := al.commonLeaves
  al.left.mapIdx fun q s => { s with leaf := leaves.getD q none }

/-- Takes the leaf of a right state away from the leaf of its partner. -/
def subtractLeaf (pairs : Matching) (left : Automaton) (s : State) (r : Nat) : Automaton :=
  match s.leaf, pairs.get? r with
  | some leafR, some l =>
    left.modify l fun t => { t with leaf := (t.leaf.map (· \ leafR)).filter (!·.isEmpty) }
  | _, _ => left

def subtracted (al : Alignment) : Automaton :=
  al.right.toList.zipIdx.foldl (fun left (s, r) => subtractLeaf al.pairs left s r) al.left

/-- Whether the trees correspond state by state, with the same leaves. -/
def same (al : Alignment) : Bool :=
  let leafCount (a : Automaton) := a.countP (·.leaf.isSome)
  let branchCount (a : Automaton) := a.countP (!·.transitions.isEmpty)
  al.left.size == al.right.size && leafCount al.left == leafCount al.right &&
    branchCount al.left == branchCount al.right && al.right.size == al.pairs.size &&
    al.right.toList.zipIdx.all fun (s, r) =>
      match s.leaf with
      | some leafR => ((al.pairs.get? r).bind fun l => (al.left.state l).leaf) == some leafR
      | none => true

end Alignment

namespace CharSet

def sameEncoding (a b : CharSet) : Except CharSetError Unit :=
  if a.encoding = b.encoding then .ok () else .error (.encodingMismatch a.encoding b.encoding)

/-- Both sets in tree form, made comparable. -/
def align (a b : CharSet) : Alignment := Automaton.align a.toTree.states b.toTree.states

/-- The set of the same encoding with the given tree, less the states that reach no leaf. -/
def ofTrimmed (a : CharSet) (tree : Automaton) : CharSet :=
  { a with states := (Automaton.compact (Automaton.trim tree)).1, form := .tree }

def union (a b : CharSet) : Except CharSetError CharSet := do
  sameEncoding a b
  if a.isEmpty then pure b
  else if b.isEmpty then pure a
  else pure { a with states := (a.align b).united, form := .tree }

def intersect (a b : CharSet) : Except CharSetError CharSet := do
  sameEncoding a b
  if a.isEmpty || b.isEmpty then pure (empty a.encoding)
  else pure (a.ofTrimmed (a.align b).intersected)

def difference (a b : CharSet) : Except CharSetError CharSet := do
  sameEncoding a b
  if a.isEmpty || b.isEmpty then pure a
  else pure (a.ofTrimmed (a.align b).subtracted)

def equals (a b : CharSet) : Except CharSetError Bool := do
  sameEncoding a b
  pure (a.align b).same

/-- The characters of the first set, each followed by a character of the second. An empty set on
either side leaves the other one, and an empty second set may have any encoding. -/
def sequence (a b : CharSet) : Except CharSetError CharSet := do
  if b.isEmpty then pure a
  else
    sameEncoding a b
    let right := b.toGraph
    if a.isEmpty then pure right
    else
      let left := a.toGraph.states
      let base := left.size
      let opened := left.map fun s =>
        match s.leaf with
        | some leaf => { s.addTransition leaf base with leaf := none }
        | none => s
      let states := opened ++ right.states.map (·.mapDest (· + base))
      pure { a with states, form := if states.size < 2 then .tree else .graph }

end CharSet
end ByteMatch
