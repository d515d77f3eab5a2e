import ByteMatch.Automaton
import ByteMatch.Loop

/-!
# ByteMatch.Automaton.Merge

From a tree to the smallest graph: states that accept the same strings become one.

States are resolved children first. The transitions of a state are redirected to the resolved
children, and the labels that lead to the same child are combined. Two states with the same
leaf and the same combined transitions accept the same strings. States that accept nothing are
dropped, together with the transitions that lead to them.

* `Signature`: a leaf and combined transitions, what a state is recognised by.
* `Automaton.resolveAll`: resolves the states of a tree, each one after the states below it.
* `Automaton.merge?`: the graph, numbered breadth first from the root, unless the root accepts
  nothing.
-/

namespace ByteMatch

/-- What has become of a state of the tree. -/
inductive Resolution where
  /-- The state has not been visited. -/
  | pending
  /-- The state accepts nothing. -/
  | dropped
  /-- The state is represented by the signature with this number. -/
  | kept (id : Nat)
deriving DecidableEq, Inhabited

/-- A leaf, and the combined labels of the transitions to each destination, which ascend. -/
structure Signature where
  leaf : Option ByteSet
  targets : List (Nat × ByteSet)
deriving DecidableEq

namespace Signature

/-- Adds bytes to the label of a destination. -/
def combine (dest : Nat) (code : ByteSet) : List (Nat × ByteSet) → List (Nat × ByteSet)
  | [] => [(dest, code)]
  | entry :: rest =>
    if dest < entry.1 then (dest, code) :: entry :: rest
    else if entry.1 < dest then entry :: combine dest code rest
    else (dest, entry.2 ∪ code) :: rest

/-- Whether nothing is accepted from a state with this signature. -/
def acceptsNothing (s : Signature) : Bool := s.leaf.isNone && s.targets.isEmpty

/-- Where the signature is filed: 0 without transitions, and else after the last destination. -/
def row (s : Signature) : Nat := (s.targets.getLast?.map (·.1 + 1)).getD 0

def toState (s : Signature) : State :=
  ⟨Transitions.ofList (s.targets.map fun t => (t.2, t.1)), s.leaf⟩

end Signature

/-- The signatures found so far and what has become of each state. The numbers of the signatures
are filed by the place of their last destination, so that few of them need to be compared. -/
structure Merging where
  signatures : Array Signature
  rows : Array (List Nat)
  resolved : Array Resolution

namespace Merging

def start (size : Nat) : Merging := ⟨#[], #[[]], Array.replicate size .pending⟩

def resolution (m : Merging) (q : Nat) : Resolution := m.resolved.getD q .pending

/-- Adds the label of a transition to a state that has been kept. -/
def addTarget (m : Merging) (ts : List (Nat × ByteSet)) (e : ByteSet × Nat) : List (Nat × ByteSet) :=
  match m.resolution e.2 with
  | .kept id => Signature.combine id e.1 ts
  | _ => ts

def targets (m : Merging) (t : Transitions) : List (Nat × ByteSet) :=
  t.entries.foldl m.addTarget []

/-- The signature of a state whose children have been resolved. Empty leaves and empty labels do
not count. -/
def signature (m : Merging) (s : State) : Signature :=
  ⟨s.leaf.filter (!·.isEmpty), (m.targets s.transitions).filter (!·.2.isEmpty)⟩

def find? (m : Merging) (sig : Signature) : Option Nat :=
  (m.rows.getD sig.row []).find? fun id => m.signatures[id]? = some sig

/-- Adds a signature, with the next number. A new number may become a last destination itself, so
it gets a row. -/
def add (m : Merging) (sig : Signature) : Merging :=
  let id := m.signatures.size
  { m with
    signatures := m.signatures.push sig
    rows := (m.rows.modify sig.row (id :: ·)).push [] }

def note (m : Merging) (q : Nat) (r : Resolution) : Merging :=
  { m with resolved := m.resolved.setIfInBounds q r }

def resolve (m : Merging) (q : Nat) (s : State) : Merging :=
  let sig := m.signature s
  if sig.acceptsNothing then m.note q .dropped
  else
    match m.find? sig with
    | some id => m.note q (.kept id)
    | none =>
      let id := m.signatures.size
      (m.add sig).note q (.kept id)

end Merging

/-- A step of the walk through a tree. -/
inductive Visit where
  /-- The state is reached from above. -/
  | enter (q : Nat)
  /-- All states below the state have been left. -/
  | leave (q : Nat)

namespace Automaton

/-- Takes the visit on top of a stack. A state is resolved after the states below it, and the child
of its last label comes first. -/
def resolveStep (tree : Automaton) : List Visit × Merging → ForInStep (List Visit × Merging)
  | ([], m) => .done ([], m)
  | (.enter q :: rest, m) =>
    if m.resolution q = .pending then
      let children := (tree.state q).transitions.dests.reverse.map Visit.enter
      .yield (children ++ .leave q :: rest, m)
    else .yield (rest, m) -- resolved below another state in the meantime
  | (.leave q :: rest, m) => .yield (rest, m.resolve q (tree.state q))

def transitionCount (a : Automaton) : Nat :=
  a.foldl (fun count s => count + s.transitions.size) 0

/-- Resolves all states that can be reached from the root. Each state is left once, and it is
entered once for each transition that leads to it. -/
def resolveAll (tree : Automaton) : Merging :=
  (Loop.run tree.resolveStep (tree.size + tree.transitionCount + 2)
    ([.enter 0], Merging.start tree.size)).2

/-- The states in breadth-first order, and the place of each one in it. -/
structure Ranking where
  order : Array Nat
  place : Array (Option Nat)

/-- Puts a state at the end of the order unless it has a place. -/
def Ranking.add (n : Ranking) (q : Nat) : Ranking :=
  if (n.place.getD q none).isNone then
    let last := n.order.size
    { order := n.order.push q, place := n.place.setIfInBounds q (some last) }
  else n

def rankStep (a : Automaton) : Nat × Ranking → ForInStep (Nat × Ranking)
  | (i, n) =>
    if h : i < n.order.size then
      .yield (i + 1, (a.state n.order[i]).transitions.dests.foldl Ranking.add n)
    else .done (i, n)

def rankStart (a : Automaton) (root : Nat) : Ranking :=
  ⟨#[root], (Array.replicate a.size none).setIfInBounds root (some 0)⟩

/-- The states that can be reached from `root`, in breadth-first order. -/
def breadthFirst (a : Automaton) (root : Nat) : Ranking :=
  (Loop.run a.rankStep (a.size + 1) (0, a.rankStart root)).2

def renumbered (a : Automaton) (root : Nat) : Automaton :=
  let n := a.breadthFirst root
  n.order.map fun q => (a.state q).mapDest fun dest => (n.place.getD dest none).getD 0

/-- The smallest graph that accepts the strings of a tree, unless it accepts none. -/
def merge? (tree : Automaton) : Option Automaton :=
  let m := tree.resolveAll
  match m.resolution 0 with
  | .kept root => some (renumbered (m.signatures.map Signature.toState) root)
  | _ => none

end Automaton
end ByteMatch
