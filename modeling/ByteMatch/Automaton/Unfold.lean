import ByteMatch.Automaton
import ByteMatch.Loop

/-!
# ByteMatch.Automaton.Unfold

From a graph to a tree: each path from the root becomes a state of its own. States are numbered
breadth first, the children of a state in the order of its labels.

* `Automaton.unfoldState`, `Automaton.unfoldStep`: gives children to a state of the tree, and to all
  states of a level.
* `Automaton.unfold`: the whole tree. A path of an acyclic graph visits each state at most once,
  so there are no more levels than states.
-/

namespace ByteMatch

/-- A tree on the way to completion, and the states of its last level that still lack children:
pairs of a state of the graph and the state of the tree that stands for it. -/
structure Unfolding where
  tree : Automaton
  next : Array (Nat × Nat)

namespace Automaton

/-- Appends the child at a state of the graph, as a state that has only its leaf yet. -/
def unfoldChild (graph : Automaton) (u : Unfolding) (child : Nat) : Unfolding :=
  let s := graph.state child
  let new := u.tree.size
  { tree := u.tree.push ⟨∅, s.leaf⟩
    next := if s.transitions.isEmpty then u.next else u.next.push (child, new) }

def unfoldState (graph : Automaton) (u : Unfolding) (pair : Nat × Nat) : Unfolding :=
  let children := (graph.state pair.1).transitions
  let labels := children.consecutive u.tree.size
  let tree := u.tree.modify pair.2 fun s => { s with transitions := labels }
  children.dests.foldl (unfoldChild graph) { u with tree }

def unfoldStep (graph : Automaton) (u : Unfolding) : ForInStep Unfolding :=
  if u.next.isEmpty then .done u
  else .yield (u.next.toList.foldl (unfoldState graph) { u with next := #[] })

def unfoldStart (graph : Automaton) : Unfolding := ⟨#[⟨∅, (graph.state 0).leaf⟩], #[(0, 0)]⟩

/-- The tree of the paths from the root of an acyclic graph. -/
def unfold (graph : Automaton) : Automaton :=
  (Loop.run graph.unfoldStep (graph.size + 1) graph.unfoldStart).tree

end Automaton
end ByteMatch
