import ByteMatch.Automaton
import ByteMatch.Loop

/-!
# ByteMatch.Automaton.Subtree

Copying and removing subtrees.

* `Automaton.copySubtree`: appends a copy of the subtree below a state.
* `Automaton.eraseSubtree`: turns the states of a subtree into holes.

Both keep a stack of the states that are still to be visited. In a tree each state is visited at
most once, so there are no more steps than states.
-/

namespace ByteMatch
namespace Automaton

/-- Copies the state on top of a stack of sources and their targets, and appends states for the
copies of its children, which get consecutive numbers in the order of their labels. The last child
is completed first. -/
def copyStep : List (Nat × Nat) × Automaton → ForInStep (List (Nat × Nat) × Automaton)
  | ([], a) => .done ([], a)
  | ((source, target) :: rest, a) =>
    let s := a.state source
    let base := a.size
    let children := s.transitions.dests
    let copied : Automaton :=
      a.setIfInBounds target { s with transitions := s.transitions.consecutive base }
    .yield ((children.zipIdx base).reverse ++ rest,
      copied ++ Array.replicate children.length State.hole)

def copyStart (a : Automaton) (source : Nat) : List (Nat × Nat) × Automaton :=
  ([(source, a.size)], a.push State.hole)

def copySubtree (a : Automaton) (source : Nat) : Automaton :=
  (Loop.run copyStep (a.size + 1) (a.copyStart source)).2

/-- Turns the state on top of a stack into a hole, and takes the states below it next. -/
def eraseStep : List Nat × Automaton → ForInStep (List Nat × Automaton)
  | ([], a) => .done ([], a)
  | (q :: rest, a) => .yield ((a.state q).transitions.dests ++ rest, a.setIfInBounds q State.hole)

def eraseSubtree (a : Automaton) (q : Nat) : Automaton :=
  (Loop.run eraseStep (a.size + 1) ([q], a)).2

end Automaton
end ByteMatch
