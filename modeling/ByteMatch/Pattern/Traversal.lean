import ByteMatch.Pattern.Outline

/-!
# ByteMatch.Pattern.Traversal

A walk through a pattern with a stack of steps that are still to be taken.

* `Traversal.next?`: takes the step on top of the stack.
* `Pattern.traverse`: all steps from a node. There are two for each place of its outline.
-/

namespace ByteMatch

/-- The steps that are still to be taken. -/
abbrev Traversal := List Event

namespace Traversal

def start (i : Nat) : Traversal := [.enter i]

/-- Takes a step. After a node has been entered its children come next, in their order, and then
the node is left. -/
def next? (p : Pattern) : Traversal → Option (Event × Traversal)
  | [] => none
  | .enter i :: rest =>
    some (.enter i, (p.node i).children.map Event.enter ++ .leave i :: rest)
  | .leave i :: rest => some (.leave i, rest)

def run (p : Pattern) : Nat → Traversal → List Event
  | 0, _ => []
  | count + 1, t =>
    match t.next? p with
    | some (e, t) => e :: run p count t
    | none => []

end Traversal

namespace Pattern

def traverse (p : Pattern) (i : Nat) : List Event :=
  (Traversal.start i).run p (2 * (p.outline i).size)

end Pattern
end ByteMatch
