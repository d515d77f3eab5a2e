import ByteMatch.Pattern

/-!
# ByteMatch.Pattern.Outline

The nodes below a node as a tree of places. A node with several parents occurs once below each.

The children of a node never change, so one outline serves all steps of a compilation.

* `Pattern.outline`: the nodes below a node. A path without repeated nodes has at most as many
  nodes as the pattern, so the unfolding is complete if no node is below itself.
* `Pattern.leading`: a node, its first child, the first child of that one and so on.
* `Outline.preorder`, `Outline.events`: the places in the order of a walk.
-/

namespace ByteMatch

/-- A tree of places. -/
inductive Outline where
  | node (place : Nat) (children : List Outline)

namespace Outline

def place : Outline → Nat
  | node i _ => i

mutual

/-- The number of places, a shared one counted once per occurrence. -/
def size : Outline → Nat
  | node _ children => sizeList children + 1

def sizeList : List Outline → Nat
  | [] => 0
  | o :: rest => size o + sizeList rest

end

mutual

/-- The places, each before those below it. -/
def preorder : Outline → List Nat
  | node i children => i :: preorderList children

def preorderList : List Outline → List Nat
  | [] => []
  | o :: rest => preorder o ++ preorderList rest

end
end Outline

/-- A step of a walk through a pattern. -/
inductive Event where
  | enter (place : Nat)
  | leave (place : Nat)
deriving DecidableEq, Repr

namespace Outline

mutual

/-- The steps of a walk: a node is entered, then come the walks through its children, and then the
node is left. -/
def events : Outline → List Event
  | node i children => .enter i :: eventsList children ++ [.leave i]

def eventsList : List Outline → List Event
  | [] => []
  | o :: rest => events o ++ eventsList rest

end
end Outline

namespace Pattern

/-- The nodes below a node, down to some depth. -/
def outlineTo (p : Pattern) : Nat → Nat → Outline
  | 0, i => .node i []
  | depth + 1, i => .node i ((p.node i).children.map (outlineTo p depth))

/-- The nodes below a node. -/
def outline (p : Pattern) (i : Nat) : Outline := p.outlineTo p.nodes.size i

/-- A node, its first child and so on, at most `count` nodes. -/
def leadingTo (p : Pattern) : Nat → Nat → List Nat
  | 0, _ => []
  | count + 1, i =>
    match (p.node i).children with
    | [] => [i]
    | child :: _ => i :: leadingTo p count child

/-- A node, its first child, the first child of that one and so on. -/
def leading (p : Pattern) (i : Nat) : List Nat := p.leadingTo p.nodes.size i

end Pattern
end ByteMatch
