import ByteMatch.Pattern.AssertionClass

/-!
# ByteMatch.Pattern

Patterns: sequences, alternatives, repetitions, character classes and assertions.

The nodes of a pattern are kept in a list and refer to each other by their places in it. A node
may be the child of several others. Character classes have been loaded into a machine before, and
a pattern refers to them by their states.

* `Attributes`: what is known about a node. The first group comes with the pattern and the second
  one is found out while the pattern is compiled.
* `Pattern.update`: changes a node.
-/

namespace ByteMatch

/-- What is known about a node. -/
structure Attributes where
  /-- A group or a repetition that takes as little as possible. -/
  lazy : Bool := false
  /-- A group that gives back what it has consumed. -/
  lookahead : Bool := false
  /-- A group that is not reported. -/
  uncaptured : Bool := false
  /-- A repetition whose body cannot match the first character of what follows. -/
  disjoint : Bool := false
  /-- An alternative that is a tail shared by others, and is reached by a jump. -/
  sharedTail : Bool := false
  /-- A repetition with a guard, which lets failed anchors be skipped. -/
  controlling : Bool := false
  /-- The first character of the node has been tested ahead. -/
  previewed : Bool := false
  /-- The guard of the repetition has been tested. -/
  guardTested : Bool := false
  /-- Matches of the pattern start at the start of the buffer. -/
  atBufferStart : Bool := false
  /-- Matches of the pattern start at the start of a line. -/
  afterNewline : Bool := false
  /-- A group that some backreference refers to. -/
  referenced : Bool := false
deriving DecidableEq, Repr, Inhabited

namespace Attributes

/-- The attributes whose bits are set in a word. -/
def ofWord (w : Nat) : Attributes where
  lazy := w.testBit 0
  lookahead := w.testBit 1
  uncaptured := w.testBit 2
  disjoint := w.testBit 8
  sharedTail := w.testBit 9
  controlling := w.testBit 10
  previewed := w.testBit 12
  guardTested := w.testBit 13
  atBufferStart := w.testBit 14
  afterNewline := w.testBit 15
  referenced := w.testBit 16

/-- The word with a bit for each attribute. -/
def toWord (a : Attributes) : Nat :=
  a.lazy.toNat + a.lookahead.toNat * 0x2 + a.uncaptured.toNat * 0x4 +
    a.disjoint.toNat * 0x100 + a.sharedTail.toNat * 0x200 + a.controlling.toNat * 0x400 +
    a.previewed.toNat * 0x1000 + a.guardTested.toNat * 0x2000 +
    a.atBufferStart.toNat * 0x4000 + a.afterNewline.toNat * 0x8000 +
    a.referenced.toNat * 0x10000

end Attributes

/-- The group that a backreference refers to. -/
inductive Reference where
  | mark (mark : Nat)
  | name (name : String)
deriving DecidableEq, Repr

/-- Assertions and other nodes that consume no character of a class. -/
inductive Action where
  /-- The start of the buffer, or after a newline. -/
  | textStart
  /-- The end of the buffer, or before a newline. -/
  | textEnd
  | bufferStart
  | bufferEnd
  | wordBoundary
  | notWordBoundary
  /-- The boundary of a grapheme cluster. -/
  | grapheme
  /-- The text that a group has matched. -/
  | backreference (target : Reference)
deriving DecidableEq, Repr

/-- The kinds of nodes. -/
inductive Kind where
  /-- The children one after the other. -/
  | group
  /-- One of the children, the first ones preferred. -/
  | alternation
  /-- The child, at least `min` times and at most `max` times. -/
  | repetition (min : Nat) (max : Option Nat)
  /-- A character of the class at state `root`. -/
  | charClass (root : Nat)
  | action (a : Action)
deriving DecidableEq, Repr, Inhabited

namespace Kind

/-- The class of a node that matches a single character. -/
def class? : Kind → Option Nat
  | charClass root => some root
  | _ => none

end Kind

/-- A node. Classes are given by their states and nodes by their places. -/
structure Node where
  kind : Kind
  attributes : Attributes := {}
  children : List Nat := []
  name : Option String := none
  /-- The class of the characters that a match of the node can start with. -/
  preview : Option Nat := none
  /-- The node that follows a repetition. -/
  lookAhead : Option Nat := none
  /-- The number that is reported if this alternative matches. -/
  altIndex : Option Nat := none
  mark : Option Nat := none
  guard : Option Nat := none
deriving DecidableEq, Repr, Inhabited

structure Pattern where
  nodes : Array Node
  root : Option Nat := none
  /-- The classes that assertions need. -/
  aux : List (AssertionClass × Nat) := []
  /-- Byte order bits for the machine. -/
  endianMask : Nat := 0
  /-- How far the anchor moves on after a failure. -/
  stride : Nat := 1
deriving DecidableEq, Repr

/-- The repeat count that stands for no upper bound. -/
def unmeasured : Nat := 0xFFFF

namespace Pattern

def node (p : Pattern) (i : Nat) : Node := p.nodes.getD i default

def update (p : Pattern) (i : Nat) (f : Node → Node) : Pattern :=
  { p with nodes := p.nodes.modify i f }

def updateAttributes (p : Pattern) (i : Nat) (f : Attributes → Attributes) : Pattern :=
  p.update i fun n => { n with attributes := f n.attributes }

/-- The class that has been registered for an assertion. -/
def assertionClass? (p : Pattern) (a : AssertionClass) : Option Nat := p.aux.lookup a

end Pattern
end ByteMatch
