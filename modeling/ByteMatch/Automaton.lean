import ByteMatch.Automaton.Transitions

/-!
# ByteMatch.Automaton

Automata over bytes. A path from state 0 over the labels of transitions to a leaf reads the bytes
of one character: each byte but the last follows a transition, and the last one is in the leaf of
the state that was reached.

* `State`: the transitions of a state and its leaf. A state with neither is a hole.
* `Automaton.accepts`: whether a string of bytes is one of the characters.
-/

namespace ByteMatch

/-- A state: its transitions, and the bytes that complete a character there. -/
structure State where
  transitions : Transitions
  leaf : Option ByteSet
deriving DecidableEq

namespace State

def hole : State := ⟨∅, none⟩

instance : Inhabited State := ⟨hole⟩

def isHole (s : State) : Bool := s.transitions.isEmpty && s.leaf.isNone

/-- Whether a byte completes a character in this state. -/
def completes (s : State) (b : UInt8) : Bool := s.leaf.any (·.contains b)

def addLeaf (s : State) (bytes : ByteSet) : State :=
  { s with leaf := some (s.leaf.getD ∅ ∪ bytes) }

/-- Adds a transition. One with the same label is replaced. -/
def addTransition (s : State) (code : ByteSet) (dest : Nat) : State :=
  { s with transitions := s.transitions.insert code dest }

def eraseTransition (s : State) (code : ByteSet) : State :=
  { s with transitions := s.transitions.erase code }

def mapDest (f : Nat → Nat) (s : State) : State :=
  { s with transitions := s.transitions.mapDest f }

end State

/-- The states of an automaton. State 0 is the root. -/
abbrev Automaton := Array State

namespace Automaton

/-- A state by its number. Numbers without a state stand for a hole. -/
def state (a : Automaton) (q : Nat) : State := a.getD q State.hole

/-- Whether the bytes lead from state `q` to the end of a character. -/
def acceptsFrom (a : Automaton) : Nat → List UInt8 → Bool
  | _, [] => false
  | q, [b] => (a.state q).completes b
  | q, b :: rest =>
    match (a.state q).transitions.step? b with
    | some next => acceptsFrom a next rest
    | none => false

/-- Whether the bytes are one of the characters. -/
def accepts (a : Automaton) (bytes : List UInt8) : Bool := a.acceptsFrom 0 bytes

/-- The leaves with the numbers of their states, ascending. -/
def leaves (a : Automaton) : List (Nat × ByteSet) :=
  a.toList.zipIdx.filterMap fun (s, q) => s.leaf.map fun leaf => (q, leaf)

end Automaton
end ByteMatch
