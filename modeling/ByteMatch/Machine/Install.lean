import ByteMatch.ByteSet.Ranges
import ByteMatch.CharSet
import ByteMatch.Machine

/-!
# ByteMatch.Machine.Install

Loading the automaton of a character set into a machine.

* `CharSet.rangeTransitions`: the transitions of the automaton, as ranges of bytes.
* `CharSet.install`: allocates states for the set in graph form and adds the transitions.
-/

namespace ByteMatch

/-- Why a character set cannot be loaded. -/
inductive InstallError where
  | tooManyStates (states available : Nat)
  | machine (e : MachineError)
deriving DecidableEq, Repr

namespace InstallError

def message : InstallError → String
  | tooManyStates states available =>
    s!"class too big for the VM ({states} states, {available} available)"
  | machine e => e.message

end InstallError

namespace CharSet

/-- The ranges of a label, all to the same destination. -/
def labelRanges (code : ByteSet) (dest : Nat) : List RangeTransition :=
  code.ranges.map fun (first, last) => ⟨first, last, dest⟩

/-- The ranges of the labels of a state and then those of its leaf. -/
def stateRanges (base : Nat) (s : State) : List RangeTransition :=
  s.transitions.entries.flatMap (fun (code, next) => labelRanges code (base + next)) ++
    (s.leaf.map (labelRanges · characterEnd)).getD []

/-- The transitions of an automaton whose root becomes state `base` of a machine. -/
def rangeTransitions (base : Nat) (states : Automaton) : List (Nat × RangeTransition) :=
  (states.toList.zipIdx base).flatMap fun (s, q) => (stateRanges base s).map ((q, ·))

/-- Loads a set in graph form, and answers its root. A set without states gets one that accepts
nothing. The limits are those that the loader reports, and the machine has its own. -/
def install (c : CharSet) (reported : Limits) : Machine.Loader InstallError Nat := do
  let states := c.toGraph.states
  let base := (← get).freeState
  let available := reported.maxStates - base
  -- one state more than the set has must be free
  if available ≤ states.size then throw (.tooManyStates states.size available)
  EStateM.adaptExcept .machine (Machine.allocate base (base + max 1 states.size))
  (rangeTransitions base states).forM fun (q, r) =>
    EStateM.adaptExcept .machine (Machine.addTransition q r)
  pure base

end CharSet
end ByteMatch
