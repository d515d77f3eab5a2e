/-!
# ByteMatch.Limits

The capacity of a machine. A pattern that needs more fails to compile.
-/

namespace ByteMatch

/-- The number of bits of a mark mask, and so the highest number of marks. -/
def markBits : Nat := 32

/-- What a machine has room for. -/
structure Limits where
  /-- States of character automata. -/
  maxStates : Nat := 16384
  /-- Instructions. -/
  maxBytecode : Nat := 49152
  /-- Loop counters in use at the same time. -/
  maxCounters : Nat := 4
  /-- Marks, each for the two ends of a group. -/
  maxMarkPairs : Nat := 32
  /-- Guards of repetitions. -/
  maxGuards : Nat := 4096
deriving DecidableEq, Repr, Inhabited

namespace Limits

/-- The number of marks of a program. -/
def marks (l : Limits) : Nat := min l.maxMarkPairs markBits

end Limits
end ByteMatch
