import ByteMatch.Instruction
import ByteMatch.Limits

/-!
# ByteMatch.Machine

The memory of a matching machine: states of character automata, instructions, and the entry points
of the compiled patterns.

* `Machine`: what has been loaded.
* `Machine.allocate`, `Machine.addTransition`, `Machine.appendProgram`, `Machine.register`:
  loading. An operation that fails changes nothing.
* `Machine.accepts`: whether bytes are a character of the class at some state.
-/

namespace ByteMatch

/-- The destination of transitions that complete a character. -/
def characterEnd : Nat := 0xFFFF

/-- Why something cannot be loaded. -/
inductive MachineError where
  | statesExhausted (requested available : Nat)
  | bytecodeExhausted (requested available : Nat)
  | badStateBlock (first last : Nat)
  | unallocatedState (state : Nat)
  | badStart (handle : Nat)
deriving DecidableEq, Repr

namespace MachineError

def message : MachineError → String
  | statesExhausted requested available =>
    s!"not enough VM states (requested {requested}, available {available})"
  | bytecodeExhausted requested available =>
    s!"not enough bytecode space (requested {requested}, available {available})"
  | badStateBlock first last =>
    s!"state block {first}..{last} doesn't start at the next free state"
  | unallocatedState state => s!"state {state} has not been allocated"
  | badStart handle => s!"unexpected start handle {handle}"

end MachineError

/-- A transition for the bytes from `first` to `last`. -/
structure RangeTransition where
  first : UInt8
  last : UInt8
  dest : Nat
deriving DecidableEq, Repr, Inhabited

namespace RangeTransition

def covers (r : RangeTransition) (b : UInt8) : Bool := r.first ≤ b && b ≤ r.last

end RangeTransition

/-- The entry point of a compiled pattern. -/
structure EntryPoint where
  /-- Byte order bits and the flags of the search. -/
  command : Nat
  startAddress : Nat
  groupCount : Nat
  offset : Nat
  stride : Nat
  guardCount : Nat
  /-- The groups that are the target of some backreference. -/
  backrefMask : UInt32
  /-- For each mark, the mask that clears the marks nested in it. -/
  subMasks : List UInt32
deriving DecidableEq, Repr, Inhabited

/-- What has been loaded into a machine. -/
structure Machine where
  limits : Limits
  states : Array (Array RangeTransition)
  program : Code
  starts : Array EntryPoint
deriving DecidableEq

namespace Machine

def empty (limits : Limits) : Machine := ⟨limits, #[], [], #[]⟩

def freeState (m : Machine) : Nat := m.states.size

def programEnd (m : Machine) : Nat := m.program.length

def nextHandle (m : Machine) : Nat := m.starts.size

def transitions (m : Machine) (q : Nat) : Array RangeTransition := m.states.getD q #[]

/-- The destination of the first transition for a byte. -/
def step? (m : Machine) (q : Nat) (b : UInt8) : Option Nat :=
  ((m.transitions q).find? (·.covers b)).map (·.dest)

/-- Whether the bytes lead from state `q` to the end of a character. Only the last byte takes a
transition that completes a character. -/
def accepts (m : Machine) : Nat → List UInt8 → Bool
  | _, [] => false
  -- a state may have both kinds of transitions for the same byte
  | q, [b] => (m.transitions q).any fun r => r.covers b && r.dest == characterEnd
  | q, b :: rest =>
    match (m.transitions q).find? fun r => r.covers b && r.dest != characterEnd with
    | some r => accepts m r.dest rest
    | none => false

/-! ## Loading -/

/-- Loading into a machine. After a failure the machine is as far as loading had got. -/
abbrev Loader (ε α : Type) := EStateM ε Machine α

/-- Allocates the states from `first` up to, not including, `last`. -/
def allocate (first last : Nat) : Loader MachineError Unit := fun m =>
  if first ≠ m.freeState ∨ last < first then .error (.badStateBlock first last) m
  else if m.limits.maxStates < last then
    .error (.statesExhausted (last - first) (m.limits.maxStates - first)) m
  else .ok () { m with states := m.states ++ Array.replicate (last - first) #[] }

def addTransition (q : Nat) (r : RangeTransition) : Loader MachineError Unit := fun m =>
  if q < m.freeState then .ok () { m with states := m.states.modify q (·.push r) }
  else .error (.unallocatedState q) m

/-- Appends a program, and answers the place of its first instruction. -/
def appendProgram (code : Code) : Loader MachineError Nat := fun m =>
  let base := m.programEnd
  let available := m.limits.maxBytecode - base
  if available < code.length then .error (.bytecodeExhausted code.length available) m
  else .ok base { m with program := m.program ++ code }

/-- Registers an entry point under the next handle. -/
def register (handle : Nat) (start : EntryPoint) : Loader MachineError Unit := fun m =>
  if handle = m.nextHandle then .ok () { m with starts := m.starts.push start }
  else .error (.badStart handle) m

end Machine
end ByteMatch
