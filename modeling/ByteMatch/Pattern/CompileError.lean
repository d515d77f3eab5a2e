import ByteMatch.Instruction.Template
import ByteMatch.Machine
import ByteMatch.Pattern.AssertionClass
import ByteMatch.Text.Radix

/-!
# ByteMatch.Pattern.CompileError

Why a pattern cannot be compiled.
-/

namespace ByteMatch

/-- What an operand of an instruction stands for. -/
inductive OperandRole where
  | charClass
  | guard
  | repeatCount
  | branch
  | alternativeIndex
deriving DecidableEq, Repr

namespace OperandRole

def name : OperandRole → String
  | charClass => "class"
  | guard => "guard"
  | repeatCount => "repeat count"
  | branch => "branch"
  | alternativeIndex => "alternative index"

end OperandRole

/-- What is wrong with a pattern that does not describe anything. -/
inductive Malformation where
  | emptyRepetition
  | missingGuard
deriving DecidableEq, Repr

namespace Malformation

def message : Malformation → String
  | emptyRepetition => "repeat without a body"
  | missingGuard => "controlling repeat without a guard"

end Malformation

/-- Why a pattern cannot be compiled. -/
inductive CompileError where
  | tooManyGroups (limit : Nat)
  | noAlternativeMark (used : Nat)
  | tooManyCounters (limit : Nat)
  | tooManyDynamicMarks (limit : Nat)
  | tooManyGuards (limit : Nat)
  | programTooLarge (length address : Nat)
  | unknownBackreference (name : String)
  | invalidBackreference (mark : Nat)
  | missingClass (a : AssertionClass)
  | operandOverflow (role : OperandRole) (value : Int)
  | templateArity (e : ArityMismatch)
  | unresolved (place : Nat)
  | noReturn
  | noRoot
  | malformed (m : Malformation)
  | machine (e : MachineError)
deriving DecidableEq, Repr

namespace CompileError

def message : CompileError → String
  | tooManyGroups limit => s!"too many capture groups (maximum is {limit})"
  | noAlternativeMark used => s!"no mark left for indexing alternatives ({used} marks in use)"
  | tooManyCounters limit => s!"too many nested loops (maximum is {limit})"
  | tooManyDynamicMarks limit =>
    s!"not enough marks for lookaheads and lazy groups (maximum is {limit})"
  | tooManyGuards limit => s!"too many guarded repeats (maximum is {limit})"
  | programTooLarge length address =>
    s!"program too large ({length} instructions at address {address})"
  | unknownBackreference name => "unknown group `" ++ name ++ "` in backreference"
  | invalidBackreference mark => s!"backreference to non-existent group {mark}"
  | missingClass a => "auxiliary class `" ++ a.name ++ "` is not registered"
  | operandOverflow role value => s!"{role.name} {value} doesn't fit in an instruction operand"
  | templateArity e => e.message
  | unresolved place => "unpatched instruction at address " ++ Text.hexPadded 5 place
  | noReturn => "alternation return stack is empty"
  | noRoot => "tree has no root"
  | malformed m => "malformed tree: " ++ m.message
  | machine e => e.message

end CompileError
end ByteMatch
