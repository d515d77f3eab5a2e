import ByteMatch.Instruction

/-!
# ByteMatch.Instruction.Template

The fixed sequences of instructions that constructs of patterns are made of. Some operands are
slots that are filled in with classes, counters, marks and offsets.

* `Template.instantiate`: fills the slots in their order. Their number has to match.
-/

namespace ByteMatch

inductive Operand where
  | fixed (value : Int)
  | argument
deriving DecidableEq, Repr

structure TemplateInstruction where
  opcode : UInt8
  index : Operand
  address : Operand
  halt : Bool
deriving DecidableEq, Repr

/-- A sequence of instructions with slots. -/
abbrev Template := List TemplateInstruction

/-- A template that got the wrong number of arguments. -/
structure ArityMismatch where
  expected : Nat
  found : Nat
deriving DecidableEq, Repr

def ArityMismatch.message (e : ArityMismatch) : String :=
  s!"template with {e.expected} operands got {e.found}"

namespace Template

def argumentCount : Operand → Nat
  | .fixed _ => 0
  | .argument => 1

def arity : Template → Nat
  | [] => 0
  | i :: rest => argumentCount i.index + argumentCount i.address + arity rest

/-- Fills one operand. The answer also holds the arguments that are left. -/
def fillOperand : Operand → List Int → Int × List Int
  | .fixed value, args => (value, args)
  | .argument, args => (args.headD 0, args.tail)

def fill : Template → List Int → Code
  | [], _ => []
  | i :: rest, args =>
    let (index, args) := fillOperand i.index args
    let (address, args) := fillOperand i.address args
    ⟨i.opcode, index, address, i.halt⟩ :: fill rest args

/-- The instructions of a template with the given arguments. -/
def instantiate (t : Template) (args : List Int) : Except ArityMismatch Code :=
  if arity t = args.length then .ok (fill t args) else .error ⟨arity t, args.length⟩

/-- An instruction that goes on with the next one. -/
def going (opcode : UInt8) (index address : Operand) : TemplateInstruction :=
  ⟨opcode, index, address, false⟩

/-- An instruction that ends the thread unless it jumps. -/
def ending (opcode : UInt8) (index address : Operand) : TemplateInstruction :=
  ⟨opcode, index, address, true⟩

open Opcode Operand

/-! ## Starting a match -/

/-- Finds the next newline and starts after it, or at the start of the buffer. -/
def scanNewline : Template :=
  [ going (test ||| flags) (fixed MachineFlag.start) (fixed 4),
    going (character ||| previous ||| branch) (fixed 1) argument,
    going test (fixed 0) (fixed 2),
    going scan (fixed 0) argument,
    going (character ||| branch) (fixed 1) argument,
    going test (fixed 0) (fixed (-1)),
    going markStart (fixed 0) (fixed 0) ]

def scanFor : Template := [going scan (fixed 0) argument]

def reportMatch : Template := [ending report (fixed 0) (fixed 0)]

/-! ## Groups -/

def groupStart : Template := [going markStart argument (fixed 0)]

/-- Opens a lazy group. -/
def lazyGroupStart : Template := [going setContext argument (fixed 0)]

/-- Closes a group in a thread of its own. -/
def groupEnd : Template :=
  [ending newThread (fixed 0) (fixed 1), going markEnd argument (fixed 0)]

/-- Closes a lookahead group: the position goes back to where the group began. -/
def groupReset : Template := [going resetToMark argument (fixed 0)]

/-! ## Alternatives -/

/-- Records which alternative is taken. -/
def alternativeMark : Template := [going setMark argument argument]

/-- Skips an alternative whose guard does not hold. -/
def alternativeGuard : Template := [going (test ||| negate ||| guard) argument argument]

/-- Skips instructions unless the next character is in a class. -/
def charZero : Template := [going (character ||| zeroWidth ||| branch) argument argument]

/-! ## Repetitions -/

/-- Skips the fork that follows unless the next character is in a class. -/
def lookaheadFork : Template :=
  [going (character ||| zeroWidth ||| branch) argument argument, going null (fixed 0) (fixed 0)]

def loopSetCount : Template := [going setCount argument argument]

/-- Counts down and goes back while the counter is not zero. -/
def loopTest : Template := [going (test ||| negate ||| count) argument argument]

/-- Ends the thread unless a guard holds. -/
def loopGuard : Template := [ending (test ||| guard) argument argument]

/-- Goes on in a thread of its own, behind the threads that run already. -/
def yieldThread : Template := [ending newThread (fixed 0) (fixed 1)]

/-! ## Characters -/

/-- Consumes a character of a class. -/
def char : Template := [going character (fixed 0) argument]

def charBranchTo : Template := [going (character ||| branch) argument argument]

def charAnchor : Template := [going (character ||| setGuard) (fixed 0) argument]

def charAnchorBranch : Template := [going (character ||| branch ||| setGuard) argument argument]

/-- Looks at the next character. -/
def lookahead : Template := [going (character ||| zeroWidth) (fixed 0) argument]

/-- Looks at the character before the position. -/
def previousChar : Template := [going (character ||| previous) (fixed 0) argument]

/-! ## Assertions -/

def lineStart : Template :=
  [ going (test ||| flags) (fixed MachineFlag.start) (fixed 3),
    ending (character ||| zeroWidth ||| branch) (fixed 0) argument,
    going (character ||| previous) (fixed 0) argument ]

def lineEnd : Template :=
  [ going (test ||| flags) (fixed MachineFlag.finish) (fixed 3),
    going (character ||| zeroWidth) (fixed 0) argument,
    ending (character ||| previous ||| branch) (fixed 0) argument ]

/-- The text of a group once more. -/
def backreference : Template := [ending (test ||| back) argument (fixed 1)]

/-- Between a character of a word and one that is of none. -/
def wordBoundary : Template :=
  [ going (character ||| zeroWidth ||| branch) (fixed 3) argument,
    going (test ||| flags) (fixed MachineFlag.start) (fixed 6),
    going (character ||| previous) (fixed 0) argument,
    going test (fixed 0) (fixed 4),
    going (test ||| flags) (fixed MachineFlag.finish) (fixed 2),
    going (character ||| zeroWidth) (fixed 0) argument,
    going (character ||| previous) (fixed 0) argument ]

/-- Between two characters of words or two that are of none. -/
def notWordBoundary : Template :=
  [ going (character ||| zeroWidth ||| branch) (fixed 2) argument,
    going (character ||| previous) (fixed 0) argument,
    going test (fixed 0) (fixed 5),
    going (test ||| flags) (fixed MachineFlag.finish) (fixed 2),
    going (character ||| zeroWidth) (fixed 0) argument,
    going (test ||| flags) (fixed MachineFlag.start) (fixed 2),
    going (character ||| previous) (fixed 0) argument ]

def testStart : Template := [ending (test ||| flags) (fixed MachineFlag.start) (fixed 1)]

def testEnd : Template := [ending (test ||| flags) (fixed MachineFlag.finish) (fixed 1)]

def jumpIfStart : Template := [going (test ||| flags) (fixed MachineFlag.start) argument]

def jumpIfEnd : Template := [going (test ||| flags) (fixed MachineFlag.finish) argument]

/-- Fails between a character of the first class and one of the second. -/
def failBetween : Template :=
  [ going (character ||| previous ||| branch) (fixed 1) argument,
    ending (character ||| zeroWidth ||| branch) (fixed 0) argument ]

def jumpIfAfter : Template :=
  [ going (character ||| previous ||| branch) (fixed 1) argument, going test (fixed 0) argument ]

def jumpIfBefore : Template :=
  [ going (character ||| zeroWidth ||| branch) (fixed 1) argument, going test (fixed 0) argument ]

def failAfter : Template := [ending (character ||| previous ||| branch) (fixed 0) argument]

def failBefore : Template := [ending (character ||| zeroWidth ||| branch) (fixed 0) argument]

/-! ## Control -/

/-- Stands for an instruction that is not known yet. -/
def placeholder : Template := [going null (fixed 0) (fixed 0)]

def nop : Template := [going (test ||| negate) (fixed 0) (fixed 0)]

def stopThread : Template := [ending (test ||| negate) (fixed 0) (fixed 0)]

def jump : Template := [going test (fixed 0) argument]

end Template
end ByteMatch
