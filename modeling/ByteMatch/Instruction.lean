/-!
# ByteMatch.Instruction

The instructions of the matching machine.

An instruction has an opcode, an index, an address and a flag that ends the thread. Character tests
and jumps are sets of bits, the other opcodes are plain numbers. While a program is made, the
address of a fork or a jump is relative to the instruction that holds it.

* `Opcode`: the numbers and bits.
* `Instruction.isRelative`: whether the address is a place in the program.
* `relocate`: absolute addresses for a program that is loaded at some base.
-/

namespace ByteMatch
namespace Opcode

/-! ## Character tests -/

/-- Tests the next character against the class at `address`, and consumes it. -/
def character : UInt8 := 0x20
/-- The test sets the guard of the repetition that controls the anchor. -/
def setGuard : UInt8 := 0x10
/-- The test does not consume the character. -/
def zeroWidth : UInt8 := 0x08
/-- The character continues the one of the instruction before. -/
def continued : UInt8 := 0x04
/-- Tests the character before the current position. -/
def previous : UInt8 := 0x02
/-- A test that fails goes on `index + 1` instructions ahead. -/
def branch : UInt8 := 0x01

/-! ## Jumps -/

/-- Jumps to `address` if a condition holds. Without further bits it always holds. -/
def test : UInt8 := 0x40
/-- Negates the condition. -/
def negate : UInt8 := 0x01
/-- The condition is a flag of the machine. -/
def flags : UInt8 := 0x02
/-- The condition is that counter `index` has reached zero. -/
def count : UInt8 := 0x04
/-- The condition is guard `index`. -/
def guard : UInt8 := 0x08
/-- The condition is that the text of group `index` comes next. -/
def back : UInt8 := 0x10

/-! ## Plain opcodes -/

/-- Stands for an instruction that is not known yet. -/
def null : UInt8 := 0x00
/-- Starts a thread at `address`. -/
def newThread : UInt8 := 0x01
/-- Goes back to the position of mark `index`. -/
def resetToMark : UInt8 := 0x02
/-- Sets counter `index` to `address`. -/
def setCount : UInt8 := 0x03
/-- Reports a match. -/
def report : UInt8 := 0x04
/-- Moves on to a character of the class at `address`. -/
def scan : UInt8 := 0x05
/-- Opens a lazy group with mark `index`. -/
def setContext : UInt8 := 0x06
/-- Sets mark `index` to `address`. -/
def setMark : UInt8 := 0x07
/-- Marks the start of group `index`. -/
def markStart : UInt8 := 0x0A
/-- Marks the end of group `index`. -/
def markEnd : UInt8 := 0x0E

end Opcode

namespace MachineFlag

/-- The last character test succeeded. -/
def characterMatched : Int := 0x01
/-- The position is the start of the buffer. -/
def start : Int := 0x02
/-- The position is the anchor. -/
def anchor : Int := 0x04
/-- The position is the end of the buffer. -/
def finish : Int := 0x08
/-- A match has been reported. -/
def reported : Int := 0x10

end MachineFlag

/-- An instruction. Index and address are words of 32 bits with a sign. -/
structure Instruction where
  opcode : UInt8
  index : Int
  address : Int
  halt : Bool
deriving DecidableEq, Repr, Inhabited

abbrev Code := List Instruction

/-- A number as a word of 32 bits with a sign. -/
def wrap32 (n : Int) : Int := Int.bmod n 0x100000000

namespace Instruction

def hasBits (opcode bits : UInt8) : Bool := opcode &&& bits != 0

/-- Whether the address is a place in the program, as in forks and jumps. -/
def isRelative (i : Instruction) : Bool :=
  i.opcode == Opcode.newThread || hasBits i.opcode Opcode.test

/-- The instruction at place `pc` of the program area, with an absolute address. -/
def relocateAt (pc : Nat) (i : Instruction) : Instruction :=
  if i.isRelative then { i with address := wrap32 (i.address + pc) } else i

end Instruction

/-- A program with absolute addresses, for loading it at `base`. -/
def relocate (base : Nat) (code : Code) : Code :=
  (code.zipIdx base).map fun (i, pc) => i.relocateAt pc

end ByteMatch
