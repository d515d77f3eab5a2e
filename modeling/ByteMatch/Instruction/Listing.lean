import ByteMatch.Instruction
import ByteMatch.Text.Radix

/-!
# ByteMatch.Instruction.Listing

Programs with relative addresses in readable form: a line for each instruction, with its place,
its name and its operands. Places have five digits in base sixteen.
-/

namespace ByteMatch
namespace Instruction

/-- The names of the bits that an opcode has. -/
def bitNames (opcode : UInt8) (names : List (UInt8 × String)) : String :=
  String.join ((names.filter fun n => hasBits opcode n.1).map (·.2))

def characterBits : List (UInt8 × String) :=
  [(Opcode.setGuard, "_GUARD"), (Opcode.zeroWidth, "_ZERO"), (Opcode.continued, "_CONT"),
    (Opcode.previous, "_PREV"), (Opcode.branch, "_BRANCH")]

def testBits : List (UInt8 × String) :=
  [(Opcode.negate, "_NOT"), (Opcode.flags, "_FLAGS"), (Opcode.count, "_COUNT"),
    (Opcode.guard, "_GUARD"), (Opcode.back, "_BACK")]

def flagNames : List (Int × String) :=
  [(MachineFlag.characterMatched, "CHARACTER_OK"), (MachineFlag.start, "START"),
    (MachineFlag.anchor, "ANCHOR"), (MachineFlag.finish, "END"), (MachineFlag.reported, "PUBLISH")]

/-- Whether a word with a sign has the bit of value `flag`. -/
def hasFlag (word flag : Int) : Bool := word / flag % 2 = 1

def placeText (place : Int) : String := Text.hexWord 5 place

/-- A character test: the class, and where a test that fails goes on. -/
def characterText (pc : Nat) (i : Instruction) : String :=
  let name := "CHAR" ++ bitNames i.opcode characterBits ++ " " ++ toString i.address
  if hasBits i.opcode Opcode.branch then name ++ " else " ++ placeText (pc + 1 + i.index)
  else name

/-- A jump: the condition and the target. Without a condition it is a plain jump, and the
negation of that does nothing. -/
def testText (pc : Nat) (i : Instruction) : String :=
  let modifiers := i.opcode &&& ~~~Opcode.test
  let target := placeText (pc + i.address)
  if modifiers == 0 then "JUMP " ++ target
  else if modifiers == Opcode.negate then "NOP"
  else
    let text := "TEST" ++ bitNames modifiers testBits ++ " " ++ toString i.index ++ " " ++ target
    if hasBits modifiers Opcode.flags then
      let names := (flagNames.filter fun f => hasFlag i.index f.1).map (·.2)
      text ++ " (" ++ String.intercalate "|" names ++ ")"
    else text

def plainText (pc : Nat) (i : Instruction) : String :=
  let index := toString i.index
  let address := toString i.address
  if i.opcode == Opcode.newThread then "FORK " ++ placeText (pc + i.address)
  else if i.opcode == Opcode.resetToMark then "RESET_TO_MARK " ++ index
  else if i.opcode == Opcode.setCount then "SET_COUNT " ++ index ++ " " ++ address
  else if i.opcode == Opcode.report then "PUBLISH"
  else if i.opcode == Opcode.scan then "SCAN " ++ address
  else if i.opcode == Opcode.setContext then "SET_CONTEXT " ++ index
  else if i.opcode == Opcode.setMark then "SET_MARK " ++ index ++ " " ++ address
  else if i.opcode == Opcode.markStart then "MARK_START " ++ index
  else if i.opcode == Opcode.markEnd then "MARK_END " ++ index
  else if i.opcode == Opcode.null then "NULL"
  else "UNKNOWN " ++ Text.hexLiteral 2 i.opcode.toNat

def text (pc : Nat) (i : Instruction) : String :=
  if hasBits i.opcode Opcode.character then characterText pc i
  else if hasBits i.opcode Opcode.test then testText pc i
  else plainText pc i

def line (pc : Nat) (i : Instruction) : String :=
  Text.hexPadded 5 pc ++ ": " ++ i.text pc ++ (if i.halt then " HALT" else "") ++ "\n"

end Instruction

/-- The listing of a program, after an empty line. -/
def listing (code : Code) : String :=
  "\n" ++ String.join (code.zipIdx.map fun (i, pc) => i.line pc)

end ByteMatch
