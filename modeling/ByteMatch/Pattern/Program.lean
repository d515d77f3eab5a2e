import ByteMatch.Pattern.Annotation
import ByteMatch.Pattern.Assembly.Alternation
import ByteMatch.Pattern.Assembly.Assertion
import ByteMatch.Pattern.Assembly.Group
import ByteMatch.Pattern.Assembly.Repetition
import ByteMatch.Pattern.Numbering

/-!
# ByteMatch.Pattern.Program

The program of a pattern: finding a start, the nodes of the pattern, and reporting the match.

* `Outline.assemble`: the fragment of the nodes below a place.
* `Pattern.assembleProgram`: the program.
-/

namespace ByteMatch
namespace Assembler

/-- Emits the node at a place, given its children with their fragments. -/
def construct (settings : Settings) (i : Nat) (children : List (Nat × Assembler Code)) :
    Assembler Code := do
  match (← node i).kind with
  | .group => group settings i (children.map (·.2))
  | .alternation => alternation settings children
  | .repetition min max => repetition settings i min max children
  | .charClass root => emit Template.char [← operand .charClass root]
  | .action a => action a

end Assembler

namespace Outline

mutual

def assemble (settings : Settings) : Outline → Assembler Code
  | node i children => Assembler.construct settings i (assembleList settings children)

def assembleList (settings : Settings) : List Outline → List (Nat × Assembler Code)
  | [] => []
  | o :: rest => (o.place, assemble settings o) :: assembleList settings rest

end
end Outline

namespace Assembler

/-- Emits what finds the start of a match. A scan for a class or a newline also marks it. -/
def searchStart (root : Nat) : Assembler Code := do
  let n ← node root
  if n.attributes.afterNewline then
    let newline ← assertionClass .newline
    emit Template.scanNewline [newline, newline, newline]
  else
    let scan ← match n.preview with
      | some c => do emit Template.scanFor [← operand .charClass c]
      | none => pure []
    -- the guard at the start is spent here, and the repetition does not test it again
    let guard ← match ← takeGuard root with
      | some guard => emit Template.loopGuard [guard, 1]
      | none => pure []
    let mark ← match n.preview with
      | some _ => pure []
      | none => emit Template.groupStart [0]
    pure (scan ++ guard ++ mark)

/-- Emits a program. A match is reported in a thread of its own, which keeps matches in the order
in which they are preferred. -/
def program (settings : Settings) (root : Nat) : Assembler Code := do
  let outline := (← get).pattern.outline root
  inSequence
    [ searchStart root,
      outline.assemble settings,
      emit Template.yieldThread [],
      emit Template.reportMatch [] ]

end Assembler

/-- The place of the first instruction that has not been resolved. -/
def Code.unresolved? (code : Code) : Option Nat := code.findIdx? (·.opcode == Opcode.null)

namespace Pattern

/-- The program of the nodes below the root. -/
def assembleProgram (root : Nat) (limits : Limits) (numbering : Numbering) :
    Annotating Code := fun p =>
  let start : Assembly := ⟨p, 0, 0, numbering.groupCount, []⟩
  match Assembler.program ⟨limits, numbering.alternativeMark⟩ root start with
  | .ok code s =>
    match code.unresolved? with
    | none => .ok code s.pattern
    | some place => .error (.unresolved place) s.pattern
  | .error e s => .error e s.pattern

end Pattern
end ByteMatch
