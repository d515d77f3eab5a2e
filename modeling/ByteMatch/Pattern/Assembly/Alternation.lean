import ByteMatch.Pattern.Assembly

/-!
# ByteMatch.Pattern.Assembly.Alternation

Fragments for alternatives: a fork for each of them, and then the alternatives one after the other.

A thread that no fork has taken ends, or goes back to the alternation that shares its tail.

* `Assembler.decision`, `Assembler.alternatives`: the two parts.
* `Assembler.alternation`: an alternation.
-/

namespace ByteMatch
namespace Assembler

/-- The fork to an alternative, after its tests. -/
structure Fork where
  /-- The tests and a placeholder. -/
  code : Code
  /-- Where the placeholder stands. -/
  place : Nat

structure Alternative where
  /-- How a thread gets to it. -/
  entry : Instruction
  /-- The alternative and a placeholder. -/
  code : Code
  /-- Where the placeholder stands. -/
  place : Nat

/-- Emits the tests that a thread skips the fork to an alternative by. -/
def decisionTests : Option Int → Option Nat → Assembler Code
  | some guard, some root =>
    -- the guard skips the test of the class as well
    inSequence
      [ emit Template.alternativeGuard [guard, 3],
        do emit Template.charZero [1, ← operand .charClass root] ]
  | some guard, none => emit Template.alternativeGuard [guard, 2]
  | none, some root => do emit Template.charZero [1, ← operand .charClass root]
  | none, none => pure []

/-- Emits the fork to the alternative at place `i`. -/
def decision (i : Nat) : Assembler Fork := do
  let preview ← takePreview i
  let guard ← takeGuard i
  let tests ← decisionTests guard preview
  let place ← position
  let placeholder ← emit Template.placeholder []
  pure ⟨tests ++ placeholder, place⟩

def decisionEnd : Assembler Code := do
  -- an alternation that is a shared tail was jumped to, and its decisions end with the way back
  if (← get).returns.isEmpty then emit Template.stopThread []
  else
    let place ← takeReturn
    emit Template.jump [(place : Int) - (← position)]

def alternativeMark (settings : Settings) (n : Node) : Assembler Code :=
  match settings.alternativeMark, n.altIndex with
  | some mark, some index => do
    emit Template.alternativeMark [mark, ← operand .alternativeIndex index]
  | _, _ => pure []

/-- Emits the alternative at place `i`, given the place of its fork. A shared tail is reached by a
jump, and it returns to the instruction after the jump. -/
def alternative (settings : Settings) (fork i : Nat) (part : Assembler Code) :
    Assembler Alternative := do
  let start ← position
  let n ← node i
  let (entry, mark) ←
    if n.attributes.sharedTail then do
      pushReturn (fork + 1)
      pure (Code.jumpTo fork start, [])
    else do
      let mark ← alternativeMark settings n
      pure (Code.forkTo fork start false, mark)
  let code ← part
  let place ← position
  let placeholder ← emit Template.placeholder []
  pure ⟨entry, mark ++ code ++ placeholder, place⟩

def decisions : List (Nat × Assembler Code) → Assembler (List Fork)
  | [] => pure []
  | (i, _) :: rest => do
    let fork ← decision i
    let more ← decisions rest
    pure (fork :: more)

def alternatives (settings : Settings) :
    List Fork → List (Nat × Assembler Code) → Assembler (List Alternative)
  | fork :: forks, (i, part) :: rest => do
    let first ← alternative settings fork.place i part
    let more ← alternatives settings forks rest
    pure (first :: more)
  | _, _ => pure []

/-- The decisions of an alternation, with the forks resolved. -/
def resolveForks (forks : List Fork) (alternatives : List Alternative) : Code :=
  (List.zipWith (fun f a => Code.resolveLast f.code a.entry) forks alternatives).flatten

/-- The alternatives, with the jumps to the end of the alternation resolved. -/
def resolveEnds (finish : Nat) (alternatives : List Alternative) : Code :=
  (alternatives.map fun a => Code.resolveLast a.code (Code.forkTo a.place finish true)).flatten

def alternation (settings : Settings) (children : List (Nat × Assembler Code)) :
    Assembler Code := do
  let forks ← decisions children
  let stop ← decisionEnd
  let parts ← alternatives settings forks children
  pure (resolveForks forks parts ++ stop ++ resolveEnds (← position) parts)

end Assembler
end ByteMatch
