import ByteMatch.Limits
import ByteMatch.Pattern.CompileError
import ByteMatch.Pattern.Lookahead

/-!
# ByteMatch.Pattern.Assembly

Putting together the instructions of a pattern.

The instructions of a construct are a fragment, and the fragments of its parts are put one after
the other. Addresses are relative, so a fragment does not depend on where it stands. Loop counters
and the marks of lookaheads are taken when a construct begins and given back when it ends.

* `Assembly`: what has been emitted and taken so far.
* `Assembler`: a step that emits a fragment or takes something.
* `Assembler.emit`: emits an instance of a template.
* `Assembler.fork`: emits a fork whose target is resolved later.
-/

namespace ByteMatch

/-- How far the assembly of a program has got. -/
structure Assembly where
  pattern : Pattern
  /-- The number of instructions. -/
  position : Nat
  /-- The next free loop counter. -/
  counter : Nat
  /-- The next free mark. -/
  nextMark : Nat
  /-- Where shared tails of alternatives return to, the latest first. -/
  returns : List Nat
deriving DecidableEq

/-- What stays the same during an assembly. -/
structure Settings where
  limits : Limits
  /-- The mark that records which alternative has matched. -/
  alternativeMark : Option Nat

/-- A step of an assembly. -/
abbrev Assembler (α : Type) := EStateM CompileError Assembly α

namespace Code

/-- The instructions of a fragment with another one in place of the last. -/
def resolveLast (code : Code) (i : Instruction) : Code := code.dropLast ++ [i]

/-- A thread that starts at `target` from the instruction at `place`. -/
def forkTo (place target : Nat) (halt : Bool) : Instruction :=
  ⟨Opcode.newThread, 0, (target : Int) - place, halt⟩

/-- A jump to `target` from the instruction at `place`. -/
def jumpTo (place target : Nat) : Instruction := ⟨Opcode.test, 0, (target : Int) - place, false⟩

end Code

namespace Assembler

def node (i : Nat) : Assembler Node := return (← get).pattern.node i

def position : Assembler Nat := return (← get).position

def updateAttributes (i : Nat) (f : Attributes → Attributes) : Assembler Unit :=
  modify fun s => { s with pattern := s.pattern.updateAttributes i f }

/-- Emits an instance of a template. -/
def emit (t : Template) (args : List Int) : Assembler Code :=
  match t.instantiate args with
  | .ok code => do
    modify fun s => { s with position := s.position + code.length }
    pure code
  | .error e => throw (.templateArity e)

/-- A number as an operand. Operands are words of 32 bits with a sign. -/
def operand (role : OperandRole) (value : Int) : Assembler Int :=
  if -0x80000000 ≤ value ∧ value < 0x80000000 then pure value
  else throw (.operandOverflow role value)

def assertionClass (a : AssertionClass) : Assembler Int := do
  match (← get).pattern.assertionClass? a with
  | some root => operand .charClass root
  | none => throw (.missingClass a)

/-- Emits fragments one after the other. -/
def inSequence : List (Assembler Code) → Assembler Code
  | [] => pure []
  | e :: rest => do
    let code ← e
    let more ← inSequence rest
    pure (code ++ more)

/-! ## Counters and marks -/

def takeCounter (settings : Settings) : Assembler Nat := do
  let counter := (← get).counter
  if settings.limits.maxCounters ≤ counter then
    throw (.tooManyCounters settings.limits.maxCounters)
  modify ({ · with counter := counter + 1 })
  pure counter

def releaseCounter : Assembler Unit := modify fun s => { s with counter := s.counter - 1 }

def takeMark (settings : Settings) : Assembler Nat := do
  let mark := (← get).nextMark
  if settings.limits.marks ≤ mark then throw (.tooManyDynamicMarks settings.limits.marks)
  modify ({ · with nextMark := mark + 1 })
  pure mark

def releaseMark : Assembler Unit := modify fun s => { s with nextMark := s.nextMark - 1 }

/-! ## Shared tails -/

/-- Notes where the shared tail that comes next returns to. -/
def pushReturn (place : Nat) : Assembler Unit :=
  modify fun s => { s with returns := place :: s.returns }

/-- Where the shared tail that was noted last returns to. -/
def takeReturn : Assembler Nat := do
  match (← get).returns with
  | [] => throw .noReturn
  | place :: rest =>
    modify ({ · with returns := rest })
    pure place

/-! ## Looking ahead -/

/-- A class that the next character must be in for node `i` to match. The node is then known to
have been tested. -/
def takePreview (i : Nat) : Assembler (Option Nat) := do
  let p := (← get).pattern
  match p.preview? (p.leading i) with
  | some preview =>
    match preview.place with
    | some place => updateAttributes place ({ · with previewed := true })
    | none => pure ()
    pure (some preview.charClass)
  | none => pure none

/-- The guard of a repetition at the beginning of node `i`. It is then known to have been
tested. -/
def takeGuard (i : Nat) : Assembler (Option Int) := do
  let p := (← get).pattern
  match p.untestedGuard? (p.leading i) with
  | some ⟨place, some guard⟩ =>
    updateAttributes place ({ · with guardTested := true })
    some <$> operand .guard guard
  | some ⟨_, none⟩ => throw (.malformed .missingGuard)
  | none => pure none

/-- Emits a fork whose target is not known yet, after a test of the next character if there is a
class for it. The last instruction is a placeholder. -/
def fork : Option Nat → Assembler Code
  | some root => do emit Template.lookaheadFork [1, ← operand .charClass root]
  | none => emit Template.placeholder []

/-- Emits a part that a thread skips. -/
def skippable (preview : Option Nat) (part : Assembler Code) : Assembler Code := do
  let entry ← fork preview
  let start ← position
  let code ← part
  pure (Code.resolveLast entry (Code.forkTo (start - 1) (← position) false) ++ code)

end Assembler
end ByteMatch
