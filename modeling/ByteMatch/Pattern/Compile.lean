import ByteMatch.Pattern.Guarding
import ByteMatch.Pattern.Program

/-!
# ByteMatch.Pattern.Compile

From a pattern to a program that has been loaded into a machine.

A pattern is annotated while it is compiled, and so compiling it again may give another program.

* `Pattern.build`: the program with relative addresses, and its entry point.
* `Pattern.assemble`: just the program.
* `Pattern.compile`: loads the program. Nothing is loaded unless all steps succeed.
-/

namespace ByteMatch

/-- How a pattern is compiled. -/
structure CompileOptions where
  /-- The program records which alternative has matched. -/
  indexAlternatives : Bool := false
  /-- The anchor is not moved by a fixed stride. -/
  asynchronous : Bool := false
  /-- Matches start at the borders of sectors, given by an offset and a length. -/
  sector : Option (Nat × Nat) := none
deriving DecidableEq, Repr

namespace EntryPoint

/-! ## Flags of the search -/

/-- Matches start at the borders of sectors. -/
def sectorFlag : Nat := 0x8000
/-- Matches start at the start of the buffer. -/
def fixedAnchorFlag : Nat := 0x4000
/-- The program records which alternative has matched. -/
def reservedMatchFlag : Nat := 0x1000

end EntryPoint

/-- A program with relative addresses, and what the machine has to know of it. -/
structure AssembledProgram where
  code : Code
  start : EntryPoint
  numbering : Numbering
deriving DecidableEq

structure LoadedPattern where
  handle : Nat
  start : EntryPoint
  numbering : Numbering
deriving DecidableEq

namespace Pattern

/-- The command of a search: byte order bits and flags. -/
def command (p : Pattern) (root : Nat) (options : CompileOptions) : Nat :=
  p.endianMask % 16 +
    (if options.sector.isSome then EntryPoint.sectorFlag else 0) +
    (if (p.node root).attributes.atBufferStart then EntryPoint.fixedAnchorFlag else 0) +
    (if options.indexAlternatives then EntryPoint.reservedMatchFlag else 0)

/-- Where a search starts and how far the anchor moves on. -/
def strides (p : Pattern) (options : CompileOptions) : Nat × Nat :=
  match options.sector with
  | some sector => sector
  | none => (0, if options.asynchronous then 0 else p.stride)

/-- Compiles a pattern to a program with relative addresses, and finds its entry point. -/
def build (options : CompileOptions) (limits : Limits) : Annotating AssembledProgram := do
  match (← get).root with
  | none => throw .noRoot
  | some root =>
    modify (·.noteStart root)
    let command := (← get).command root options
    let (offset, stride) := (← get).strides options
    let numbering ← number root options.indexAlternatives limits
    let guardCount ← noteGuards root limits
    let code ← assembleProgram root limits numbering
    pure
      { code
        numbering
        start :=
          { command, startAddress := 0, groupCount := numbering.groupCount, offset, stride,
            guardCount, backrefMask := numbering.backrefMask,
            subMasks := numbering.subMasks.toList } }

def assemble (options : CompileOptions) (limits : Limits) : Annotating Code :=
  return (← build options limits).code

end Pattern

namespace AssembledProgram

/-- Loads a program and its entry point into a machine. The limits are those that the loader
reports, and the machine has its own. -/
def load (c : AssembledProgram) (reported : Limits) :
    Machine.Loader CompileError LoadedPattern := do
  -- both the reported limit and that of the machine are checked before anything is added
  let address := (← get).programEnd
  if reported.maxBytecode < address + c.code.length then
    throw (.programTooLarge c.code.length address)
  let base ← EStateM.adaptExcept .machine (Machine.appendProgram (relocate address c.code))
  let start := { c.start with startAddress := base }
  let handle := (← get).nextHandle
  EStateM.adaptExcept .machine (Machine.register handle start)
  pure ⟨handle, start, c.numbering⟩

end AssembledProgram

namespace Pattern

/-- Compiles a pattern and loads it into a machine. The answer also holds the annotated pattern and
the machine, which is as before after a failure. -/
def compile (p : Pattern) (options : CompileOptions) (reported : Limits) (m : Machine) :
    Except CompileError LoadedPattern × Pattern × Machine :=
  match build options reported p with
  | .error e p => (.error e, p, m)
  | .ok c p =>
    match c.load reported m with
    | .error e m => (.error e, p, m)
    | .ok compiled m => (.ok compiled, p, m)

end Pattern
end ByteMatch
