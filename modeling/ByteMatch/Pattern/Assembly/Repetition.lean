import ByteMatch.Pattern.Assembly

/-!
# ByteMatch.Pattern.Assembly.Repetition

Fragments for repetitions: the required iterations and then the optional ones.

Few iterations of a single character are enumerated and more of them are counted. If the character
cannot be confused with what follows, the optional iterations need no threads.

* `Assembler.required`, `Assembler.optional`, `Assembler.disjoint`: the iterations.
* `Assembler.repetition`: a repetition.
-/

namespace ByteMatch
namespace Assembler

/-- Single characters are enumerated up to this number of iterations. -/
def enumerationBound : Nat := 64

/-! ## Loops -/

/-- Emits a part that has a loop counter of its own. -/
def withCounter (settings : Settings) (part : Nat → Assembler Code) : Assembler Code := do
  let counter ← takeCounter settings
  let code ← part counter
  releaseCounter
  pure code

/-- Sets a loop counter. -/
def setCounter (counter : Nat) (count : Int) : Assembler Code := do
  emit Template.loopSetCount [counter, ← operand .repeatCount count]

/-- Goes back to `head` until a loop counter reaches zero. -/
def loopTo (counter head : Nat) : Assembler Code := do
  emit Template.loopTest [counter, (head : Int) - (← position)]

def counted (settings : Settings) (count : Int) (part : Assembler Code) : Assembler Code :=
  withCounter settings fun counter => do
    let set ← setCounter counter count
    let head ← position
    let code ← part
    let back ← loopTo counter head
    pure (set ++ code ++ back)

/-! ## Required iterations -/

/-- Emits a test of a single character `count` times. -/
def copies (t : Template) (root : Int) : Nat → Assembler Code
  | 0 => pure []
  | count + 1 => do
    let code ← emit t [root]
    let more ← copies t root count
    pure (code ++ more)

def requiredCharacters (settings : Settings) (t : Template) (root : Int) (min : Nat) :
    Assembler Code :=
  if min < enumerationBound then copies t root min else counted settings min (emit t [root])

/-- Emits the required iterations of a part. The first one stands apart from the others if only
it can move the anchor. -/
def required (settings : Settings) (child : Nat) (part : Assembler Code) (min : Nat) :
    Assembler Code := do
  let looped (count : Nat) : Assembler Code :=
    counted settings count (inSequence [part, emit Template.yieldThread []])
  match min with
  | 0 => pure []
  | 1 => part
  | count + 2 =>
    let p := (← get).pattern
    if p.startsControlled false (p.leading child) then
      -- a single further iteration needs no loop
      inSequence [part, if count = 0 then part else looped (count + 1)]
    else looped (count + 2)

/-! ## Optional iterations -/

/-- Emits tests of a single character that branch, if they fail, to a common place. The first one
branches over `distance` instructions. -/
def branches (t : Template) (root : Int) : Int → Nat → Assembler Code
  | _, 0 => pure []
  | distance, count + 1 => do
    let code ← emit t [← operand .branch distance, root]
    let more ← branches t root (distance - 1) count
    pure (code ++ more)

/-- Emits optional iterations of a single character that cannot be confused with what follows.
Those that are enumerated branch past the repetition, or if there are more of them to the
instruction that resets the counter. -/
def disjoint (settings : Settings) (t : Template) (root count : Int) : Assembler Code :=
  if count ≤ enumerationBound then branches t root (count - 1) count.toNat
  else
    inSequence
      [ branches t root (enumerationBound + 2) enumerationBound,
        withCounter settings fun counter => do
          let set ← setCounter counter (count - enumerationBound)
          let head ← position
          let code ← emit t [1, root]
          let back ← loopTo counter head
          -- a thread that branches out of the loop leaves the counter at some other value
          let reset ← setCounter counter 0
          pure (set ++ code ++ back ++ reset) ]

/-- Emits optional iterations of a part, each in a thread of its own. -/
def optional (settings : Settings) (preview : Option Nat) (part : Assembler Code) (count : Int) :
    Assembler Code :=
  if count = 1 then skippable preview part
  else if 1 < count then
    withCounter settings fun counter => do
      let set ← setCounter counter count
      let head ← position
      let code ← skippable preview
        (inSequence [part, emit Template.yieldThread [], loopTo counter head])
      let reset ← setCounter counter 0
      pure (set ++ code ++ reset)
  else pure []

/-! ## Repetitions -/

/-- The number of optional iterations. -/
def optionalCount (min : Nat) : Option Nat → Int
  | some max => if max = unmeasured then unmeasured else (max : Int) - min
  | none => unmeasured

/-- Emits the test of the guard of a repetition, unless it has been tested before. -/
def loopGuard (n : Node) : Assembler Code := do
  if n.attributes.controlling && !n.attributes.guardTested then
    match n.guard with
    | some guard => emit Template.loopGuard [← operand .guard guard, 1]
    | none => throw (.malformed .missingGuard)
  else pure []

/-- The class that must come next for another iteration. -/
def nextPreview : Option Nat → Assembler (Option Nat)
  | some following => takePreview following
  | none => pure none

def characterRepetition (settings : Settings) (n : Node) (root : Int) (min : Nat)
    (max : Option Nat) : Assembler Code := do
  let controlling := n.attributes.controlling
  let test := if controlling then Template.charAnchor else Template.char
  let guard ← loopGuard n
  let first ← requiredCharacters settings test root min
  let more ←
    if n.attributes.disjoint then
      disjoint settings (if controlling then Template.charAnchorBranch else Template.charBranchTo)
        root (optionalCount min max)
    else do
      optional settings (← nextPreview n.lookAhead) (emit test [root]) (optionalCount min max)
  pure (guard ++ first ++ more)

def partRepetition (settings : Settings) (n : Node) (child : Nat) (part : Assembler Code)
    (min : Nat) (max : Option Nat) : Assembler Code := do
  let guard ← loopGuard n
  let first ← required settings child part min
  let more ← optional settings (← nextPreview n.lookAhead) part (optionalCount min max)
  pure (guard ++ first ++ more)

/-- Emits the repetition at a place. Its guard is of use only the first time that it is
entered. -/
def repetition (settings : Settings) (i min : Nat) (max : Option Nat) :
    List (Nat × Assembler Code) → Assembler Code
  | [] => throw (.malformed .emptyRepetition)
  | (child, part) :: _ => do
    let n ← node i
    -- a single character is known before the part is emitted, and its fragment is not used
    let code ←
      match (← node child).kind.class? with
      | some root => do
        characterRepetition settings n (← operand .charClass root) min max
      | none => partRepetition settings n child part min max
    updateAttributes i ({ · with controlling := false })
    pure code

end Assembler
end ByteMatch
