import ByteMatch.Limits
import ByteMatch.Pattern.CompileError
import ByteMatch.Pattern.Outline

/-!
# ByteMatch.Pattern.Annotation

Steps that find out something about a pattern and note it in its nodes. What has been noted before
a failure stays.

* `Pattern.noteStart`: whether matches can only start at the start of the buffer or of a line.
-/

namespace ByteMatch

/-- A step that annotates a pattern. -/
abbrev Annotating (α : Type) := EStateM CompileError Pattern α

namespace Pattern

/-- The assertion that a chain of first children leads to. Groups that do not look ahead are
entered, and so is an unbounded repetition. An assertion inside of a repetition does not count. -/
def leadingAssertion (p : Pattern) (belowLoop : Bool) : List Nat → Option Action
  | [] => none
  | i :: rest =>
    let n := p.node i
    match n.kind with
    | .group => if n.attributes.lookahead then none else leadingAssertion p belowLoop rest
    | .repetition _ max =>
      if !belowLoop && max.getD unmeasured == unmeasured then leadingAssertion p true rest
      else none
    | .action a => if belowLoop then none else some a
    | _ => none

/-- Notes in the root where matches can start. -/
def noteStart (p : Pattern) (root : Nat) : Pattern :=
  match p.leadingAssertion false (p.leading root) with
  | some .bufferStart => p.updateAttributes root ({ · with atBufferStart := true })
  | some .textStart => p.updateAttributes root ({ · with afterNewline := true })
  | _ => p

end Pattern
end ByteMatch
