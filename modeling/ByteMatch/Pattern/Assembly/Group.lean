import ByteMatch.Pattern.Assembly

/-!
# ByteMatch.Pattern.Assembly.Group

Fragments for groups.

Lookaheads and lazy groups need a mark also if they do not capture. They take one for themselves
and give it back at their end.
-/

namespace ByteMatch
namespace Assembler

/-- Opens a group. The mark of the root is set where the match starts. -/
def groupStart (isLazy : Bool) : Option Nat → Assembler Code
  | some mark =>
    if isLazy then emit Template.lazyGroupStart [mark]
    else if mark ≠ 0 then emit Template.groupStart [mark]
    else pure []
  | none => pure []

def groupEnd (lookahead : Bool) : Option Nat → Assembler Code
  | some mark =>
    if lookahead then emit Template.groupReset [mark] else emit Template.groupEnd [mark]
  | none => pure []

def group (settings : Settings) (i : Nat) (children : List (Assembler Code)) : Assembler Code := do
  let n ← node i
  let emitWith (mark : Option Nat) : Assembler Code :=
    inSequence
      (groupStart n.attributes.lazy mark :: children ++ [groupEnd n.attributes.lookahead mark])
  if n.mark.isNone && (n.attributes.lookahead || n.attributes.lazy) then do
    let code ← emitWith (some (← takeMark settings))
    releaseMark
    pure code
  else emitWith n.mark

end Assembler
end ByteMatch
