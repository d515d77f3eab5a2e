import ByteMatch.Pattern.Assembly

/-!
# ByteMatch.Pattern.Assembly.Assertion

Fragments for assertions and backreferences.
-/

namespace ByteMatch
namespace Assembler

/-- The number of instructions that test for the boundary of a grapheme cluster. -/
def graphemeLength : Nat := 20

def graphemeClass (value : GraphemeBreak) : Assembler Int := assertionClass (.grapheme value)

def failBetween (before after : GraphemeBreak) : Assembler Code := do
  let before ← graphemeClass before
  emit Template.failBetween [before, ← graphemeClass after]

/-- The distance from an instruction, `ahead` instructions on from here, to `target`. -/
def distanceTo (target ahead : Nat) : Assembler Int := do
  return (target : Int) - (← position) - ahead

/-- Emits a test for the boundary of a grapheme cluster. All jumps lead to the instruction that
comes next. -/
def grapheme : Assembler Code := do
  let next := (← position) + graphemeLength
  inSequence
    [ do emit Template.jumpIfStart [← distanceTo next 0],
      do emit Template.jumpIfEnd [← distanceTo next 0],
      failBetween .cr .lf,
      do
        let control ← graphemeClass .controlCrLf
        emit Template.jumpIfAfter [control, ← distanceTo next 1],
      do
        let control ← graphemeClass .controlCrLf
        emit Template.jumpIfBefore [control, ← distanceTo next 1],
      failBetween .l .lVLvLvt,
      failBetween .lvV .vT,
      failBetween .lvtT .t,
      failBetween .regionalIndicator .regionalIndicator,
      do emit Template.failBefore [← graphemeClass .extend],
      do emit Template.failBefore [← graphemeClass .spacingMark],
      do emit Template.failAfter [← graphemeClass .prepend],
      do emit Template.previousChar [← assertionClass .any] ]

def action : Action → Assembler Code
  | .bufferStart => emit Template.testStart []
  | .bufferEnd => emit Template.testEnd []
  | .backreference (.mark mark) => emit Template.backreference [mark]
  | .backreference (.name name) => throw (.unknownBackreference name)
  | .textStart => do
    let newline ← assertionClass .newline
    emit Template.lineStart [newline, newline]
  | .textEnd => do
    let newline ← assertionClass .newline
    emit Template.lineEnd [newline, newline]
  | .wordBoundary => do
    let word ← assertionClass .word
    let notWord ← assertionClass .notWord
    emit Template.wordBoundary [word, notWord, notWord, word]
  | .notWordBoundary => do
    let word ← assertionClass .word
    let notWord ← assertionClass .notWord
    emit Template.notWordBoundary [word, word, notWord, notWord]
  | .grapheme => grapheme

end Assembler
end ByteMatch
