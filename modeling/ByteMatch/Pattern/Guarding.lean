import ByteMatch.Pattern.Annotation

/-!
# ByteMatch.Pattern.Guarding

Guards for the repetitions that let failed anchors be skipped.

A repetition of a single character controls the anchor if it is optional or disjoint from what
follows it. If the rest of the pattern fails after some of its iterations then it fails after
every other one, and the anchor can move past the characters that were consumed. The search ends
at the first group that a backreference refers to, as the rest of the pattern then depends on
where the match started.

* `Pattern.guarded`: the repetitions that get a guard.
* `Pattern.noteGuards`: gives them their guards.
-/

namespace ByteMatch
namespace Pattern

/-- A repetition with an upper bound up to this one gets no guard. -/
def guardThreshold : Nat := 5

mutual

/-- The repetitions of an outline that get a guard, and whether the search has ended at a group
that a backreference refers to. -/
def guarded (p : Pattern) : Outline → List Nat × Bool
  | .node i children =>
    let n := p.node i
    match n.kind with
    | .group =>
      if n.attributes.lookahead then ([], false)
      else if n.attributes.referenced then ([], true)
      else guardedInSequence p children
    | .alternation => guardedInAlternatives p children
    | .repetition min max =>
      match children with
      | [] => ([], false)
      | child :: _ =>
        if (p.node child.place).kind.class?.isSome && (n.attributes.disjoint || min == 0) &&
            guardThreshold < max.getD unmeasured then ([i], false)
        else if min == 0 then ([], false) -- the body may not run at all
        else guarded p child
    | .charClass _ => ([], false)
    | .action _ => ([], false)

/-- In a sequence the search ends with the first part in which it ends. -/
def guardedInSequence (p : Pattern) : List Outline → List Nat × Bool
  | [] => ([], false)
  | o :: rest =>
    let (found, ended) := guarded p o
    if ended then (found, true)
    else
      let (more, ended) := guardedInSequence p rest
      (found ++ more, ended)

/-- All alternatives are searched. -/
def guardedInAlternatives (p : Pattern) : List Outline → List Nat × Bool
  | [] => ([], false)
  | o :: rest =>
    let (found, ended) := guarded p o
    let (more, endedLater) := guardedInAlternatives p rest
    (found ++ more, ended || endedLater)

end

/-- Gives guards to repetitions, the first one gets `guard`. -/
def assignGuards (limit : Nat) : Nat → List Nat → Annotating Unit
  | _, [] => pure ()
  | guard, i :: rest => do
    if limit ≤ guard then throw (.tooManyGuards limit)
    modify (·.update i fun n =>
      { n with attributes := { n.attributes with controlling := true }, guard := some guard })
    assignGuards limit (guard + 1) rest

def noteGuards (root : Nat) (limits : Limits) : Annotating Nat := do
  let p ← get
  let (found, _) := p.guarded (p.outline root)
  assignGuards limits.maxGuards 0 found
  pure found.length

end Pattern
end ByteMatch
