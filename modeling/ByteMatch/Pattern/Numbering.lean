import ByteMatch.Pattern.Annotation

/-!
# ByteMatch.Pattern.Numbering

Marks for the groups of a pattern.

The root and the groups that capture get the marks from 0 on, in the order of a walk. A
backreference to a name is resolved to a mark, and the group it refers to is noted.

* `Pattern.capturing`: the groups that get a mark.
* `Pattern.closings`: for each group with a mark, the mask that clears the marks nested in it.
* `Pattern.number`: all of it.
-/

namespace ByteMatch

/-- What the numbering of a pattern has found out. -/
structure Numbering where
  /-- The number of marks, with the one for alternatives. -/
  groupCount : Nat
  /-- The marks of the groups with names. -/
  names : List (String × Nat)
  /-- The places of the marks, other than that of the root, in the order in which groups end. -/
  endOrder : List (Nat × Nat)
  /-- A bit for each group that a backreference refers to. -/
  backrefMask : UInt32
  /-- For each mark, the mask that clears the marks nested in it and the mark itself. -/
  subMasks : Array UInt32
  /-- The mark that records which alternative has matched. -/
  alternativeMark : Option Nat
deriving DecidableEq, Repr

namespace Numbering

def allMarks : UInt32 := 0xFFFFFFFF

def markBit (mark : Nat) : UInt32 := 1 <<< UInt32.ofNat mark

end Numbering

/-- The end of a group with a mark. -/
structure Closing where
  place : Nat
  mark : Nat
  /-- The mask without the marks nested in the group and its own. -/
  mask : UInt32
deriving DecidableEq, Repr

namespace Pattern

/-- Whether a group gets a mark. The root always does. -/
def captures (p : Pattern) (root i : Nat) : Bool :=
  let n := p.node i
  n.kind == .group && (i == root || !(n.attributes.uncaptured || n.attributes.lookahead))

/-- The groups that get a mark, in the order of a walk. -/
def capturing (p : Pattern) (root : Nat) : List Nat :=
  (p.outline root).preorder.filter (p.captures root)

/-- Gives marks to groups, the first one gets `mark`. The answer adds the names of the groups to
`names`, and a name that occurs again stands for the later group. -/
def assignMarks (limit : Nat) :
    Nat → List (String × Nat) → List Nat → Annotating (List (String × Nat))
  | _, names, [] => pure names
  | mark, names, i :: rest => do
    if limit ≤ mark then throw (.tooManyGroups limit)
    modify (·.update i ({ · with mark := some mark }))
    match ((← get).node i).name with
    | some name =>
      assignMarks limit (mark + 1) ((name, mark) :: names.filter (·.1 != name)) rest
    | none => assignMarks limit (mark + 1) names rest

mutual

/-- The mask that clears the marks of an outline, and the ends of its groups in order. -/
def closings (p : Pattern) : Outline → UInt32 × List Closing
  | .node i children =>
    let (mask, inner) := closingsList p children
    match (p.node i).kind, (p.node i).mark with
    | .group, some mark =>
      let mask := mask &&& ~~~ Numbering.markBit mark
      (mask, inner ++ [⟨i, mark, mask⟩])
    | _, _ => (mask, inner)

def closingsList (p : Pattern) : List Outline → UInt32 × List Closing
  | [] => (Numbering.allMarks, [])
  | o :: rest =>
    let (mask, ends) := closings p o
    let (restMask, restEnds) := closingsList p rest
    (mask &&& restMask, ends ++ restEnds)

end

/-- The masks of the marks, all bits for a mark that is not used. -/
def subMasks (limit : Nat) (ends : List Closing) : Array UInt32 :=
  ends.foldl (fun masks c => masks.setIfInBounds c.mark c.mask)
    (Array.replicate limit Numbering.allMarks)

/-- The places of the marks in the order in which groups end. A mark that ends again takes a new
place. -/
def endOrder (ends : List Closing) : List (Nat × Nat) :=
  ends.foldl (fun order c => order.filter (·.1 != c.mark) ++ [(c.mark, order.length)]) []

/-- Whether a group other than the root has a mark. -/
def hasMark (p : Pattern) (root mark i : Nat) : Bool :=
  i != root && (p.node i).kind == .group && (p.node i).mark == some mark

/-- Resolves backreferences among the nodes at some places. The answer has a bit for each group
that is referred to. -/
def resolveReferences (root : Nat) (places : List Nat) (names : List (String × Nat)) :
    UInt32 → List Nat → Annotating UInt32
  | mask, [] => pure mask
  | mask, i :: rest => do
    match ((← get).node i).kind with
    | .action (.backreference target) =>
      let mark ← match target with
        | .mark mark => pure mark
        | .name name =>
          match names.lookup name with
          | some mark => pure mark
          | none => throw (.unknownBackreference name)
      match places.find? ((← get).hasMark root mark) with
      | none => throw (.invalidBackreference mark)
      | some group =>
        modify (·.update i ({ · with kind := .action (.backreference (.mark mark)) }))
        modify (·.updateAttributes group ({ · with referenced := true }))
        resolveReferences root places names (mask ||| Numbering.markBit mark) rest
    | _ => resolveReferences root places names mask rest

def number (root : Nat) (indexAlternatives : Bool) (limits : Limits) : Annotating Numbering := do
  let outline := (← get).outline root
  let groups := (← get).capturing root
  let names ← assignMarks limits.marks 0 [] groups
  let count := groups.length
  if indexAlternatives && limits.marks ≤ count then throw (.noAlternativeMark count)
  -- the masks need the marks, and references are looked up among the marked groups
  let ends := ((← get).closings outline).2
  let mask ← resolveReferences root outline.preorder names 0 outline.preorder
  pure
    { groupCount := if indexAlternatives then count + 1 else count
      names
      endOrder := endOrder (ends.filter (·.place != root))
      backrefMask := mask
      subMasks := subMasks limits.marks ends
      alternativeMark := if indexAlternatives then some count else none }

end Pattern
end ByteMatch
