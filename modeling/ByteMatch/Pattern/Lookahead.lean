import ByteMatch.Pattern.Outline

/-!
# ByteMatch.Pattern.Lookahead

What is known about the beginning of a node from the node, its first child and so on.

* `Pattern.preview?`: a class that the next character must be in.
* `Pattern.untestedGuard?`: a repetition at the beginning whose guard has not been tested.
* `Pattern.startsControlled`: whether only the first iteration of a repetition can move the anchor.
-/

namespace ByteMatch

/-- A class that the next character must be in. -/
structure Preview where
  charClass : Nat
  /-- The node whose first character is then known. -/
  place : Option Nat
deriving DecidableEq, Repr

/-- A repetition whose guard has not been tested. -/
structure UntestedGuard where
  place : Nat
  guard : Option Nat
deriving DecidableEq, Repr

namespace Pattern

/-- A class that the next character must be in for any progress along a chain of first children,
unless it has been tested already. -/
def preview? (p : Pattern) : List Nat → Option Preview
  | [] => none
  | i :: rest =>
    let n := p.node i
    match n.kind with
    | .charClass root => if n.attributes.previewed then none else some ⟨root, some i⟩
    | .repetition min _ =>
      if 0 < min then preview? p rest
      else if n.attributes.previewed then none
      else n.preview.map (⟨·, some i⟩)
    | .alternation => n.preview.map (⟨·, some i⟩)
    | .group =>
      if n.attributes.lookahead then none
      else
        match n.preview with
        | some root => some ⟨root, none⟩ -- a class of a whole group can be tested any number of times
        | none => preview? p rest
    | .action _ => none

/-- The first controlling repetition along a chain of first children, unless its guard or that of
a repetition around it has been tested. Alternations are not entered. -/
def untestedGuard? (p : Pattern) : List Nat → Option UntestedGuard
  | [] => none
  | i :: rest =>
    let n := p.node i
    match n.kind with
    | .group => if n.attributes.lookahead then none else untestedGuard? p rest
    | .repetition _ _ =>
      if n.attributes.guardTested then none
      else if n.attributes.controlling then some ⟨i, n.guard⟩
      else untestedGuard? p rest
    | _ => none

/-- Whether a controlling repetition along a chain of first children is followed by something
else. `followed` says so of the nodes around the chain. -/
def startsControlled (p : Pattern) (followed : Bool) : List Nat → Bool
  | [] => false
  | i :: rest =>
    let n := p.node i
    match n.kind with
    | .group =>
      if n.attributes.lookahead then false
      else startsControlled p (followed || 1 < n.children.length) rest
    | .repetition min _ =>
      if n.attributes.controlling then followed
      else if min == 0 then false
      else startsControlled p followed rest
    | _ => false

end Pattern
end ByteMatch
