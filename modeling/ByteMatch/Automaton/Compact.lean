import ByteMatch.Automaton
import ByteMatch.Automaton.Matching
import ByteMatch.Loop

/-!
# ByteMatch.Automaton.Compact

Removing what no longer serves: holes, and states from which no leaf can be reached.

* `Automaton.fillHoles`: moves the last states into the holes, the lowest hole first.
* `Automaton.compact`: fills the holes and redirects the transitions to the states that moved.
* `Automaton.trim`: turns the states of a tree that reach no leaf into holes.
-/

namespace ByteMatch
namespace Automaton

def dropHoles (a : Automaton) : Automaton := a.popWhile State.isHole

theorem size_popWhile_le {α : Type} (p : α → Bool) (a : Array α) : (a.popWhile p).size ≤ a.size := by
  fun_induction Array.popWhile p a with
  | case1 a h _ ih =>
    have : a.pop.size = a.size - 1 := Array.size_pop
    omega
  | case2 => exact Nat.le_refl _
  | case3 => exact Nat.le_refl _

theorem size_dropHoles_le (a : Automaton) : a.dropHoles.size ≤ a.size := size_popWhile_le _ a

/-- Fills the holes from `slot` on, each one with the last state. The answer also tells where the
states that moved have gone. -/
def fillHoles (a : Automaton) (slot : Nat) (moved : Matching) : Automaton × Matching :=
  if h : slot < a.size then
    if a[slot].isHole then
      let top := a.size - 1
      let filled := dropHoles (a.set slot (a.state top)).pop
      fillHoles filled slot (moved.insert top slot)
    else fillHoles a (slot + 1) moved
  else (a, moved)
termination_by a.size - slot
decreasing_by
  · have := size_dropHoles_le (a.set slot (a.state (a.size - 1))).pop
    simp only [Array.size_pop, Array.size_set] at this
    omega
  · omega

/-- Removes the holes by moving the last states into them. The answer also tells where the states
that moved have gone. -/
def compact (a : Automaton) : Automaton × Matching :=
  let (filled, moved) := fillHoles a.dropHoles 0 ∅
  (filled.map (·.mapDest moved.apply), moved)

/-- The parents of the states of a tree, with the labels that lead from them. -/
def parents (tree : Automaton) : Array (Option (Nat × ByteSet)) :=
  tree.toList.zipIdx.foldl (fun ps (s, q) =>
    s.transitions.entries.foldl (fun ps e => ps.setIfInBounds e.2 (some (q, e.1))) ps)
    (Array.replicate tree.size none)

/-- Drops the empty leaf of a state. If the state is a hole now, its parent loses the transition
to it and is looked at next. -/
def trimStep (ps : Array (Option (Nat × ByteSet))) :
    Nat × Automaton → ForInStep (Nat × Automaton)
  | (q, a) =>
    let a : Automaton := a.modify q fun s => { s with leaf := s.leaf.filter (!·.isEmpty) }
    if !(a.state q).isHole || q == 0 then .done (q, a)
    else
      match ps.getD q none with
      | none => .done (q, a)
      | some (parent, code) =>
        if ((a.state parent).transitions.get? code).isNone then .done (q, a)
        else .yield (parent, a.modify parent (·.eraseTransition code))

/-- Looks at a state of a tree, and at those above it that become holes. -/
def trimFrom (ps : Array (Option (Nat × ByteSet))) (a : Automaton) (q : Nat) : Automaton :=
  (Loop.run (trimStep ps) a.size (q, a)).2

/-- Turns the states of a tree from which no leaf can be reached into holes that no transition
leads to. A path upwards visits each state at most once. -/
def trim (tree : Automaton) : Automaton :=
  (List.range tree.size).foldl (trimFrom tree.parents) tree

end Automaton
end ByteMatch
