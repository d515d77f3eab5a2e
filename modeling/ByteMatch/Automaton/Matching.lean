/-!
# ByteMatch.Automaton.Matching

Finite maps between the state numbers of two automata.

* `Matching.get?`, `Matching.insert`: a number that is inserted again gets the new partner.
* `Matching.rename`: the same map after the states of its domain have moved.
-/

namespace ByteMatch

/-- A finite map between numbers, as the list of values at 0, 1, … -/
structure Matching where
  slots : Array (Option Nat)
deriving DecidableEq

namespace Matching

def empty : Matching := ⟨#[]⟩

instance : EmptyCollection Matching := ⟨empty⟩

instance : Inhabited Matching := ⟨empty⟩

/-- The partner of a number. -/
def get? (m : Matching) (k : Nat) : Option Nat := m.slots.getD k none

def contains (m : Matching) (k : Nat) : Bool := (m.get? k).isSome

def insert (m : Matching) (k v : Nat) : Matching :=
  ⟨(m.slots ++ Array.replicate (k + 1 - m.slots.size) none).setIfInBounds k (some v)⟩

def erase (m : Matching) (k : Nat) : Matching := ⟨m.slots.setIfInBounds k none⟩

def size (m : Matching) : Nat := m.slots.countP Option.isSome

def filter (p : Nat → Nat → Bool) (m : Matching) : Matching :=
  ⟨m.slots.mapIdx fun k v => v.filter (p k)⟩

def mapValues (f : Nat → Nat) (m : Matching) : Matching := ⟨m.slots.map (·.map f)⟩

def toList (m : Matching) : List (Nat × Nat) :=
  m.slots.toList.zipIdx.filterMap fun (v, k) => v.map fun v => (k, v)

/-- The partner of a number, or the number itself. -/
def apply (m : Matching) (k : Nat) : Nat := (m.get? k).getD k

/-- Gives the partner of each number that has moved to its new place. -/
def rename (m moved : Matching) : Matching :=
  moved.toList.foldl (fun m (old, new) =>
    match m.get? old with
    | some v => (m.erase old).insert new v
    | none => m) m

end Matching
end ByteMatch
