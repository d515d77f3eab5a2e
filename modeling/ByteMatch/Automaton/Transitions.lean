import ByteMatch.ByteSet

/-!
# ByteMatch.Automaton.Transitions

The labelled transitions that leave one state.

* `Transitions`: labels with their destinations, in the order of the labels, each label once.
* `Transitions.insert`, `Transitions.erase`: a label that is inserted again gets the new
  destination.
* `Transitions.step?`: the destination for a byte. When labels overlap, the first one decides.
-/

namespace ByteMatch

/-- Inserts a label into a sorted list, or replaces its destination. -/
def insertLabel (code : ByteSet) (dest : Nat) : List (ByteSet × Nat) → List (ByteSet × Nat)
  | [] => [(code, dest)]
  | entry :: rest =>
    if code < entry.1 then (code, dest) :: entry :: rest
    else if entry.1 < code then entry :: insertLabel code dest rest
    else (code, dest) :: rest

theorem mem_insertLabel {code : ByteSet} {dest : Nat} {x : ByteSet × Nat}
    {entries : List (ByteSet × Nat)} (h : x ∈ insertLabel code dest entries) :
    x = (code, dest) ∨ x ∈ entries := by
  induction entries with
  | nil => simpa [insertLabel] using h
  | cons entry rest ih =>
    unfold insertLabel at h
    split at h
    · simpa using h
    · split at h
      · rcases List.mem_cons.1 h with h | h
        · exact .inr (by simp [h])
        · exact (ih h).imp_right (List.mem_cons_of_mem _)
      · exact (List.mem_cons.1 h).imp_right (List.mem_cons_of_mem _)

theorem pairwise_insertLabel {code : ByteSet} {dest : Nat} {entries : List (ByteSet × Nat)}
    (h : entries.Pairwise fun a b => a.1 < b.1) :
    (insertLabel code dest entries).Pairwise fun a b => a.1 < b.1 := by
  induction entries with
  | nil => simp [insertLabel]
  | cons entry rest ih =>
    have ⟨hentry, hrest⟩ := List.pairwise_cons.1 h
    unfold insertLabel
    split
    · next hlt =>
      refine List.pairwise_cons.2 ⟨fun x hx => ?_, h⟩
      rcases List.mem_cons.1 hx with rfl | hx
      · exact hlt
      · exact ByteSet.lt_trans hlt (hentry x hx)
    · next hnlt =>
      split
      · next hgt =>
        refine List.pairwise_cons.2 ⟨fun x hx => ?_, ih hrest⟩
        rcases mem_insertLabel hx with rfl | hx
        · exact hgt
        · exact hentry x hx
      · next hngt =>
        have heq : code = entry.1 := by
          rcases ByteSet.lt_or_eq_or_gt code entry.1 with h | h | h
          · exact absurd h hnlt
          · exact h
          · exact absurd h hngt
        exact List.pairwise_cons.2 ⟨fun x hx => heq ▸ hentry x hx, hrest⟩

/-- The transitions that leave a state: labels and destinations, in the order of the labels. -/
@[ext] structure Transitions where
  entries : List (ByteSet × Nat)
  sorted : entries.Pairwise fun a b => a.1 < b.1
deriving DecidableEq

namespace Transitions

def empty : Transitions := ⟨[], .nil⟩

instance : EmptyCollection Transitions := ⟨empty⟩

instance : Inhabited Transitions := ⟨empty⟩

def isEmpty (t : Transitions) : Bool := t.entries.isEmpty

def size (t : Transitions) : Nat := t.entries.length

/-- The destinations, in the order of the labels. -/
def dests (t : Transitions) : List Nat := t.entries.map (·.2)

/-- Adds a transition. One with the same label is replaced. -/
def insert (t : Transitions) (code : ByteSet) (dest : Nat) : Transitions :=
  ⟨insertLabel code dest t.entries, pairwise_insertLabel t.sorted⟩

def erase (t : Transitions) (code : ByteSet) : Transitions :=
  ⟨t.entries.filter (·.1 ≠ code), t.sorted.filter _⟩

def get? (t : Transitions) (code : ByteSet) : Option Nat :=
  (t.entries.find? (·.1 = code)).map (·.2)

/-- The destination for a byte, which the first label that holds the byte decides. -/
def step? (t : Transitions) (b : UInt8) : Option Nat :=
  (t.entries.find? (·.1.contains b)).map (·.2)

def ofList (entries : List (ByteSet × Nat)) : Transitions :=
  entries.foldl (fun t e => t.insert e.1 e.2) ∅

def mapDest (f : Nat → Nat) (t : Transitions) : Transitions :=
  ⟨t.entries.map fun e => (e.1, f e.2), List.pairwise_map.2 t.sorted⟩

/-- Destinations `base`, `base + 1`, … for the labels of a sorted list. -/
def consecutiveEntries (base : Nat) : List (ByteSet × Nat) → List (ByteSet × Nat)
  | [] => []
  | e :: rest => (e.1, base) :: consecutiveEntries (base + 1) rest

theorem map_fst_consecutiveEntries (base : Nat) (entries : List (ByteSet × Nat)) :
    (consecutiveEntries base entries).map (·.1) = entries.map (·.1) := by
  induction entries generalizing base with
  | nil => rfl
  | cons e rest ih => simp [consecutiveEntries, ih]

/-- The same labels, with the destinations `base`, `base + 1`, … in their order. -/
def consecutive (t : Transitions) (base : Nat) : Transitions :=
  ⟨consecutiveEntries base t.entries, by
    have h := t.sorted
    rw [← List.pairwise_map (f := fun e : ByteSet × Nat => e.1) (R := fun a b => a < b)] at h ⊢
    rw [map_fst_consecutiveEntries]
    exact h⟩

end Transitions
end ByteMatch
