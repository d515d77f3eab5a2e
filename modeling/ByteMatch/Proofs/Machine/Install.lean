import ByteMatch.Machine.Install
import ByteMatch.Proofs.ByteSet.Ranges
import ByteMatch.Proofs.CharSet.NormalForm

/-!
# ByteMatch.Proofs.Machine.Install

Loading a character set appends a block of states to a machine, and the block accepts what the set
accepts.

* `CharSet.install_eq`: when loading fails, and what it does to the machine.
* `Machine.Holds`: the machine has a copy of an automaton from some state on.
* `Machine.accepts_of_holds`: the copy accepts what the automaton accepts, as long as no state has the
  number of the end of a character.
-/

namespace ByteMatch

open Automaton
open CharSet (labelRanges stateRanges rangeTransitions)

variable {m m' : Machine} {a : Automaton} {base q dest : Nat} {x : UInt8} {code : ByteSet} {s : State}
  {w : List UInt8}

/-! ## Loading -/

namespace Machine

theorem get_eq {ε : Type} (m : Machine) : (get : Loader ε Machine) m = .ok m m := rfl

/-- Adds the transitions of a list to the states that they leave. -/
def pushAll (states : Array (Array RangeTransition)) (added : List (Nat × RangeTransition)) :
    Array (Array RangeTransition) :=
  added.foldl (fun states e => states.modify e.1 (·.push e.2)) states

theorem forM_addTransition {ε : Type} (wrap : MachineError → ε) (added : List (Nat × RangeTransition))
    (m : Machine) (h : ∀ e ∈ added, e.1 < m.freeState) :
    (added.forM fun (q, r) => EStateM.adaptExcept wrap (addTransition q r)) m =
      .ok () { m with states := pushAll m.states added } := by
  induction added generalizing m with
  | nil => rfl
  | cons e added ih =>
    obtain ⟨q, r⟩ := e
    have hadd : EStateM.adaptExcept wrap (addTransition q r) m =
        .ok () { m with states := m.states.modify q (·.push r) } := by
      rw [EStateM.adaptExcept, addTransition, if_pos (h (q, r) (by simp))]
    have hrest := ih { m with states := m.states.modify q (·.push r) } fun e he => by
      have := h e (List.mem_cons_of_mem _ he)
      simpa [freeState] using this
    show EStateM.bind (EStateM.adaptExcept wrap (addTransition q r)) (fun _ =>
      added.forM fun (q, r) => EStateM.adaptExcept wrap (addTransition q r)) m = _
    rw [EStateM.bind, hadd]
    exact hrest

theorem pushAll_spec (added : List (Nat × RangeTransition)) (states : Array (Array RangeTransition)) :
    (pushAll states added).size = states.size ∧ ∀ p, p < states.size →
      (pushAll states added).getD p #[] =
        states.getD p #[] ++ ((added.filter (·.1 = p)).map (·.2)).toArray := by
  induction added generalizing states with
  | nil => simp [pushAll]
  | cons e added ih =>
    obtain ⟨hsize, hget⟩ := ih (states.modify e.1 (·.push e.2))
    rw [Array.size_modify] at hsize hget
    refine ⟨hsize, fun p hp => (hget p hp).trans ?_⟩
    by_cases he : e.1 = p
    · simp [he, hp, Array.getElem_modify]
    · simp [he, hp, Array.getElem_modify]

/-- The states that a set takes in a machine. A set without states takes one that accepts nothing. -/
def block (base : Nat) (a : Automaton) : Array (Array RangeTransition) :=
  ((List.range (max 1 a.size)).map fun q => (stateRanges base (a.state q)).toArray).toArray

theorem stateRanges_hole : stateRanges base .hole = [] := rfl

theorem filter_map_pair (rs : List RangeTransition) (q p : Nat) :
    ((rs.map ((q, ·))).filter (·.1 = p)).map (·.2) = if q = p then rs else [] := by
  induction rs with
  | nil => simp
  | cons r rs ih => by_cases hq : q = p <;> simp_all

theorem filter_rangeTransitions (base p : Nat) (a : Automaton) :
    ((rangeTransitions base a).filter (·.1 = p)).map (·.2) =
      if p < base then [] else stateRanges base (a.state (p - base)) := by
  have hlist : ∀ (l : List State) (k : Nat), (((l.zipIdx k).flatMap fun e =>
      (stateRanges base e.1).map ((e.2, ·))).filter (·.1 = p)).map (·.2) =
        if p < k then [] else stateRanges base ((l[p - k]?).getD .hole) := by
    intro l
    induction l with
    | nil => simp [stateRanges_hole]
    | cons s l ih =>
      intro k
      rw [List.zipIdx_cons, List.flatMap_cons, List.filter_append, List.map_append, ih,
        filter_map_pair]
      by_cases hp : k = p
      · simp [hp]
      · rcases Nat.lt_or_gt_of_ne hp with hlt | hgt
        · obtain ⟨i, hi⟩ : ∃ i, p - k = i + 1 := ⟨p - k - 1, by omega⟩
          have hi' : p - (k + 1) = i := by omega
          simp [hp, hi, hi', Nat.not_lt_of_gt hlt, Nat.not_lt_of_le hlt]
        · simp [hp, hgt, Nat.lt_succ_of_lt hgt]
  refine (hlist a.toList base).trans ?_
  rw [Automaton.state_eq_getD, Array.getElem?_toList]

theorem lt_of_mem_rangeTransitions {e : Nat × RangeTransition} (h : e ∈ rangeTransitions base a) :
    e.1 < base + a.size := by
  obtain ⟨⟨s, q⟩, hq, he⟩ := List.mem_flatMap.1 h
  obtain ⟨r, -, rfl⟩ := List.mem_map.1 he
  have := List.mem_zipIdx hq
  simp only [Array.length_toList] at this
  omega

theorem pushAll_rangeTransitions (states : Array (Array RangeTransition)) (a : Automaton) :
    pushAll (states ++ Array.replicate (max 1 a.size) #[]) (rangeTransitions states.size a) =
      states ++ block states.size a := by
  obtain ⟨hsize, hget⟩ := pushAll_spec (rangeTransitions states.size a)
    (states ++ Array.replicate (max 1 a.size) #[])
  refine Array.ext (by simp [hsize, block]) fun p hp hp' => ?_
  have hlt : p < (states ++ Array.replicate (max 1 a.size) #[]).size := hsize ▸ hp
  have hbound : p < states.size + max 1 a.size := by simpa using hlt
  have hentry := hget p hlt
  rw [filter_rangeTransitions, Array.getD_eq_getD_getElem?, Array.getElem?_eq_getElem hp,
    Option.getD_some] at hentry
  rw [hentry]
  by_cases hold : p < states.size
  · simp [hold, Array.getElem?_append]
  · have hi : p - states.size < max 1 a.size := by omega
    simp [hold, Array.getElem?_append, Array.getElem_append, block, hi]

end Machine

namespace CharSet

open Machine (block)

theorem allocate_block (m : Machine) (n : Nat) :
    EStateM.adaptExcept InstallError.machine (Machine.allocate m.freeState (m.freeState + n)) m =
      if m.limits.maxStates < m.freeState + n then
        .error (.machine (.statesExhausted n (m.limits.maxStates - m.freeState))) m
      else .ok () { m with states := m.states ++ Array.replicate n #[] } := by
  rw [EStateM.adaptExcept, Machine.allocate, if_neg (by omega), Nat.add_sub_cancel_left]
  by_cases hfull : m.limits.maxStates < m.freeState + n
  · simp only [hfull, if_true]
  · simp only [hfull, if_false]

/-- Loading fails before anything is added, or it appends the block of the graph. -/
theorem install_eq (c : CharSet) (reported : Limits) (m : Machine) : c.install reported m =
    if reported.maxStates - m.freeState ≤ c.toGraph.states.size then
      .error (.tooManyStates c.toGraph.states.size (reported.maxStates - m.freeState)) m
    else if m.limits.maxStates < m.freeState + max 1 c.toGraph.states.size then
      .error (.machine (.statesExhausted (max 1 c.toGraph.states.size)
        (m.limits.maxStates - m.freeState))) m
    else .ok m.freeState { m with states := m.states ++ block m.freeState c.toGraph.states } := by
  have hadd := Machine.forM_addTransition InstallError.machine
    (rangeTransitions m.freeState c.toGraph.states)
    { m with states := m.states ++ Array.replicate (max 1 c.toGraph.states.size) #[] } fun e he => by
      have hlt := Machine.lt_of_mem_rangeTransitions he
      simp only [Machine.freeState, Array.size_append, Array.size_replicate] at hlt ⊢
      omega
  have hpush := Machine.pushAll_rangeTransitions m.states c.toGraph.states
  simp only [install, bind, EStateM.bind, Machine.get_eq]
  by_cases hfew : reported.maxStates - m.freeState ≤ c.toGraph.states.size
  · simp only [hfew, if_true]
    rfl
  · simp only [hfew, if_false]
    rw [EStateM.bind, allocate_block]
    by_cases hfull : m.limits.maxStates < m.freeState + max 1 c.toGraph.states.size
    · simp only [hfull, if_true]
    · simp only [hfull, if_false]
      rw [EStateM.bind, hadd]
      simp only [Machine.freeState, hpush]
      rfl

end CharSet

namespace Machine

/-! ## What a block accepts -/

theorem exists_covers_labelRanges :
    (∃ r ∈ labelRanges code dest, r.covers x = true) ↔ x ∈ code := by
  rw [← ByteSet.mem_ranges]
  simp only [labelRanges, List.mem_map, ByteSet.InRuns, RangeTransition.covers, Bool.and_eq_true,
    decide_eq_true_eq]
  constructor
  · intro h
    obtain ⟨_, ⟨run, hrun, rfl⟩, hcovers⟩ := h
    exact ⟨run, hrun, hcovers⟩
  · intro h
    obtain ⟨run, hrun, hcovers⟩ := h
    exact ⟨_, ⟨run, hrun, rfl⟩, hcovers⟩

theorem dest_of_mem_labelRanges {r : RangeTransition} (h : r ∈ labelRanges code dest) :
    r.dest = dest := by
  obtain ⟨run, -, rfl⟩ := List.mem_map.1 h
  rfl

/-- The transitions for a byte that does not end a character. -/
def inner (x : UInt8) (r : RangeTransition) : Bool := r.covers x && r.dest != characterEnd

theorem find?_labelRanges (hdest : dest ≠ characterEnd) :
    ((labelRanges code dest).find? (inner x)).map (·.dest) =
      if code.contains x then some dest else none := by
  cases hfind : (labelRanges code dest).find? (inner x) with
  | some r =>
    have hmem := List.mem_of_find?_eq_some hfind
    have hinner := List.find?_some hfind
    rw [inner, Bool.and_eq_true] at hinner
    have hx : x ∈ code := exists_covers_labelRanges.1 ⟨r, hmem, hinner.1⟩
    rw [if_pos (ByteSet.contains_iff.2 hx), Option.map_some, dest_of_mem_labelRanges hmem]
  | none =>
    have hx : ¬ code.contains x = true := by
      intro hx
      obtain ⟨r, hr, hcovers⟩ := exists_covers_labelRanges.2 (ByteSet.contains_iff.1 hx)
      have := List.find?_eq_none.1 hfind r hr
      simp [inner, hcovers, dest_of_mem_labelRanges hr, hdest] at this
    rw [if_neg hx, Option.map_none]

theorem find?_leafRanges :
    (((s.leaf.map (labelRanges · characterEnd)).getD []).find? (inner x)) = none := by
  rw [List.find?_eq_none]
  intro r hr
  cases hleaf : s.leaf with
  | none => simp [hleaf] at hr
  | some leaf =>
    rw [hleaf] at hr
    simp [inner, dest_of_mem_labelRanges hr]

/-- The first range for a byte leads where the first label leads. -/
theorem find?_stateRanges (h : ∀ e ∈ s.transitions.entries, base + e.2 < characterEnd) :
    ((stateRanges base s).find? (inner x)).map (·.dest) =
      (s.transitions.step? x).map (base + ·) := by
  rw [stateRanges, Transitions.step?, List.find?_append, find?_leafRanges, Option.or_none]
  generalize s.transitions.entries = entries at h
  induction entries with
  | nil => rfl
  | cons e entries ih =>
    have hrest := ih fun e he => h e (List.mem_cons_of_mem _ he)
    have hne : base + e.2 ≠ characterEnd := Nat.ne_of_lt (h e (by simp))
    rw [List.flatMap_cons, List.find?_append, Option.map_or, hrest, find?_labelRanges hne,
      List.find?_cons]
    cases e.1.contains x <;> rfl

theorem any_stateRanges (h : ∀ e ∈ s.transitions.entries, base + e.2 < characterEnd) :
    (stateRanges base s).any (fun r => r.covers x && r.dest == characterEnd) = s.completes x := by
  rw [Bool.eq_iff_iff, completes_iff, List.any_eq_true]
  simp only [stateRanges, List.mem_append, List.mem_flatMap, Bool.and_eq_true, beq_iff_eq]
  constructor
  · intro hr
    obtain ⟨r, hr | hr, hcovers, hend⟩ := hr
    · obtain ⟨e, he, hr⟩ := hr
      have := h e he
      rw [← dest_of_mem_labelRanges hr, hend] at this
      exact absurd this (Nat.lt_irrefl _)
    · cases hleaf : s.leaf with
      | none => simp [hleaf] at hr
      | some leaf =>
        rw [hleaf] at hr
        exact ⟨leaf, rfl, exists_covers_labelRanges.1 ⟨r, hr, hcovers⟩⟩
  · intro hleaf
    obtain ⟨leaf, hleaf, hx⟩ := hleaf
    obtain ⟨r, hr, hcovers⟩ := exists_covers_labelRanges.2 hx
    exact ⟨r, .inr (by rw [hleaf]; exact hr), hcovers, dest_of_mem_labelRanges hr⟩

theorem accepts_cons (h : w ≠ []) : m.accepts q (x :: w) =
    match (m.transitions q).find? (inner x) with
    | some r => m.accepts r.dest w
    | none => false := by
  cases w with
  | nil => exact absurd rfl h
  | cons y w => rfl

/-- The machine has the states of an automaton from `base` on. -/
def Holds (m : Machine) (base : Nat) (a : Automaton) : Prop :=
  ∀ q, q < max 1 a.size → m.transitions (base + q) = (stateRanges base (a.state q)).toArray

/-- The copy accepts what the automaton accepts. -/
theorem accepts_of_holds (h : m.Holds base a) (ha : a.Proper)
    (hlimit : base + max 1 a.size ≤ characterEnd) (hq : q < max 1 a.size) :
    m.accepts (base + q) w = a.acceptsFrom q w := by
  -- no transition to a state of the copy can be mistaken for the end of a character
  have hdest : ∀ p, ∀ e ∈ (a.state p).transitions.entries, base + e.2 < characterEnd := by
    intro p e he
    have := ha.target_lt p e.1 e.2 he
    omega
  induction w generalizing q with
  | nil => rw [accepts, acceptsFrom]
  | cons x w ih =>
    cases w with
    | nil =>
      rw [accepts, acceptsFrom_singleton, h q hq, List.any_toArray, any_stateRanges (hdest q)]
    | cons y w =>
      have hstep := find?_stateRanges (x := x) (hdest q)
      rw [accepts_cons (by simp), acceptsFrom_cons (by simp), h q hq, List.find?_toArray]
      cases hnext : (a.state q).transitions.step? x with
      | none =>
        rw [hnext, Option.map_none, Option.map_eq_none_iff] at hstep
        rw [hstep]
      | some next =>
        rw [hnext, Option.map_some] at hstep
        obtain ⟨r, hr, hrdest⟩ := Option.map_eq_some_iff.1 hstep
        obtain ⟨c, -, he⟩ := Transitions.exists_of_step? hnext
        have hlt := ha.target_lt q c next he
        rw [hr]
        show m.accepts r.dest (y :: w) = a.acceptsFrom next (y :: w)
        rw [hrdest]
        exact ih (by omega)

theorem holds_block (m : Machine) (a : Automaton) : Holds { m with
    states := m.states ++ block m.freeState a } m.freeState a := by
  intro q hq
  simp [transitions, freeState, block, hq]

/-! ## Later calls -/

/-- The machine has got further states, and its limits are the same. -/
def Extends (m' m : Machine) : Prop := m'.limits = m.limits ∧ ∃ added, m'.states = m.states ++ added

theorem Extends.refl (m : Machine) : m.Extends m := ⟨rfl, #[], by simp⟩

theorem Extends.trans {m₁ m₂ m₃ : Machine} (h : m₃.Extends m₂) (h' : m₂.Extends m₁) :
    m₃.Extends m₁ := by
  obtain ⟨hlimits, added, hstates⟩ := h
  obtain ⟨hlimits', added', hstates'⟩ := h'
  exact ⟨hlimits.trans hlimits', added' ++ added, by rw [hstates, hstates', Array.append_assoc]⟩

theorem Extends.transitions (h : m'.Extends m) (hq : q < m.freeState) :
    m'.transitions q = m.transitions q := by
  obtain ⟨-, added, hstates⟩ := h
  have hlt : q < m.states.size := hq
  simp [Machine.transitions, hstates, Array.getElem?_append, hlt]

theorem Extends.holds (h : m'.Extends m) (hheld : m.Holds base a)
    (hin : base + max 1 a.size ≤ m.freeState) : m'.Holds base a := by
  intro q hq
  rw [h.transitions (by omega), hheld q hq]

end Machine
end ByteMatch
