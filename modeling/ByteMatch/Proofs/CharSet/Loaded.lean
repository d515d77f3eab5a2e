import ByteMatch.Proofs.CharSet.Session
import ByteMatch.Proofs.CharSet.Sound

/-!
# ByteMatch.Proofs.CharSet.Loaded

Sets that have been read from files, and what is made of them.

A file is only checked for the numbers of its states. A transition may lead to a state with neither leaf
nor transitions, and combining sets takes such a state for one that has been removed.

* `CharSet.inRange_decodeFile`: the transitions of a set that has been read lead to its states.
* `Session.Operation.Combines`: the operations that combine sets or change their form.
* `Session.AllSound.perform`, `Session.AllSound.run`: what one such operation and a whole run keep.
* `Session.inRange_run`: from files without such transitions and without cycles, whose labels are disjoint and
  not empty, no run ever makes a transition that leads out of its set. `Session.not_inRange_run_deadEnd` and
  `Session.not_inRange_run_overlapping` are runs from other files that do. Nothing is said of files with empty
  labels. The union of a set that has one with itself leaves a state that nothing leads to, where the proof
  needs all states of a tree to be reached (`Automaton.SoundTree`).
-/

namespace ByteMatch

/-! ## Reading -/

theorem ClassFile.inRange_automaton {c : Contents} {a : Automaton} (h : c.automaton = .ok a) :
    a.InRange := by
  obtain ⟨hc, hrecorded⟩ := automaton_ok_iff_recorded.1 h
  intro p label q he
  have hmem : ((p, label), q) ∈ c.edges := ((hrecorded.edge p label q).1 he).mem
  obtain ⟨record, hr, hentry⟩ := List.mem_flatMap.1 hmem
  rw [hrecorded.size]
  exact (hc.1 record hr).2 (q, label) (mem_recordEdges.1 hentry).2

namespace CharSet

variable {c : CharSet} {data : List UInt8}

/-- The transitions of a set that has been read lead to its states. -/
theorem inRange_decodeFile (h : decodeFile data = .ok c) : c.form = .graph ∧ c.states.InRange := by
  obtain ⟨contents, -, hstates, -, hform⟩ := decodeFile_iff.1 h
  exact ⟨hform, ClassFile.inRange_automaton hstates⟩

/-- A set that has been read is sound if it is tidy and there are no cycles in it. -/
theorem sound_decodeFile (h : decodeFile data = .ok c) (hacyc : c.states.Acyclic) (htidy : c.states.Tidy) :
    c.Sound := by
  obtain ⟨hform, hrange⟩ := inRange_decodeFile h
  refine ⟨⟨htidy, hrange, hacyc⟩, fun htree => ?_⟩
  rw [hform] at htree
  cases htree

end CharSet

/-! ## Loading into machines -/

namespace Machine

/-- The transitions of the states from `base` on stay there, or complete a character. -/
def Confined (m : Machine) (base : Nat) : Prop :=
  ∀ q, base ≤ q → ∀ r ∈ m.transitions q, r.dest = characterEnd ∨ (base ≤ r.dest ∧ r.dest < m.freeState)

theorem dest_of_mem_stateRanges {base : Nat} {s : State} {r : RangeTransition}
    (h : r ∈ CharSet.stateRanges base s) :
    r.dest = characterEnd ∨ ∃ e ∈ s.transitions.entries, r.dest = base + e.2 := by
  rw [CharSet.stateRanges, List.mem_append, List.mem_flatMap] at h
  cases h with
  | inl hlabel =>
    obtain ⟨e, he, hr⟩ := hlabel
    exact .inr ⟨e, he, dest_of_mem_labelRanges hr⟩
  | inr hleaf =>
    cases hl : s.leaf with
    | none => simp [hl] at hleaf
    | some leaf =>
      rw [hl] at hleaf
      exact .inl (dest_of_mem_labelRanges hleaf)

theorem confined_block (m : Machine) {a : Automaton} (ha : a.InRange) :
    Confined { m with states := m.states ++ block m.freeState a } m.freeState := by
  intro q hq r hr
  obtain ⟨i, rfl⟩ := Nat.exists_eq_add_of_le hq
  have hsize : freeState { m with states := m.states ++ block m.freeState a } =
      m.freeState + max 1 a.size := by simp [freeState, block]
  by_cases hi : i < max 1 a.size
  · have hrange : r ∈ CharSet.stateRanges m.freeState (a.state i) := by
      rw [holds_block m a i hi] at hr
      exact List.mem_toArray.1 hr
    cases dest_of_mem_stateRanges hrange with
    | inl hend => exact .inl hend
    | inr hinner =>
      obtain ⟨e, he, hdest⟩ := hinner
      have hlt := ha i e.1 e.2 he
      rw [hdest, hsize]
      exact .inr ⟨Nat.le_add_right _ _, by omega⟩
  · rw [transitions, Array.getD_eq_getD_getElem?, Array.getElem?_eq_none] at hr
    · simp at hr
    · rw [freeState] at hsize
      omega

/-- What is added to a machine for a set whose transitions lead to its states. -/
theorem confined_install {c : CharSet} (hc : c.toGraph.states.InRange) {reported : Limits} {m m' : Machine}
    {base : Nat} (h : c.install reported m = .ok base m') :
    base = m.freeState ∧ m'.Extends m ∧ m'.Confined base := by
  rw [CharSet.install_eq] at h
  split at h
  · cases h
  · split at h
    · cases h
    · cases h
      exact ⟨rfl, ⟨rfl, _, rfl⟩, confined_block m hc⟩

end Machine

/-! ## Runs -/

namespace Session

variable {s : Session} {ops : List Operation}

/-- The operations that combine sets or change their form. -/
def Operation.Combines : Operation → Prop
  | .union _ _ | .intersect _ _ | .difference _ _ | .toTree _ | .toGraph _ => True
  | _ => False

/-- All sets are sound. -/
def AllSound (s : Session) : Prop := ∀ c ∈ s.sets, c.Sound

theorem AllSound.replace {made : Option CharSet} {i : Nat} (h : s.AllSound)
    (hmade : ∀ c, made = some c → c.Sound) : (s.replace i made).AllSound := fun c hc =>
  (mem_sets_replace hc).elim (h c) (hmade c)

theorem AllSound.convert {f : CharSet → CharSet} {i : Nat} (h : s.AllSound)
    (hf : ∀ c, c.Sound → (f c).Sound) : (s.replace i (s.sets[i]?.map f)).AllSound := by
  refine h.replace fun d hd => ?_
  obtain ⟨c, hc, rfl⟩ := Option.map_eq_some_iff.1 hd
  exact hf c (h c (List.mem_of_getElem? hc))

theorem AllSound.combine {op : CharSet → CharSet → Except CharSetError CharSet} {i j : Nat} (h : s.AllSound)
    (hop : ∀ a b c, a.Sound → b.Sound → op a b = .ok c → c.Sound) : (s.combine op i j).AllSound := by
  refine h.replace fun c hc => ?_
  obtain ⟨a, ha, hc⟩ := Option.bind_eq_some_iff.1 hc
  obtain ⟨b, hb, hc⟩ := Option.bind_eq_some_iff.1 hc
  exact hop a b c (h a (List.mem_of_getElem? ha)) (h b (List.mem_of_getElem? hb)) (toOption_eq_some.1 hc)

theorem AllSound.perform {op : Operation} (h : s.AllSound) (hop : op.Combines) :
    (s.perform op).AllSound := by
  cases op with
  | union i j => exact h.combine fun a b c ha hb => ha.union hb
  | intersect i j => exact h.combine fun a b c ha hb => ha.intersect hb
  | difference i j => exact h.combine fun a b c ha hb => ha.difference hb
  | toTree i => exact h.convert fun c hc => hc.toTree
  | toGraph i => exact h.convert fun c hc => hc.toGraph
  | _ => exact hop.elim

theorem AllSound.run (h : s.AllSound) (hops : ∀ op ∈ ops, op.Combines) : (s.run ops).AllSound := by
  induction ops generalizing s with
  | nil => exact h
  | cons op ops ih =>
    exact ih (h.perform (hops op List.mem_cons_self)) fun op hop => hops op (List.mem_cons_of_mem _ hop)

/-- Sets are read from files, and combined and converted in any order. If in the graphs of the files there
are no cycles, labels are disjoint and not empty, and no transition leads to a state without leaf and
transitions, then all transitions of all sets lead to states, no copy of a subtree that is made for a
combination reads anything else, and what is added to a machine for a set stays within its block. -/
theorem inRange_run {sets : List CharSet} (hload : ∀ c ∈ sets, ∃ data, CharSet.decodeFile data = .ok c)
    (hacyc : ∀ c ∈ sets, c.states.Acyclic) (htidy : ∀ c ∈ sets, c.states.Tidy)
    (hops : ∀ op ∈ ops, op.Combines) :
    (∀ c ∈ (run ⟨sets, [], []⟩ ops).sets, c.states.InRange ∧
      ∀ reported m base m', c.install reported m = .ok base m' →
        base = m.freeState ∧ m'.Extends m ∧ m'.Confined base) ∧
    ∀ a ∈ (run ⟨sets, [], []⟩ ops).sets, ∀ b ∈ (run ⟨sets, [], []⟩ ops).sets,
      a.toTree.states.InRange ∧ b.toTree.states.InRange ∧
        Automaton.CopiesInRange a.toTree.states b.toTree.states := by
  have hstart : AllSound ⟨sets, [], []⟩ := by
    intro c hc
    obtain ⟨data, hdata⟩ := hload c hc
    exact CharSet.sound_decodeFile hdata (hacyc c hc) (htidy c hc)
  have hrun := hstart.run hops
  refine ⟨fun c hc => ⟨(hrun c hc).states.inRange, fun _ _ _ _ => ?_⟩, fun a ha b hb => ?_⟩
  · exact Machine.confined_install (hrun c hc).toGraph.states.inRange
  · have hleft := (hrun a ha).toTree.states.inRange
    have hright := (hrun b hb).toTree.states.inRange
    exact ⟨hleft, hright, Automaton.copiesInRange hleft hright⟩

/-- A graph with an empty leaf, and with a state that nothing leads to. -/
def blankLeaf : CharSet where
  encoding := .ascii
  states := #[⟨.ofList [(.singleton 0x61, 1), (.singleton 0x62, 1)], none⟩, ⟨∅, some ∅⟩, .hole]
  form := .graph

def blankLeafFile : List UInt8 :=
  [0xB3, 0x7E, 5, 0, 3, 0, 1, 0, 1, 0, 0x61, 0x73, 0x63, 0x69, 0x69, 0, 0, 2, 0, 1, 0, 0x0C, 2, 1, 0, 0x0C, 4,
    1, 0, 0, 0, 0x67, 0xCA]

/-- A graph with the characters `ac` and `bc`. -/
def letterPair : CharSet where
  encoding := .ascii
  states := #[⟨.ofList [(.interval 0x61 0x62, 1)], none⟩, ⟨∅, some (.singleton 0x63)⟩]
  form := .graph

def letterPairFile : List UInt8 :=
  [0xB3, 0x7E, 5, 0, 2, 0, 1, 0, 1, 0, 0x61, 0x73, 0x63, 0x69, 0x69, 0, 0, 1, 0, 1, 0, 0x0C, 6, 1, 0, 0x0C, 8,
    0x55, 0x91]

theorem decodeFile_blankLeaf : CharSet.decodeFile blankLeafFile = .ok blankLeaf := by decide +kernel

theorem decodeFile_letterPair : CharSet.decodeFile letterPairFile = .ok letterPair := by decide +kernel

theorem inRange_run_blankLeaf :
    (∀ c ∈ [blankLeaf, letterPair], ∃ data, CharSet.decodeFile data = .ok c) ∧
    (∀ c ∈ [blankLeaf, letterPair], c.states.Acyclic) ∧ (∀ c ∈ [blankLeaf, letterPair], c.states.Tidy) ∧
    (∀ op ∈ [Operation.difference 1 0, .union 0 1, .toGraph 0, .intersect 1 0], op.Combines) ∧
    (∀ c ∈ (run ⟨[blankLeaf, letterPair], [], []⟩
      [.difference 1 0, .union 0 1, .toGraph 0, .intersect 1 0]).sets, c.states.InRange ∧
      ∀ reported m base m', c.install reported m = .ok base m' →
        base = m.freeState ∧ m'.Extends m ∧ m'.Confined base) ∧
    ∀ a ∈ (run ⟨[blankLeaf, letterPair], [], []⟩
      [.difference 1 0, .union 0 1, .toGraph 0, .intersect 1 0]).sets,
      ∀ b ∈ (run ⟨[blankLeaf, letterPair], [], []⟩
        [.difference 1 0, .union 0 1, .toGraph 0, .intersect 1 0]).sets,
        a.toTree.states.InRange ∧ b.toTree.states.InRange ∧
          Automaton.CopiesInRange a.toTree.states b.toTree.states := by
  have hload : ∀ c ∈ [blankLeaf, letterPair], ∃ data, CharSet.decodeFile data = .ok c := by
    rintro c (_ | ⟨_, _ | ⟨_, _ | _⟩⟩)
    · exact ⟨_, decodeFile_blankLeaf⟩
    · exact ⟨_, decodeFile_letterPair⟩
  have hacyc : ∀ c ∈ [blankLeaf, letterPair], c.states.Acyclic := by
    rintro c (_ | ⟨_, _ | ⟨_, _ | _⟩⟩)
    · exact Automaton.acyclic_of_states (by decide +kernel)
    · exact Automaton.acyclic_of_states (by decide +kernel)
  have htidy : ∀ c ∈ [blankLeaf, letterPair], c.states.Tidy := by
    rintro c (_ | ⟨_, _ | ⟨_, _ | _⟩⟩)
    · exact .of_states (by decide +kernel) (by decide +kernel)
    · exact .of_states (by decide +kernel) (by decide +kernel)
  have hops : ∀ op ∈ [Operation.difference 1 0, .union 0 1, .toGraph 0, .intersect 1 0], op.Combines := by
    rintro op (_ | ⟨_, _ | ⟨_, _ | ⟨_, _ | ⟨_, _ | _⟩⟩⟩⟩) <;> trivial
  obtain ⟨hsets, hpairs⟩ := inRange_run hload hacyc htidy hops
  exact ⟨hload, hacyc, htidy, hops, hsets, hpairs⟩

/-- A graph with a transition to a state without leaf and transitions. -/
def deadEnd : CharSet where
  encoding := .ascii
  states := #[⟨.ofList [(.singleton 0x61, 1)], none⟩, .hole]
  form := .graph

def deadEndFile : List UInt8 :=
  [0xB3, 0x7E, 5, 0, 2, 0, 1, 0, 0, 0, 0x61, 0x73, 0x63, 0x69, 0x69, 0, 0, 1, 0, 1, 0, 0x0C, 2, 0x71, 0xC5]

/-- What is left of it without the characters of `letterPair`: the state is gone, the transition is not. -/
def dangling : CharSet where
  encoding := .ascii
  states := #[⟨.ofList [(.singleton 0x61, 2)], none⟩]
  form := .tree

/-- A machine gets a transition to a state that it does not have. -/
theorem not_inRange_run_deadEnd :
    CharSet.decodeFile deadEndFile = .ok deadEnd ∧ CharSet.decodeFile letterPairFile = .ok letterPair ∧
    deadEnd.encoding = letterPair.encoding ∧ deadEnd.states.Acyclic ∧ letterPair.states.Acyclic ∧
    (Operation.difference 0 1).Combines ∧
    dangling ∈ (run ⟨[deadEnd, letterPair], [], []⟩ [.difference 0 1]).sets ∧ ¬ dangling.states.InRange ∧
    ∃ m', dangling.install {} (.empty {}) = .ok 0 m' ∧ ¬ m'.Confined 0 := by
  have hrun : (run ⟨[deadEnd, letterPair], [], []⟩ [.difference 0 1]).sets = [dangling, letterPair] := by
    decide +kernel
  refine ⟨by decide +kernel, decodeFile_letterPair, rfl, Automaton.acyclic_of_states (by decide +kernel),
    Automaton.acyclic_of_states (by decide +kernel), trivial, by simp [hrun], fun hrange => ?_,
    { Machine.empty {} with states := #[#[⟨0x61, 0x61, 2⟩]] }, by rfl, fun hconfined => ?_⟩
  · have hedge : dangling.states.Edge 0 (.singleton 0x61) 2 := List.mem_singleton.2 rfl
    exact absurd (hrange _ _ _ hedge) (by decide)
  · exact absurd (hconfined 0 (Nat.le_refl 0) ⟨0x61, 0x61, 2⟩ (by simp [Machine.transitions])) (by decide)

/-- A graph without holes, in which a byte is in two labels of a state. -/
def overlapping : CharSet where
  encoding := .ascii
  states := #[⟨.ofList [(.singleton 3, 1), (.ofList [0, 2, 3], 1)], none⟩,
    ⟨.ofList [(.singleton 2, 2)], some (.ofList [0, 1, 3])⟩, ⟨∅, some (.singleton 3)⟩]
  form := .graph

def branching : CharSet where
  encoding := .ascii
  states := #[⟨.ofList [(.ofList [0, 2], 1)], some (.ofList [0, 2, 3])⟩, ⟨∅, some (.ofList [1, 3])⟩]
  form := .graph

/-- Labels have to be disjoint, too: those of a state are split one by one, and one that overlaps another
leads into a subtree that has been removed for that one. -/
theorem not_inRange_run_overlapping :
    (CharSet.decodeFile (ClassFile.sealed (ClassFile.body .ascii overlapping.states))) = .ok overlapping ∧
    (CharSet.decodeFile (ClassFile.sealed (ClassFile.body .ascii branching.states))) = .ok branching ∧
    overlapping.states.Acyclic ∧ branching.states.Acyclic ∧
    (∀ q, q < overlapping.size → (overlapping.states.state q).isHole = false) ∧
    (∀ q, q < branching.size → (branching.states.state q).isHole = false) ∧
    ∃ c ∈ (run ⟨[overlapping, branching], [], []⟩
      [.difference 0 0, .difference 0 0, .union 0 1, .difference 0 1]).sets, ¬ c.states.InRange := by
  refine ⟨by decide +kernel, by decide +kernel, Automaton.acyclic_of_states (by decide +kernel),
    Automaton.acyclic_of_states (by decide +kernel), by decide +kernel, by decide +kernel,
    ⟨.ascii, #[⟨.ofList [(.singleton 0, 4), (.singleton 2, 1)], none⟩], .tree⟩, ?_, fun hrange => ?_⟩
  · exact List.mem_of_getElem? (i := 0) (by decide +kernel)
  · have hlt := hrange 0 (.singleton 0) 4 List.mem_cons_self
    exact absurd hlt (by decide)

end Session
end ByteMatch
