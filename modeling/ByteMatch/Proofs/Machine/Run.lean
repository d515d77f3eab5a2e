import ByteMatch.Configuration
import ByteMatch.Pattern.Compile
import ByteMatch.Proofs.CharSet.Equality
import ByteMatch.Proofs.Machine.Install

/-!
# ByteMatch.Proofs.Machine.Run

What has been loaded into a machine stays as it is, whatever is loaded later.

* `AssembledProgram.load_eq`: when loading a program fails, and what it does to the machine.
* `Machine.Call`, `Machine.run`: calls that load something, one after the other.
* `Machine.extends_run`: calls only append states.
* `Machine.accepts_after_install`: a set that has been loaded is accepted at its root from then on.
-/

namespace ByteMatch

/-! ## Programs -/

theorem length_relocate (base : Nat) (code : Code) : (relocate base code).length = code.length := by
  simp [relocate]

namespace AssembledProgram

def startAt (c : AssembledProgram) (address : Nat) : EntryPoint := { c.start with startAddress := address }

/-- Loading fails before anything is added, or it appends the program and one entry point. -/
theorem load_eq (c : AssembledProgram) (reported : Limits) (m : Machine) : c.load reported m =
    if reported.maxBytecode < m.programEnd + c.code.length then
      .error (.programTooLarge c.code.length m.programEnd) m
    else if m.limits.maxBytecode - m.programEnd < c.code.length then
      .error (.machine (.bytecodeExhausted c.code.length (m.limits.maxBytecode - m.programEnd))) m
    else .ok ⟨m.nextHandle, c.startAt m.programEnd, c.numbering⟩ { m with
      program := m.program ++ relocate m.programEnd c.code
      starts := m.starts.push (c.startAt m.programEnd) } := by
  simp only [load, bind, EStateM.bind, Machine.get_eq]
  by_cases hlarge : reported.maxBytecode < m.programEnd + c.code.length
  · simp only [hlarge, if_true]
    rfl
  · simp only [hlarge, if_false]
    by_cases hfull : m.limits.maxBytecode - m.programEnd < c.code.length
    · simp only [EStateM.bind, EStateM.adaptExcept, Machine.appendProgram, length_relocate, hfull, if_true]
    · simp only [EStateM.bind, EStateM.adaptExcept, Machine.appendProgram, length_relocate, hfull, if_false]
      simp only [Machine.get_eq, Machine.register, Machine.nextHandle, if_true]
      rfl

end AssembledProgram

namespace Pattern

variable {p p' : Pattern} {options : CompileOptions} {reported : Limits} {m m' : Machine}

/-- Compiling fails, or the program goes to the end of the program area and gets the next handle. -/
theorem compile_cases (p : Pattern) (options : CompileOptions) (reported : Limits) (m : Machine) :
    (∃ e q, p.compile options reported m = (.error e, q, m)) ∨
      ∃ c q, build options reported p = .ok c q ∧ p.compile options reported m =
        (.ok ⟨m.nextHandle, c.startAt m.programEnd, c.numbering⟩, q, { m with
          program := m.program ++ relocate m.programEnd c.code
          starts := m.starts.push (c.startAt m.programEnd) }) := by
  rw [compile]
  cases build options reported p with
  | error e q => exact .inl ⟨e, q, rfl⟩
  | ok c q =>
    simp only [AssembledProgram.load_eq]
    by_cases hlarge : reported.maxBytecode < m.programEnd + c.code.length
    · simp only [hlarge, if_true]
      exact .inl ⟨_, q, rfl⟩
    · by_cases hfull : m.limits.maxBytecode - m.programEnd < c.code.length
      · simp only [hlarge, hfull, if_true, if_false]
        exact .inl ⟨_, q, rfl⟩
      · simp only [hlarge, hfull, if_false]
        exact .inr ⟨c, q, rfl, rfl⟩

/-- A program that cannot be compiled or loaded leaves nothing behind. -/
theorem compile_error {e : CompileError} (h : p.compile options reported m = (.error e, p', m')) :
    m' = m := by
  rcases compile_cases p options reported m with ⟨e', q, heq⟩ | ⟨c, q, -, heq⟩
  · cases heq.symm.trans h
    rfl
  · cases heq.symm.trans h

/-- A program that is loaded goes to the end of the program area, and gets the next handle. -/
theorem compile_ok {l : LoadedPattern} (h : p.compile options reported m = (.ok l, p', m')) :
    ∃ c, build options reported p = .ok c p' ∧
      l = ⟨m.nextHandle, c.startAt m.programEnd, c.numbering⟩ ∧
      m' = { m with
        program := m.program ++ relocate m.programEnd c.code
        starts := m.starts.push (c.startAt m.programEnd) } := by
  rcases compile_cases p options reported m with ⟨e, q, heq⟩ | ⟨c, q, hbuild, heq⟩
  · cases heq.symm.trans h
  · cases heq.symm.trans h
    exact ⟨c, hbuild, rfl, rfl⟩

end Pattern

namespace Machine

variable {m m' : Machine} {base : Nat}

/-! ## Calls -/

/-- A call that loads something. The limits are those that the loader reports. -/
inductive Call where
  | install (c : CharSet) (reported : Limits)
  | compile (p : Pattern) (options : CompileOptions) (reported : Limits)

/-- The machine after a call, which may have failed. -/
def after (m : Machine) : Call → Machine
  | .install c reported =>
    match c.install reported m with
    | .ok _ m' => m'
    | .error _ m' => m'
  | .compile p options reported => (p.compile options reported m).2.2

def run (m : Machine) (calls : List Call) : Machine := calls.foldl after m

theorem extends_compile (p : Pattern) (options : CompileOptions) (reported : Limits) (m : Machine) :
    (p.compile options reported m).2.2.Extends m := by
  rcases h : p.compile options reported m with ⟨e | l, p', m'⟩
  · obtain rfl := Pattern.compile_error h
    exact .refl _
  · obtain ⟨c, -, -, rfl⟩ := Pattern.compile_ok h
    exact ⟨rfl, #[], by simp⟩

theorem install_ok {c : CharSet} {reported : Limits} (h : c.install reported m = .ok base m') :
    base = m.freeState ∧ m.freeState + max 1 c.toGraph.states.size ≤ m.limits.maxStates ∧
      m' = { m with states := m.states ++ block m.freeState c.toGraph.states } := by
  rw [CharSet.install_eq] at h
  split at h
  · cases h
  · split at h
    · cases h
    · rename_i hfull
      cases h
      exact ⟨rfl, Nat.le_of_not_lt hfull, rfl⟩

theorem install_error {c : CharSet} {reported : Limits} {e : InstallError}
    (h : c.install reported m = .error e m') : m' = m := by
  rw [CharSet.install_eq] at h
  split at h
  · cases h
    rfl
  · split at h
    · cases h
      rfl
    · cases h

theorem extends_after (call : Call) (m : Machine) : (m.after call).Extends m := by
  cases call with
  | compile p options reported => exact extends_compile p options reported m
  | install c reported =>
    rw [after]
    cases h : c.install reported m with
    | error e m' =>
      obtain rfl := install_error h
      exact .refl _
    | ok base m' =>
      obtain ⟨-, -, rfl⟩ := install_ok h
      exact ⟨rfl, _, rfl⟩

theorem extends_run (calls : List Call) (m : Machine) : (m.run calls).Extends m := by
  induction calls generalizing m with
  | nil => exact .refl m
  | cons call calls ih => exact (ih (m.after call)).trans (extends_after call m)

theorem holds_of_install {c : CharSet} {reported : Limits} (h : c.install reported m = .ok base m') :
    m'.Holds base c.toGraph.states ∧ base + max 1 c.toGraph.states.size ≤ m'.freeState ∧
      base + max 1 c.toGraph.states.size ≤ m.limits.maxStates := by
  obtain ⟨rfl, hlimit, rfl⟩ := install_ok h
  exact ⟨holds_block m c.toGraph.states, by simp [freeState, block], hlimit⟩

theorem run_append (before later : List Call) (m : Machine) :
    m.run (before ++ later) = (m.run before).run later := List.foldl_append

end Machine

namespace Configuration

theorem maxStates_clamped (c : Configuration) : c.clamped.limits.maxStates ≤ characterEnd :=
  Nat.min_le_right _ _

theorem maxStates_of_ok {x : Extracting Configuration} {c : Configuration}
    (h : (x >>= fun c => pure c.clamped) = .ok c) : c.limits.maxStates ≤ characterEnd := by
  cases x with
  | error e => cases h
  | ok c' =>
    cases h
    exact maxStates_clamped c'

theorem maxStates_ofTable {entries : Toml.Entries} {c : Configuration} (h : ofTable entries = .ok c) :
    c.limits.maxStates ≤ characterEnd := by
  rw [ofTable] at h
  exact maxStates_of_ok h

/-- No configuration that is read allows a state with the number of the end of a character. -/
theorem maxStates_load {store : Store} {path : Path} {c : Configuration}
    (h : load store path = .ok c) : c.limits.maxStates ≤ characterEnd := by
  rw [load] at h
  split at h
  · split at h
    · rw [ofText] at h
      split at h
      · exact maxStates_ofTable h
      · cases h
    · cases h
  · cases h

end Configuration

namespace Machine

/-- A set that has been loaded is accepted at its root after every later call, by a machine with
limits like those of a configuration. -/
theorem accepts_after_install :
    (∀ store path c, Configuration.load store path = .ok c → c.limits.maxStates ≤ characterEnd) ∧
    ∀ m : Machine, m.limits.maxStates ≤ characterEnd →
      ∀ (before : List Call) (c : CharSet) (reported : Limits) (base : Nat) (m' : Machine),
        c.WellFormed → c.install reported (m.run before) = .ok base m' →
        ∀ (later : List Call) (w : List UInt8),
          (m.run (before ++ .install c reported :: later)).accepts base w = c.accepts w ∧
            c.toGraph.accepts w = c.accepts w := by
  refine ⟨fun store path c => Configuration.maxStates_load, fun m hm before c reported base m' hc h
    later w => ?_⟩
  obtain ⟨hwf, hsame⟩ := CharSet.wellFormed_toGraph hc
  obtain ⟨hheld, hin, hlimit⟩ := holds_of_install h
  have hrun : m.run (before ++ .install c reported :: later) = m'.run later := by
    rw [run_append]
    show ((m.run before).after (.install c reported)).run later = _
    rw [after, h]
  have hend : base + max 1 c.toGraph.states.size ≤ characterEnd := by
    rw [(extends_run before m).1] at hlimit
    exact Nat.le_trans hlimit hm
  have hlater := (extends_run later m').holds hheld hin
  have haccepts := accepts_of_holds (w := w) hlater hwf.states.toProper hend (q := 0) (by omega)
  exact ⟨by rw [hrun, ← hsame w]; exact haccepts, hsame w⟩

/-- A tree that is loaded after a graph, into a machine with the limits that hold by default. -/
theorem accepts_after_install_split :
    (Machine.empty {}).limits.maxStates ≤ characterEnd ∧ CharSet.splitTree.WellFormed ∧
      ∃ base m', CharSet.splitTree.install {} ((Machine.empty {}).run [.install CharSet.shortGraph {}]) =
        .ok base m' ∧ ∀ (later : List Call) (w : List UInt8),
          ((Machine.empty {}).run ([.install CharSet.shortGraph {}] ++
              .install CharSet.splitTree {} :: later)).accepts base w = CharSet.splitTree.accepts w ∧
            CharSet.splitTree.toGraph.accepts w = CharSet.splitTree.accepts w := by
  have hok : (match CharSet.splitTree.install {}
      ((Machine.empty {}).run [.install CharSet.shortGraph {}]) with
      | .ok _ _ => true
      | .error _ _ => false) = true := by decide +kernel
  cases h : CharSet.splitTree.install {}
      ((Machine.empty {}).run [.install CharSet.shortGraph {}]) with
  | error e m' =>
    rw [h] at hok
    cases hok
  | ok base m' =>
    exact ⟨by decide, CharSet.wellFormed_splitTree, base, m', rfl, accepts_after_install.2
      (Machine.empty {}) (by decide) [.install CharSet.shortGraph {}] CharSet.splitTree {} base m'
      CharSet.wellFormed_splitTree h⟩

end Machine
end ByteMatch
