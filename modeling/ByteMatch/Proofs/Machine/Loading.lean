import ByteMatch.Proofs.Machine.Run
import ByteMatch.Proofs.Pattern.ControlFlow

/-!
# ByteMatch.Proofs.Machine.Loading

What the calls that load something leave in a machine.

A call that fails leaves nothing behind. So the program area holds the programs that have been loaded,
one after the other, and as control does not leave a program, no program jumps into another one.

* `Machine.load_atomic`: what a single call changes.
* `Machine.loaded`: the programs that a run of calls loads, with relative addresses.
* `Machine.image`: programs with absolute addresses one after the other.
* `Machine.adds_run`: a run only appends the image of its programs.
* `Machine.HoldsPrograms`: the program area of a machine that was empty at first.
-/

namespace ByteMatch

variable {m m' : Machine} {base : Nat} {code : Code} {blocks : List Code}

/-! ## Absolute addresses -/

theorem wrap32_eq {n : Int} (hlow : 0 ≤ n) (hhigh : n < 2 ^ 31) : wrap32 n = n :=
  Int.bmod_eq_of_le (by omega) (by omega)

theorem getElem?_relocate (base : Nat) (code : Code) (j : Nat) :
    (relocate base code)[j]? = code[j]?.map (·.relocateAt (base + j)) := by
  rw [relocate, List.getElem?_map, List.getElem?_zipIdx]
  cases code[j]? <;> rfl

/-- In a program area that is not too large, the jumps of a closed program stay in the program. -/
theorem Code.Closed.relocateAt {j : Nat} {i : Instruction} (h : Code.Closed code)
    (hi : code[j]? = some i) (hjump : i.isRelative = true) (hsize : base + code.length < 2 ^ 31) :
    i.relocateAt (base + j) = { i with address := (base + j : Nat) + i.address } ∧
      (base : Int) ≤ (base + j : Nat) + i.address ∧
      ((base + j : Nat) : Int) + i.address < base + code.length := by
  obtain ⟨hlow, hhigh⟩ := h.jump j i hi hjump
  refine ⟨?_, by omega, by omega⟩
  rw [Instruction.relocateAt, if_pos hjump, Int.add_comm, wrap32_eq (by omega) (by omega)]

namespace Machine

/-! ## Single calls -/

/-- Loading is atomic. A call that fails leaves the machine as it was. A pattern that is compiled only adds
its program, relocated to the end of the program area, and an entry point under the next handle. A set that
is installed only adds states at the end: those of its graph, or one if it has none. -/
theorem load_atomic (m : Machine) (reported : Limits) :
    (∀ (p : Pattern) (options : CompileOptions) (e : CompileError) (p' : Pattern) (m' : Machine),
      p.compile options reported m = (.error e, p', m') → m' = m) ∧
    (∀ (p : Pattern) (options : CompileOptions) (l : LoadedPattern) (p' : Pattern) (m' : Machine),
      p.compile options reported m = (.ok l, p', m') → ∃ c, p.build options reported = .ok c p' ∧
        l = ⟨m.nextHandle, c.startAt m.programEnd, c.numbering⟩ ∧
        m' = { m with
          program := m.program ++ relocate m.programEnd c.code
          starts := m.starts.push l.start }) ∧
    (∀ (c : CharSet) (e : InstallError) (m' : Machine), c.install reported m = .error e m' → m' = m) ∧
    ∀ (c : CharSet) (base : Nat) (m' : Machine), c.install reported m = .ok base m' →
      base = m.freeState ∧ ∃ added : Array (Array RangeTransition),
        added.size = max 1 c.toGraph.states.size ∧ m' = { m with states := m.states ++ added } := by
  refine ⟨fun p options e p' m' h => Pattern.compile_error h, fun p options l p' m' h => ?_,
    fun c e m' h => install_error h, fun c base m' h => ?_⟩
  · obtain ⟨c, hbuild, rfl, rfl⟩ := Pattern.compile_ok h
    exact ⟨c, hbuild, rfl, rfl⟩
  · obtain ⟨rfl, -, rfl⟩ := install_ok h
    exact ⟨rfl, block m.freeState c.toGraph.states, by simp [block], rfl⟩

/-- A pattern of one character, and what it is compiled to. -/
def oneCharacter : Pattern where
  nodes := #[{ kind := .charClass 0 }]
  root := some 0

def oneCharacterCode : Code :=
  [ ⟨Opcode.markStart, 0, 0, false⟩,
    ⟨Opcode.character, 0, 0, false⟩,
    Code.forkTo 2 3 true,
    ⟨Opcode.report, 0, 0, true⟩ ]

/-- A machine with one free state, and room for one instruction less than the program needs. Its loader
reports the limits that hold by default. -/
def tightMachine : Machine := empty { maxStates := 1, maxBytecode := 3 }

/-- In `tightMachine` nothing can be loaded, but a machine with the default limits takes both. -/
theorem load_atomic_tightMachine :
    (∃ e p' m', oneCharacter.compile {} {} tightMachine = (.error e, p', m') ∧ m' = tightMachine) ∧
    (∃ l p' m', oneCharacter.compile {} {} (empty {}) = (.ok l, p', m') ∧ ∃ c,
      oneCharacter.build {} {} = .ok c p' ∧ l = ⟨0, c.startAt 0, c.numbering⟩ ∧
      m' = { empty {} with program := relocate 0 c.code, starts := #[l.start] }) ∧
    (∃ e m', CharSet.shortGraph.install {} tightMachine = .error e m' ∧ m' = tightMachine) ∧
    ∃ base m', CharSet.shortGraph.install {} (empty {}) = .ok base m' ∧ base = 0 ∧
      ∃ added : Array (Array RangeTransition),
        added.size = 3 ∧ m' = { empty {} with states := #[] ++ added } := by
  refine ⟨?_, ?_, ?_, ?_⟩
  · have hfails : (oneCharacter.compile {} {} tightMachine).1.isOk = false := by decide +kernel
    rcases h : oneCharacter.compile {} {} tightMachine with ⟨e | l, p', m'⟩
    · exact ⟨e, p', m', rfl, (load_atomic tightMachine {}).1 _ _ _ _ _ h⟩
    · rw [h] at hfails
      cases hfails
  · have hloads : (oneCharacter.compile {} {} (empty {})).1.isOk = true := by decide +kernel
    rcases h : oneCharacter.compile {} {} (empty {}) with ⟨e | l, p', m'⟩
    · rw [h] at hloads
      cases hloads
    · exact ⟨l, p', m', rfl, (load_atomic (empty {}) {}).2.1 _ _ _ _ _ h⟩
  · have hfails : CharSet.shortGraph.install {} tightMachine =
        .error (.machine (.statesExhausted 3 1)) tightMachine := by decide +kernel
    exact ⟨_, _, hfails, (load_atomic tightMachine {}).2.2.1 _ _ _ hfails⟩
  · have hloads : CharSet.shortGraph.install {} (empty {}) =
        .ok 0 { empty {} with states := block 0 CharSet.shortGraph.toGraph.states } := by decide +kernel
    have hsize : max 1 CharSet.shortGraph.toGraph.states.size = 3 := by decide +kernel
    have hadded := (load_atomic (empty {}) {}).2.2.2 _ _ _ hloads
    rw [hsize] at hadded
    exact ⟨_, _, hloads, hadded⟩

/-! ## Runs -/

/-- The program that a call loads, with relative addresses. -/
def Call.program? (m : Machine) : Call → Option Code
  | .install _ _ => none
  | .compile p options reported =>
    match (p.compile options reported m).1, p.build options reported with
    | .ok _, .ok c _ => some c.code
    | _, _ => none

/-- The programs that calls load, with relative addresses. -/
def loaded : Machine → List Call → List Code
  | _, [] => []
  | m, call :: calls => (call.program? m).toList ++ loaded (m.after call) calls

/-- Programs with absolute addresses, one after the other. -/
def image : Nat → List Code → Code
  | _, [] => []
  | base, code :: blocks => relocate base code ++ image (base + code.length) blocks

/-- The places of the programs. -/
def addresses : Nat → List Code → List Nat
  | _, [] => []
  | base, code :: blocks => base :: addresses (base + code.length) blocks

/-- The place of a program: the length of those before it. -/
def blockStart (blocks : List Code) (k : Nat) : Nat := ((blocks.take k).map List.length).sum

theorem blockStart_succ (k : Nat) :
    blockStart (code :: blocks) (k + 1) = code.length + blockStart blocks k := by
  simp [blockStart]

theorem getElem?_addresses {k : Nat} (h : blocks[k]? = some code) :
    (addresses base blocks)[k]? = some (base + blockStart blocks k) := by
  induction blocks generalizing base k with
  | nil => simp at h
  | cons first rest ih =>
    cases k with
    | zero => simp [addresses, blockStart]
    | succ k =>
      rw [addresses, List.getElem?_cons_succ, ih (by simpa using h), blockStart_succ, Nat.add_assoc]

theorem getElem?_image {k j : Nat} {i : Instruction} (h : blocks[k]? = some code)
    (hi : code[j]? = some i) : (image base blocks)[blockStart blocks k + j]? =
      some (i.relocateAt (base + blockStart blocks k + j)) := by
  induction blocks generalizing base k with
  | nil => simp at h
  | cons first rest ih =>
    have hlength := length_relocate base first
    cases k with
    | zero =>
      obtain rfl : first = code := by simpa using h
      have hj := (List.getElem?_eq_some_iff.1 hi).1
      rw [image, List.getElem?_append_left (by simpa [blockStart, hlength] using hj),
        getElem?_relocate]
      simp [blockStart, hi]
    | succ k =>
      rw [image, blockStart_succ, List.getElem?_append_right (by omega), hlength,
        show first.length + blockStart rest k + j - first.length = blockStart rest k + j by omega,
        ih (by simpa using h), Nat.add_assoc base]

/-- The last program ends where the image ends. -/
theorem le_length_image {k : Nat} (base : Nat) (h : blocks[k]? = some code) :
    blockStart blocks k + code.length ≤ (image base blocks).length := by
  induction blocks generalizing base k with
  | nil => simp at h
  | cons first rest ih =>
    rw [image, List.length_append, length_relocate]
    cases k with
    | zero =>
      obtain rfl : first = code := by simpa using h
      simp [blockStart]
    | succ k =>
      have := ih (base + first.length) (by simpa using h)
      rw [blockStart_succ]
      omega

theorem length_addresses (base : Nat) (blocks : List Code) :
    (addresses base blocks).length = blocks.length := by
  induction blocks generalizing base with
  | nil => rfl
  | cons code rest ih => rw [addresses, List.length_cons, List.length_cons, ih]

theorem image_append (base : Nat) (blocks more : List Code) : image base (blocks ++ more) =
    image base blocks ++ image (base + (image base blocks).length) more := by
  induction blocks generalizing base with
  | nil => rfl
  | cons code rest ih =>
    rw [List.cons_append, image, image, ih, List.length_append, length_relocate, Nat.add_assoc,
      List.append_assoc]

theorem addresses_append (base : Nat) (blocks more : List Code) : addresses base (blocks ++ more) =
    addresses base blocks ++ addresses (base + (image base blocks).length) more := by
  induction blocks generalizing base with
  | nil => rfl
  | cons code rest ih =>
    rw [List.cons_append, addresses, addresses, ih, image, List.length_append, length_relocate,
      Nat.add_assoc, List.cons_append]

/-- What has been added to the program area and to the entry points are programs one after the other. -/
structure Adds (m m' : Machine) (blocks : List Code) : Prop where
  program : m'.program = m.program ++ image m.programEnd blocks
  starts : m'.starts.toList.map (·.startAddress) =
    m.starts.toList.map (·.startAddress) ++ addresses m.programEnd blocks

theorem Adds.refl (m : Machine) : Adds m m [] := ⟨by simp [image], by simp [addresses]⟩

theorem Adds.trans {m'' : Machine} {more : List Code} (h : Adds m m' blocks)
    (h' : Adds m' m'' more) : Adds m m'' (blocks ++ more) := by
  have hend : m'.programEnd = m.programEnd + (image m.programEnd blocks).length := by
    rw [programEnd, h.program, List.length_append, programEnd]
  constructor
  · rw [h'.program, h.program, image_append, hend, List.append_assoc]
  · rw [h'.starts, h.starts, addresses_append, hend, List.append_assoc]

/-- A call adds its program, if it loads one. -/
theorem adds_after (m : Machine) (call : Call) : Adds m (m.after call) (call.program? m).toList := by
  cases call with
  | install c reported =>
    rw [after, Call.program?]
    cases h : c.install reported m with
    | error e m' =>
      obtain rfl := install_error h
      exact .refl _
    | ok base m' =>
      obtain ⟨-, -, rfl⟩ := install_ok h
      exact ⟨(Adds.refl m).program, (Adds.refl m).starts⟩
  | compile p options reported =>
    rw [after, Call.program?]
    rcases h : p.compile options reported m with ⟨e | l, p', m'⟩
    · obtain rfl := Pattern.compile_error h
      exact .refl _
    · obtain ⟨c, hbuild, -, rfl⟩ := Pattern.compile_ok h
      rw [hbuild]
      exact ⟨by simp [image], by simp [addresses, AssembledProgram.startAt]⟩

/-- A run adds the programs that its calls load, in their order. -/
theorem adds_run (calls : List Call) (m : Machine) : Adds m (m.run calls) (m.loaded calls) := by
  induction calls generalizing m with
  | nil => exact .refl m
  | cons call calls ih => exact (adds_after m call).trans (ih (m.after call))

theorem closed_of_program? {call : Call} (h : call.program? m = some code) : code.Closed := by
  cases call with
  | install c reported => cases h
  | compile p options reported =>
    rw [Call.program?] at h
    split at h
    · rename_i hbuild
      obtain rfl := Option.some.inj h
      exact Pattern.build_closed hbuild
    · cases h

theorem closed_of_mem_loaded {calls : List Call} (h : code ∈ m.loaded calls) : code.Closed := by
  induction calls generalizing m with
  | nil => cases h
  | cons call calls ih =>
    rw [loaded, List.mem_append, Option.mem_toList] at h
    rcases h with h | h
    · exact closed_of_program? h
    · exact ih h

/-- The program area holds programs one after the other, and nothing else. Each entry point has the place of
its program. A jump that was emitted with an offset holds its own place plus the offset, and that is a place
in the same program. All other instructions are as they were emitted. -/
structure HoldsPrograms (m : Machine) (blocks : List Code) : Prop where
  program : m.program = image 0 blocks
  size_starts : m.starts.size = blocks.length
  start : ∀ (k : Nat) (code : Code), blocks[k]? = some code →
    m.starts[k]?.map (·.startAddress) = some (blockStart blocks k)
  jump : ∀ (k : Nat) (code : Code) (j a : Nat) (i : Instruction), blocks[k]? = some code →
    code[j]? = some i → a = blockStart blocks k + j → i.isRelative = true →
      m.program[a]? = some { i with address := a + i.address } ∧
        (blockStart blocks k : Int) ≤ a + i.address ∧
        (a : Int) + i.address < blockStart blocks k + code.length
  other : ∀ (k : Nat) (code : Code) (j a : Nat) (i : Instruction), blocks[k]? = some code →
    code[j]? = some i → a = blockStart blocks k + j → i.isRelative = false →
      m.program[a]? = some i

/-- Whatever calls load something into a machine that was empty at first, and whichever of them fail, its
program area holds the programs of those that succeed, and no program can jump into another one. -/
theorem holdsPrograms_run (limits : Limits) (calls : List Call)
    (hsize : ((empty limits).run calls).program.length < 2 ^ 31) :
    ((empty limits).run calls).HoldsPrograms ((empty limits).loaded calls) := by
  have hadds := adds_run calls (empty limits)
  have hprogram : ((empty limits).run calls).program = image 0 ((empty limits).loaded calls) :=
    hadds.program
  have hstarts : ((empty limits).run calls).starts.toList.map (·.startAddress) =
      addresses 0 ((empty limits).loaded calls) := hadds.starts
  have hat : ∀ {k j : Nat} {code : Code} {i : Instruction},
      ((empty limits).loaded calls)[k]? = some code → code[j]? = some i →
      ((empty limits).run calls).program[blockStart ((empty limits).loaded calls) k + j]? =
        some (i.relocateAt (blockStart ((empty limits).loaded calls) k + j)) := by
    intro k j code i hk hi
    rw [hprogram, getElem?_image hk hi, Nat.zero_add]
  refine ⟨hprogram, ?_, fun k code hk => ?_, fun k code j a i hk hi ha hjump => ?_,
    fun k code j a i hk hi ha hplain => ?_⟩
  · have hlength := congrArg List.length hstarts
    rwa [List.length_map, Array.length_toList, length_addresses] at hlength
  · have hstart := congrArg (·[k]?) hstarts
    simp only [List.getElem?_map, getElem?_addresses hk, Nat.zero_add] at hstart
    rw [← Array.getElem?_toList]
    exact hstart
  · have hfits := le_length_image 0 hk
    rw [← hprogram] at hfits
    obtain ⟨heq, hlow, hhigh⟩ := (closed_of_mem_loaded (List.mem_of_getElem? hk)).relocateAt hi hjump
      (Nat.lt_of_le_of_lt hfits hsize)
    rw [ha, hat hk hi, heq]
    exact ⟨rfl, hlow, hhigh⟩
  · rw [ha, hat hk hi, Instruction.relocateAt, if_neg (by simp [hplain])]

/-- Two programs, with a set and two failures between them and around them. -/
def mixedCalls : List Call :=
  [ .compile { nodes := #[] } {} {}, .compile oneCharacter {} {}, .install CharSet.shortTree {},
    .compile oneCharacter {} { maxBytecode := 7 }, .compile oneCharacter {} {} ]

theorem holdsPrograms_run_mixedCalls :
    ((empty {}).run mixedCalls).program.length < 2 ^ 31 ∧
      (empty {}).loaded mixedCalls = [oneCharacterCode, oneCharacterCode] ∧
      ((empty {}).run mixedCalls).HoldsPrograms [oneCharacterCode, oneCharacterCode] := by
  have hsize : ((empty {}).run mixedCalls).program.length = 8 := by decide +kernel
  have hloaded : (empty {}).loaded mixedCalls = [oneCharacterCode, oneCharacterCode] := by
    decide +kernel
  have hsmall : ((empty {}).run mixedCalls).program.length < 2 ^ 31 := by omega
  have hholds := holdsPrograms_run {} mixedCalls hsmall
  rw [hloaded] at hholds
  exact ⟨hsmall, hloaded, hholds⟩

end Machine
end ByteMatch
