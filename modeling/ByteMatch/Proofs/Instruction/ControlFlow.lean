import ByteMatch.Instruction.Template

/-!
# ByteMatch.Proofs.Instruction.ControlFlow

Where control can go in a program with relative addresses.

A fragment is a part of a program, and its jumps may leave it. So a bound for the places that they lead to
is stated for a fragment, and the bounds of the parts of a program give that of the whole.

* `Instruction.jumps`: the places that an instruction jumps to.
* `Code.Leads`: all jumps of a fragment lead to places up to a limit.
* `Template.jumpsInside`: templates whose own jumps do not leave their instances, which can be checked
  without the arguments.
* `Code.Closed`: programs that control does not leave. `Code.Closed.of_visits` says so for all that a
  thread can do.
-/

namespace ByteMatch

namespace Opcode

/-- Whether the address of the instruction is a place in the program. -/
def isJump (op : UInt8) : Bool := op == newThread || Instruction.hasBits op test

/-- Whether the instruction is a character test that goes on further ahead if it fails. -/
def isBranch (op : UInt8) : Bool := Instruction.hasBits op character && Instruction.hasBits op branch

end Opcode

namespace Instruction

variable {op : UInt8} {index address : Int} {halt : Bool} {pc : Nat} {i : Instruction}

/-- The places that an instruction at `pc` jumps to. -/
def jumps (i : Instruction) (pc : Nat) : List Int :=
  (if Opcode.isJump i.opcode then [pc + i.address] else []) ++
    (if Opcode.isBranch i.opcode then [pc + 1 + i.index] else [])

/-- The places that control can go to from an instruction at `pc`. -/
def successors (i : Instruction) (pc : Nat) : List Int :=
  i.jumps pc ++ (if i.halt then [] else [(pc : Int) + 1])

theorem jumps_plain (hjump : Opcode.isJump op = false) (hbranch : Opcode.isBranch op = false) :
    jumps ⟨op, index, address, halt⟩ pc = [] := by
  simp [jumps, hjump, hbranch]

theorem jumps_jump (hjump : Opcode.isJump op = true) (hbranch : Opcode.isBranch op = false) :
    jumps ⟨op, index, address, halt⟩ pc = [pc + address] := by
  simp [jumps, hjump, hbranch]

theorem jumps_branch (hjump : Opcode.isJump op = false) (hbranch : Opcode.isBranch op = true) :
    jumps ⟨op, index, address, halt⟩ pc = [pc + 1 + index] := by
  simp [jumps, hjump, hbranch]

end Instruction

namespace Code

variable {code more : Code} {place limit limit' pc : Nat} {i : Instruction} {t : Int}

/-- All jumps of a fragment that stands at `place` lead to places up to `limit`. -/
def Leads : Code → Nat → Nat → Prop
  | [], _, _ => True
  | i :: rest, place, limit => (∀ t ∈ i.jumps place, 0 ≤ t ∧ t ≤ limit) ∧ Leads rest (place + 1) limit

theorem leads_nil : Leads [] place limit := trivial

theorem leads_cons : Leads (i :: code) place limit ↔
    (∀ t ∈ i.jumps place, 0 ≤ t ∧ t ≤ limit) ∧ Leads code (place + 1) limit := Iff.rfl

theorem leads_append : Leads (code ++ more) place limit ↔
    Leads code place limit ∧ Leads more (place + code.length) limit := by
  induction code generalizing place with
  | nil => simp [Leads]
  | cons i rest ih =>
    have hplace : place + 1 + rest.length = place + (i :: rest).length := by
      rw [List.length_cons]
      omega
    rw [List.cons_append, leads_cons, leads_cons, ih, hplace, and_assoc]

theorem Leads.mono (h : Leads code place limit) (hle : limit ≤ limit') :
    Leads code place limit' := by
  induction code generalizing place with
  | nil => trivial
  | cons i rest ih =>
    refine ⟨fun t ht => ?_, ih h.2⟩
    have := h.1 t ht
    omega

theorem Leads.of_getElem? (h : Leads code place limit) (hi : code[pc]? = some i)
    (ht : t ∈ i.jumps (place + pc)) : 0 ≤ t ∧ t ≤ limit := by
  induction code generalizing place pc with
  | nil => simp at hi
  | cons j rest ih =>
    cases pc with
    | zero =>
      obtain rfl : j = i := by simpa using hi
      exact h.1 t ht
    | succ pc =>
      refine ih h.2 (by simpa using hi) ?_
      rwa [Nat.add_assoc, Nat.add_comm 1 pc]

theorem leads_of_getElem?
    (h : ∀ (pc : Nat) i, code[pc]? = some i → ∀ t ∈ i.jumps (place + pc), 0 ≤ t ∧ t ≤ limit) :
    Leads code place limit := by
  induction code generalizing place with
  | nil => trivial
  | cons i rest ih =>
    refine ⟨h 0 i rfl, ih fun pc j hj => ?_⟩
    rw [Nat.add_assoc, Nat.add_comm 1]
    exact h (pc + 1) j hj

section Single

variable {op : UInt8} {index address : Int} {halt : Bool}

theorem leads_plain (hjump : Opcode.isJump op = false) (hbranch : Opcode.isBranch op = false) :
    Leads (⟨op, index, address, halt⟩ :: code) place limit ↔ Leads code (place + 1) limit := by
  rw [leads_cons, Instruction.jumps_plain hjump hbranch]
  simp

theorem leads_jump (hjump : Opcode.isJump op = true) (hbranch : Opcode.isBranch op = false) :
    Leads (⟨op, index, address, halt⟩ :: code) place limit ↔
      (0 ≤ place + address ∧ place + address ≤ limit) ∧ Leads code (place + 1) limit := by
  rw [leads_cons, Instruction.jumps_jump hjump hbranch]
  simp

theorem leads_branch (hjump : Opcode.isJump op = false) (hbranch : Opcode.isBranch op = true) :
    Leads (⟨op, index, address, halt⟩ :: code) place limit ↔
      (0 ≤ place + 1 + index ∧ place + 1 + index ≤ limit) ∧ Leads code (place + 1) limit := by
  rw [leads_cons, Instruction.jumps_branch hjump hbranch]
  simp

end Single

/-! ## Programs -/

/-- A program that control does not leave: all its instructions are known, their jumps lead to places
of the program, and the last one ends the thread with a report. -/
structure Closed (code : Code) : Prop where
  resolved : ∀ i ∈ code, i.opcode ≠ Opcode.null
  jump : ∀ (pc : Nat) i, code[pc]? = some i → i.isRelative = true →
    0 ≤ pc + i.address ∧ pc + i.address < code.length
  branch : ∀ (pc : Nat) i, code[pc]? = some i → Opcode.isBranch i.opcode = true →
    0 ≤ pc + 1 + i.index ∧ pc + 1 + i.index < code.length
  last : code.getLast? = some ⟨Opcode.report, 0, 0, true⟩

/-- The places that control can come to from the first instruction. -/
inductive Visits (code : Code) : Int → Prop
  | start : Visits code 0
  | step {pc : Nat} {i : Instruction} {t : Int} (h : Visits code pc) (hi : code[pc]? = some i)
      (ht : t ∈ i.successors pc) : Visits code t

namespace Closed

/-- From each instruction control goes to another one. -/
theorem successors (h : Closed code) (hi : code[pc]? = some i) (ht : t ∈ i.successors pc) :
    0 ≤ t ∧ t < code.length := by
  rw [Instruction.successors, Instruction.jumps, List.mem_append, List.mem_append] at ht
  rcases ht with (ht | ht) | ht
  · split at ht
    · rename_i hjump
      obtain rfl := List.mem_singleton.1 ht
      exact h.jump pc i hi hjump
    · cases ht
  · split at ht
    · rename_i hbranch
      obtain rfl := List.mem_singleton.1 ht
      exact h.branch pc i hi hbranch
    · cases ht
  · split at ht
    · cases ht
    · rename_i hgoes
      obtain rfl := List.mem_singleton.1 ht
      -- the last instruction ends the thread, so that this is another one
      have hlt := (List.getElem?_eq_some_iff.1 hi).1
      have hne : pc ≠ code.length - 1 := by
        intro heq
        have hlast := h.last
        rw [List.getLast?_eq_getElem?, ← heq, hi] at hlast
        cases hlast
        exact hgoes rfl
      omega

/-- All places that control comes to are places of the program. -/
theorem of_visits (h : Closed code) (ht : Visits code t) : 0 ≤ t ∧ t < code.length := by
  cases ht with
  | start =>
    have hne : code ≠ [] := by
      rintro rfl
      cases h.last
    have := List.length_pos_iff.2 hne
    omega
  | step _ hi ht => exact h.successors hi ht

end Closed

/-- A program is closed if its jumps lead to places before its end, and a report ends it. -/
theorem closed_of_leads (hresolved : ∀ i ∈ code ++ [⟨Opcode.report, 0, 0, true⟩], i.opcode ≠ Opcode.null)
    (h : Leads code 0 code.length) : Closed (code ++ [⟨Opcode.report, 0, 0, true⟩]) := by
  have hall : Leads (code ++ [⟨Opcode.report, 0, 0, true⟩]) 0 code.length :=
    leads_append.2 ⟨h, (leads_plain (by decide) (by decide)).2 leads_nil⟩
  have hlength : (code ++ [(⟨Opcode.report, 0, 0, true⟩ : Instruction)]).length = code.length + 1 := by
    simp
  refine ⟨hresolved, fun pc i hi hjump => ?_, fun pc i hi hbranch => ?_, by simp⟩
  · have := hall.of_getElem? (t := pc + i.address) hi (by
      have hjump' : Opcode.isJump i.opcode = true := hjump
      simp [Instruction.jumps, hjump'])
    omega
  · have := hall.of_getElem? (t := pc + 1 + i.index) hi (by simp [Instruction.jumps, hbranch])
    omega

end Code

/-! ## Templates -/

namespace Operand

/-- Whether an operand is fixed, and between two bounds. -/
def fixedIn (low high : Int) : Operand → Bool
  | .fixed value => low ≤ value && value ≤ high
  | .argument => false

end Operand

namespace Template

variable {t : Template} {before : Nat}

/-- Whether all jumps of the rest of a template, of which `before` instructions precede, lead to places
from its start to the end. -/
def jumpsInside : Nat → Template → Bool
  | _, [] => true
  | before, i :: rest =>
    (!Opcode.isJump i.opcode || i.address.fixedIn (-before) (rest.length + 1)) &&
      (!Opcode.isBranch i.opcode || i.index.fixedIn (-before - 1) rest.length) &&
      jumpsInside (before + 1) rest

theorem length_fill (t : Template) (args : List Int) : (t.fill args).length = t.length := by
  induction t generalizing args with
  | nil => rfl
  | cons i rest ih => rw [fill, List.length_cons, List.length_cons, ih]

theorem fixedIn_fillOperand {o : Operand} {low high : Int} (h : o.fixedIn low high = true)
    (args : List Int) :
    low ≤ (fillOperand o args).1 ∧ (fillOperand o args).1 ≤ high := by
  cases o with
  | fixed value => simpa [Operand.fixedIn, fillOperand] using h
  | argument => cases h

/-- The jumps of an instance lead to places from its start to its end. -/
theorem mem_jumps_fill (h : jumpsInside before t = true) (args : List Int) (place : Nat) {pc : Nat}
    {i : Instruction} {target : Int} (hi : (t.fill args)[pc]? = some i)
    (ht : target ∈ i.jumps (place + before + pc)) :
    place ≤ target ∧ target ≤ place + before + t.length := by
  induction t generalizing before args pc with
  | nil => simp [fill] at hi
  | cons j rest ih =>
    simp only [jumpsInside, Bool.and_eq_true, Bool.or_eq_true, Bool.not_eq_true'] at h
    obtain ⟨⟨hjump, hbranch⟩, hrest⟩ := h
    rw [fill] at hi
    rw [List.length_cons]
    cases pc with
    | zero =>
      rw [List.getElem?_cons_zero, Option.some.injEq] at hi
      rw [← hi, Instruction.jumps, List.mem_append] at ht
      cases ht with
      | inl ht =>
        split at ht
        · rename_i hop
          have := fixedIn_fillOperand (hjump.resolve_left (by simpa using hop))
            (fillOperand j.index args).2
          obtain rfl := List.mem_singleton.1 ht
          simp only
          omega
        · cases ht
      | inr ht =>
        split at ht
        · rename_i hop
          have := fixedIn_fillOperand (hbranch.resolve_left (by simpa using hop)) args
          obtain rfl := List.mem_singleton.1 ht
          simp only
          omega
        · cases ht
    | succ pc =>
      have := ih hrest _ hi (by rwa [show place + (before + 1) + pc = place + before + (pc + 1) by omega])
      omega

end Template
end ByteMatch
