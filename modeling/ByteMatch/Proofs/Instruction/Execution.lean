import ByteMatch.Instruction
import ByteMatch.Proofs.Language

/-!
# ByteMatch.Proofs.Instruction.Execution

What programs with relative addresses accept.

A thread has a place in the program, the characters that it has still to read, and counters of its
own. An instruction makes a thread go on, jump, start another thread or end. The instructions for
assertions, lookaheads and scans have no meaning here, and a thread that comes to one of them ends.

* `Operation`: what an opcode stands for.
* `Thread.next`: the threads that a thread becomes.
* `Reports`: a thread, or one that it starts, comes to report a match with some characters left.
* `Code.accepted`: the strings with which a thread at some place comes to report a match. The
  operations are described by what they do with these languages: `Code.accepted_consume`,
  `Code.accepted_fork` and so on.
-/

namespace ByteMatch

variable {α : Type}

/-- What an opcode stands for, in programs without assertions and lookaheads. -/
inductive Operation where
  /-- A test of the next character. -/
  | character (zeroWidth branch : Bool)
  | jump
  /-- Goes on. -/
  | skip
  /-- Decrements a counter, and jumps if it is not zero. -/
  | countDown
  | setCount
  | fork
  | report
  | unknown
deriving DecidableEq

open Instruction in
/-- The operation of an opcode. Guards always hold, and marks make no difference. -/
def Opcode.operation (op : UInt8) : Operation :=
  if hasBits op character then
    if hasBits op (previous ||| continued) then .unknown
    else .character (hasBits op zeroWidth) (hasBits op branch)
  else if op = test ∨ op = test ||| guard then .jump
  else if op = test ||| negate ∨ op = test ||| negate ||| guard then .skip
  else if op = test ||| negate ||| count then .countDown
  else if op = setContext ∨ op = setMark ∨ op = markStart ∨ op = markEnd then .skip
  else if op = setCount then .setCount
  else if op = newThread then .fork
  else if op = report then .report
  else .unknown

/-- A thread of the machine that matches characters of type `α`. -/
structure Thread (α : Type) where
  pc : Nat
  rest : List α
  counters : Int → Int

namespace Thread

/-- The thread at another place, given by its distance. -/
def goto (t : Thread α) (offset : Int) : List (Thread α) :=
  if 0 ≤ t.pc + offset then [{ t with pc := (t.pc + offset).toNat }] else []

/-- The thread at the next instruction, unless the instruction ends it. -/
def goOn (t : Thread α) (halt : Bool) : List (Thread α) :=
  if halt then [] else [{ t with pc := t.pc + 1 }]

/-- The thread with another value of a counter. -/
def setCounter (t : Thread α) (counter value : Int) : Thread α :=
  { t with counters := Function.update t.counters counter value }

/-- The threads that a thread becomes at an instruction. The characters of the class at some address
are given by `cls`. A failed test ends the thread, or goes on further ahead. -/
def next (cls : Int → α → Bool) (i : Instruction) (t : Thread α) : List (Thread α) :=
  match Opcode.operation i.opcode with
  | .character zeroWidth branch =>
    if t.rest.head?.any (cls i.address) then
      { t with rest := if zeroWidth then t.rest else t.rest.tail }.goOn i.halt
    else if branch then t.goto (1 + i.index) else []
  | .jump => t.goto i.address
  | .skip => t.goOn i.halt
  | .countDown =>
    let counted := t.setCounter i.index (t.counters i.index - 1)
    if counted.counters i.index = 0 then counted.goOn i.halt else counted.goto i.address
  | .setCount => (t.setCounter i.index i.address).goOn i.halt
  | .fork => t.goto i.address ++ t.goOn i.halt
  | .report | .unknown => []

theorem goto_place {pc target : Nat} {w : List α} {σ : Int → Int} :
    goto ⟨pc, w, σ⟩ ((target : Int) - pc) = [⟨target, w, σ⟩] := by
  have heq : (pc : Int) + ((target : Int) - pc) = target := by omega
  simp [goto, heq]

theorem goto_ahead {pc count : Nat} {w : List α} {σ : Int → Int} :
    goto ⟨pc, w, σ⟩ (1 + count) = [⟨pc + 1 + count, w, σ⟩] := by
  have hpos : (0 : Int) ≤ pc + (1 + count) := by omega
  have heq : ((pc : Int) + (1 + count)).toNat = pc + 1 + count := by omega
  simp [goto, hpos, heq]

end Thread

/-- The thread, or one that it starts, reports a match when `rest` is left. -/
inductive Reports (cls : Int → α → Bool) (code : Code) (rest : List α) : Thread α → Prop where
  | report {t : Thread α} {i : Instruction} (h : code[t.pc]? = some i)
      (hop : Opcode.operation i.opcode = .report) (hrest : t.rest = rest) :
      Reports cls code rest t
  | step {t t' : Thread α} {i : Instruction} (h : code[t.pc]? = some i) (ht : t' ∈ t.next cls i)
      (hreports : Reports cls code rest t') : Reports cls code rest t

namespace Code

variable {cls : Int → α → Bool} {code : Code} {rest : List α} {pc target : Nat} {σ : Int → Int}
  {i : Instruction} {op : UInt8} {index address root : Int} {halt zeroWidth branch : Bool}
  {w : List α}

/-- The strings with which a thread at `pc` comes to report a match when `rest` is left. -/
def accepted (cls : Int → α → Bool) (code : Code) (rest : List α) (pc : Nat) (σ : Int → Int) :
    Language α :=
  {w | Reports cls code rest ⟨pc, w, σ⟩}

theorem mem_accepted :
    w ∈ accepted cls code rest pc σ ↔ Reports cls code rest ⟨pc, w, σ⟩ := Iff.rfl

/-- Unless it reports a match, a thread accepts what the threads do that it becomes. -/
theorem mem_accepted_iff (h : code[pc]? = some i) (hop : Opcode.operation i.opcode ≠ .report) :
    w ∈ accepted cls code rest pc σ ↔
      ∃ t ∈ Thread.next cls i ⟨pc, w, σ⟩, t.rest ∈ accepted cls code rest t.pc t.counters := by
  constructor
  · intro hw
    cases hw with
    | report hi hop' _ =>
      rw [Option.some.inj (h.symm.trans hi)] at hop
      exact absurd hop' hop
    | step hi ht hreports =>
      rw [Option.some.inj (h.symm.trans hi)]
      exact ⟨_, ht, hreports⟩
  · rintro ⟨t, ht, hreports⟩
    exact Reports.step h ht hreports

/-! ## Operations -/

theorem accepted_report (h : code[pc]? = some ⟨op, index, address, halt⟩)
    (hop : Opcode.operation op = .report) : accepted cls code rest pc σ = {rest} := by
  refine Language.ext fun w => ?_
  rw [mem_accepted]
  constructor
  · intro hw
    cases hw with
    | report _ _ hrest => exact hrest
    | step hi ht _ =>
      rw [← Option.some.inj (h.symm.trans hi), Thread.next, hop] at ht
      cases ht
  · rintro rfl
    exact .report h hop rfl

theorem accepted_skip (h : code[pc]? = some ⟨op, index, address, false⟩)
    (hop : Opcode.operation op = .skip) :
    accepted cls code rest pc σ = accepted cls code rest (pc + 1) σ := by
  refine Language.ext fun w => ?_
  rw [mem_accepted_iff h (by simp [hop]), Thread.next, hop]
  simp [Thread.goOn]

theorem accepted_stop (h : code[pc]? = some ⟨op, index, address, true⟩)
    (hop : Opcode.operation op = .skip) : accepted cls code rest pc σ = 0 := by
  refine Language.ext fun w => ?_
  rw [mem_accepted_iff h (by simp [hop]), Thread.next, hop]
  simp [Thread.goOn]

theorem accepted_jump (h : code[pc]? = some ⟨op, index, (target : Int) - pc, halt⟩)
    (hop : Opcode.operation op = .jump) :
    accepted cls code rest pc σ = accepted cls code rest target σ := by
  refine Language.ext fun w => ?_
  rw [mem_accepted_iff h (by simp [hop]), Thread.next, hop]
  simp [Thread.goto_place]

theorem accepted_fork (h : code[pc]? = some ⟨op, index, (target : Int) - pc, false⟩)
    (hop : Opcode.operation op = .fork) : accepted cls code rest pc σ =
      accepted cls code rest target σ + accepted cls code rest (pc + 1) σ := by
  refine Language.ext fun w => ?_
  rw [mem_accepted_iff h (by simp [hop]), Thread.next, hop, Language.mem_add]
  simp [Thread.goto_place, Thread.goOn]

/-- A fork that ends the thread is a jump. -/
theorem accepted_leave (h : code[pc]? = some ⟨op, index, (target : Int) - pc, true⟩)
    (hop : Opcode.operation op = .fork) :
    accepted cls code rest pc σ = accepted cls code rest target σ := by
  refine Language.ext fun w => ?_
  rw [mem_accepted_iff h (by simp [hop]), Thread.next, hop]
  simp [Thread.goto_place, Thread.goOn]

theorem accepted_setCount (h : code[pc]? = some ⟨op, index, address, false⟩)
    (hop : Opcode.operation op = .setCount) : accepted cls code rest pc σ =
      accepted cls code rest (pc + 1) (Function.update σ index address) := by
  refine Language.ext fun w => ?_
  rw [mem_accepted_iff h (by simp [hop]), Thread.next, hop]
  simp [Thread.goOn, Thread.setCounter]

theorem accepted_countDown (h : code[pc]? = some ⟨op, index, (target : Int) - pc, false⟩)
    (hop : Opcode.operation op = .countDown) : accepted cls code rest pc σ =
      accepted cls code rest (if σ index - 1 = 0 then pc + 1 else target)
        (Function.update σ index (σ index - 1)) := by
  refine Language.ext fun w => ?_
  rw [mem_accepted_iff h (by simp [hop]), Thread.next, hop]
  simp only [Thread.setCounter, Function.update_self]
  split <;> simp [Thread.goOn, Thread.goto_place]

theorem accepted_consume (h : code[pc]? = some ⟨op, index, root, false⟩)
    (hop : Opcode.operation op = .character false false) : accepted cls code rest pc σ =
      classLanguage cls root * accepted cls code rest (pc + 1) σ := by
  refine Language.ext fun w => ?_
  rw [mem_accepted_iff h (by simp [hop]), Thread.next, hop, Language.mem_mul]
  cases w with
  | nil =>
    simp only [List.head?_nil, Option.any_none, Bool.false_eq_true, if_false, List.not_mem_nil,
      false_and, exists_false, false_iff]
    rintro ⟨_, ⟨x, -, rfl⟩, v, -, heq⟩
    cases heq
  | cons x w =>
    simp only [List.head?_cons, Option.any_some, List.tail_cons, Bool.false_eq_true, if_false,
      Thread.goOn]
    constructor
    · rintro ⟨t, ht, hrest⟩
      split at ht
      · rename_i hx
        obtain rfl := List.mem_singleton.1 ht
        exact ⟨[x], ⟨x, hx, rfl⟩, w, hrest, rfl⟩
      · cases ht
    · rintro ⟨_, ⟨y, hy, rfl⟩, v, hv, heq⟩
      obtain ⟨rfl, rfl⟩ := List.cons.inj heq
      exact ⟨_, by rw [if_pos hy]; exact List.mem_singleton_self _, hv⟩

/-- The next character is looked at, and a failed test goes on further ahead. -/
theorem mem_accepted_lookahead {count : Nat} (h : code[pc]? = some ⟨op, count, root, false⟩)
    (hop : Opcode.operation op = .character true true) : w ∈ accepted cls code rest pc σ ↔
      w ∈ accepted cls code rest
        (if w.head?.any (cls root) then pc + 1 else pc + 1 + count) σ := by
  rw [mem_accepted_iff h (by simp [hop]), Thread.next, hop]
  simp only [if_true]
  split <;> simp [Thread.goOn, Thread.goto_ahead]

end Code
end ByteMatch
