import ByteMatch.Proofs.Instruction.Fragment

/-!
# ByteMatch.Proofs.Instruction.Outcome

How a thread leaves a part of a program.

A thread that comes to no fork has at most one outcome: it leaves the part at some place, or it ends
inside. If the part tests for characters of one class only, the outcome depends on the number of these
characters that come next.

* `Code.Runs`: a thread has an outcome. `Code.Runs.unique`: and it has no other one.
* `Code.Comes`: a thread becomes another one, so that both have the same outcome.
* `Code.Consumes`: a fragment consumes characters of a class as long as there are some, with bounds for
  their number.
* `Code.Consumes.append`: a fragment that consumes a fixed number of characters, and another one.
-/

namespace ByteMatch

variable {α : Type} {cls : Int → α → Bool}

/-! ## Characters of a class -/

/-- The number of characters of a class that a string starts with. -/
def runLength (cls : Int → α → Bool) (root : Int) (w : List α) : Nat := (w.takeWhile (cls root)).length

section RunLength

variable {root : Int} {w : List α} {k : Nat}

theorem head?_any_iff : w.head?.any (cls root) = true ↔ 0 < runLength cls root w := by
  cases w with
  | nil => simp [runLength]
  | cons x w => by_cases hx : cls root x = true <;> simp [runLength, hx]

theorem runLength_drop (h : k ≤ runLength cls root w) :
    runLength cls root (w.drop k) = runLength cls root w - k := by
  induction k generalizing w with
  | zero => simp
  | succ k ih =>
    cases w with
    | nil => simp [runLength]
    | cons x w =>
      by_cases hx : cls root x = true
      · simp only [runLength, List.takeWhile_cons, hx, if_true, List.length_cons] at h ⊢
        rw [List.drop_succ_cons, Nat.add_sub_add_right]
        exact ih (Nat.le_of_succ_le_succ h)
      · simp [runLength, hx] at h

end RunLength

/-! ## What a thread becomes -/

namespace Thread

variable {op : UInt8} {index address root : Int} {pc target : Nat} {w : List α} {σ : Int → Int}

theorem next_consume (hop : Opcode.operation op = .character false false) :
    next cls ⟨op, index, root, false⟩ ⟨pc, w, σ⟩ =
      if 0 < runLength cls root w then [⟨pc + 1, w.drop 1, σ⟩] else [] := by
  simp [next, hop, head?_any_iff, goOn]

theorem next_branch (hop : Opcode.operation op = .character false true) :
    next cls ⟨op, (target : Int) - (pc + 1), root, false⟩ ⟨pc, w, σ⟩ =
      if 0 < runLength cls root w then [⟨pc + 1, w.drop 1, σ⟩] else [⟨target, w, σ⟩] := by
  have hoffset : 1 + ((target : Int) - (pc + 1)) = target - pc := by omega
  simp [next, hop, head?_any_iff, goOn, hoffset, goto_place]

theorem next_setCount (hop : Opcode.operation op = .setCount) :
    next cls ⟨op, index, address, false⟩ ⟨pc, w, σ⟩ =
      [⟨pc + 1, w, Function.update σ index address⟩] := by
  simp [next, hop, goOn, setCounter]

theorem next_countDown (hop : Opcode.operation op = .countDown) :
    next cls ⟨op, index, (target : Int) - pc, false⟩ ⟨pc, w, σ⟩ =
      [⟨if σ index - 1 = 0 then pc + 1 else target, w, Function.update σ index (σ index - 1)⟩] := by
  simp only [next, hop, setCounter, Function.update_self]
  split <;> simp [goOn, goto_place]

theorem next_jump (hop : Opcode.operation op = .jump) {halt : Bool} :
    next cls ⟨op, index, (target : Int) - pc, halt⟩ ⟨pc, w, σ⟩ = [⟨target, w, σ⟩] := by
  simp [next, hop, goto_place]

end Thread

namespace Code

/-! ## Outcomes -/

/-- A thread runs in the part of a program from `low` up to `high`, and it never becomes several
threads. The outcome is the thread that leaves the part, or none if the thread ends inside. -/
inductive Runs (cls : Int → α → Bool) (program : Code) (low high : Nat) :
    Thread α → Option (Thread α) → Prop
  | leave {t : Thread α} (h : t.pc < low ∨ high ≤ t.pc) : Runs cls program low high t (some t)
  | stop {t : Thread α} {i : Instruction} (hlow : low ≤ t.pc) (hhigh : t.pc < high)
      (hi : program[t.pc]? = some i)
      (hop : Opcode.operation i.opcode ≠ .report ∧ Opcode.operation i.opcode ≠ .unknown)
      (hnext : t.next cls i = []) : Runs cls program low high t none
  | step {t t' : Thread α} {i : Instruction} {outcome : Option (Thread α)} (hlow : low ≤ t.pc)
      (hhigh : t.pc < high) (hi : program[t.pc]? = some i) (hnext : t.next cls i = [t'])
      (h : Runs cls program low high t' outcome) : Runs cls program low high t outcome

variable {program code more : Code} {low high : Nat} {t t' t'' : Thread α}
  {outcome outcome' : Option (Thread α)}

/-- A thread has at most one outcome. -/
theorem Runs.unique (h : Runs cls program low high t outcome)
    (h' : Runs cls program low high t outcome') : outcome = outcome' := by
  induction h with
  | leave hout =>
    cases h' with
    | leave => rfl
    | stop hlow hhigh => omega
    | step hlow hhigh => omega
  | stop hlow hhigh hi _ hnext =>
    cases h' with
    | leave hout => omega
    | stop => rfl
    | step _ _ hi' hnext' =>
      rw [← Option.some.inj (hi.symm.trans hi'), hnext] at hnext'
      cases hnext'
  | step hlow hhigh hi hnext _ ih =>
    cases h' with
    | leave hout => omega
    | stop _ _ hi' _ hnext' =>
      rw [← Option.some.inj (hi.symm.trans hi'), hnext] at hnext'
      cases hnext'
    | step _ _ hi' hnext' hruns =>
      rw [← Option.some.inj (hi.symm.trans hi'), hnext] at hnext'
      cases hnext'
      exact ih hruns

/-- A thread becomes another one in a part of a program, so that it has the same outcome. -/
def Comes (cls : Int → α → Bool) (program : Code) (low high : Nat) (t t' : Thread α) : Prop :=
  ∀ outcome, Runs cls program low high t' outcome → Runs cls program low high t outcome

namespace Comes

theorem refl : Comes cls program low high t t := fun _ h => h

theorem trans (h : Comes cls program low high t t') (h' : Comes cls program low high t' t'') :
    Comes cls program low high t t'' := fun outcome hruns => h outcome (h' outcome hruns)

theorem step {i : Instruction} (hlow : low ≤ t.pc) (hhigh : t.pc < high)
    (hi : program[t.pc]? = some i) (hnext : t.next cls i = [t']) :
    Comes cls program low high t t' := fun _ hruns => .step hlow hhigh hi hnext hruns

end Comes

/-! ## Fragments that consume characters of a class -/

/-- A thread that enters the fragment ends if fewer than `n` characters of the class come next. Otherwise
it consumes all of them, or the first `m`, and leaves the fragment at its end. Counters from `counter` on
may change. -/
def Consumes (cls : Int → α → Bool) (root : Int) (n m : Nat) (code : Code) (place counter : Nat) :
    Prop :=
  ∀ program low high, Holds program place code → low ≤ place → place + code.length ≤ high → ∀ w σ,
    (runLength cls root w < n → Runs cls program low high ⟨place, w, σ⟩ none) ∧
    (n ≤ runLength cls root w → ∃ σ', SameBelow counter σ σ' ∧
      Comes cls program low high ⟨place, w, σ⟩
        ⟨place + code.length, w.drop (min (runLength cls root w) m), σ'⟩)

section Parts

variable {op : UInt8} {index root : Int} {place counter n a b : Nat}

theorem Consumes.nil : Consumes cls root 0 0 [] place counter := by
  intro program low high _ _ _ w σ
  refine ⟨fun h => absurd h (Nat.not_lt_zero _), fun _ => ⟨σ, .refl, ?_⟩⟩
  simpa using Comes.refl

/-- A jump to the next instruction. -/
theorem Consumes.jump (hop : Opcode.operation op = .jump) :
    Consumes cls root 0 0 [⟨op, index, 1, true⟩] place counter := by
  intro program low high hholds hlow hhigh w σ
  refine ⟨fun h => absurd h (Nat.not_lt_zero _), fun _ => ⟨σ, .refl, ?_⟩⟩
  have hi := (holds_cons.1 hholds).1
  rw [show (1 : Int) = ((place + 1 : Nat) : Int) - place by omega] at hi
  simpa using Comes.step (t := ⟨place, w, σ⟩) hlow hhigh hi (Thread.next_jump hop)

theorem Consumes.single (hop : Opcode.operation op = .character false false) :
    Consumes cls root 1 1 [⟨op, index, root, false⟩] place counter := by
  intro program low high hholds hlow hhigh w σ
  have hi := (holds_cons.1 hholds).1
  constructor
  · intro h
    refine .stop hlow hhigh hi (by simp [hop]) ?_
    rw [Thread.next_consume hop, if_neg (by omega)]
  · intro h
    refine ⟨σ, .refl, .step hlow hhigh hi ?_⟩
    rw [Thread.next_consume hop, if_pos (Nat.lt_of_lt_of_le Nat.zero_lt_one h), Nat.min_eq_right h,
      List.length_singleton]

/-- A fragment that consumes a fixed number of characters, and another one after it. -/
theorem Consumes.append (h : Consumes cls root n n code place counter)
    (h' : Consumes cls root a b more (place + code.length) counter) :
    Consumes cls root (n + a) (n + b) (code ++ more) place counter := by
  intro program low high hholds hlow hhigh w σ
  obtain ⟨hcode, hmore⟩ := holds_append.1 hholds
  rw [List.length_append, ← Nat.add_assoc] at hhigh ⊢
  have hfirst := h program low high hcode hlow (by omega) w σ
  by_cases hrun : runLength cls root w < n
  · exact ⟨fun _ => hfirst.1 hrun, fun _ => by omega⟩
  · obtain ⟨σ₁, hσ₁, hcomes⟩ := hfirst.2 (by omega)
    rw [Nat.min_eq_right (by omega)] at hcomes
    have hnext := h' program low high hmore (by omega) hhigh (w.drop n) σ₁
    rw [runLength_drop (by omega)] at hnext
    constructor
    · intro hfew
      exact hcomes _ (hnext.1 (by omega))
    · intro hmany
      obtain ⟨σ₂, hσ₂, hcomes'⟩ := hnext.2 (by omega)
      refine ⟨σ₂, hσ₁.trans hσ₂, hcomes.trans ?_⟩
      rw [List.drop_drop] at hcomes'
      rwa [show min (runLength cls root w) (n + b) = n + min (runLength cls root w - n) b by omega]

end Parts
end Code
end ByteMatch
