import ByteMatch.Instruction.Template
import ByteMatch.Proofs.Instruction.Execution

/-!
# ByteMatch.Proofs.Instruction.Fragment

Fragments of programs, and the languages that they read.

A fragment uses counters from some number on, and sets them before it tests them. So what a thread
accepts that enters it depends on lower counters only, as far as this holds of what comes after it.

* `Code.Holds`: a fragment stands at some place of a program.
* `Acceptor.Settled`: what is accepted at a place does not depend on counters from a number on.
* `Code.Reads`: a thread reads a string of a language in the fragment, and leaves it at its end.
* `Code.Reads.append`: fragments one after the other.
-/

namespace ByteMatch

variable {α : Type}

/-- What threads accept that start at some place with some counters. -/
abbrev Acceptor (α : Type) := Nat → (Int → Int) → Language α

/-- Counters with numbers below `n` are the same. -/
def SameBelow (n : Nat) (σ σ' : Int → Int) : Prop := ∀ k : Int, k < n → σ' k = σ k

/-- What is accepted at a place does not depend on the counters from `n` on. -/
def Acceptor.Settled (A : Acceptor α) (n place : Nat) (σ : Int → Int) : Prop :=
  ∀ σ', SameBelow n σ σ' → A place σ' = A place σ

section Counters

variable {A : Acceptor α} {n m place : Nat} {σ σ' σ'' : Int → Int} {value : Int}

theorem SameBelow.refl : SameBelow n σ σ := fun _ _ => rfl

theorem SameBelow.trans (h : SameBelow n σ σ') (h' : SameBelow n σ' σ'') : SameBelow n σ σ'' :=
  fun k hk => (h' k hk).trans (h k hk)

theorem SameBelow.mono (h : SameBelow m σ σ') (hle : n ≤ m) : SameBelow n σ σ' :=
  fun k hk => h k (by omega)

theorem SameBelow.update (h : SameBelow n σ σ') : SameBelow n σ (Function.update σ' n value) := by
  intro k hk
  rw [Function.update_of_ne (Int.ne_of_lt hk)]
  exact h k hk

theorem Acceptor.Settled.of_same (h : A.Settled n place σ) (hσ : SameBelow n σ σ') :
    A.Settled n place σ' := fun σ'' hσ'' => by rw [h σ'' (hσ.trans hσ''), h σ' hσ]

end Counters

namespace Code

variable {program code more : Code} {place counter : Nat} {i : Instruction}

/-- The instructions of a fragment stand at some place of a program. -/
def Holds (program : Code) (place : Nat) (code : Code) : Prop :=
  ∀ (k : Nat) i, code[k]? = some i → program[place + k]? = some i

@[simp] theorem holds_nil : Holds program place [] := fun k i hk => by simp at hk

theorem holds_append : Holds program place (code ++ more) ↔
    Holds program place code ∧ Holds program (place + code.length) more := by
  constructor
  · intro h
    refine ⟨fun k i hk => h k i ?_, fun k i hk => ?_⟩
    · rw [List.getElem?_append_left (List.getElem?_eq_some_iff.1 hk).1, hk]
    · rw [Nat.add_assoc]
      refine h (code.length + k) i ?_
      rw [List.getElem?_append_right (Nat.le_add_right _ _), Nat.add_sub_cancel_left, hk]
  · rintro ⟨h, h'⟩ k i hk
    by_cases hlt : k < code.length
    · rw [List.getElem?_append_left hlt] at hk
      exact h k i hk
    · rw [List.getElem?_append_right (Nat.le_of_not_lt hlt)] at hk
      have := h' _ i hk
      rwa [show place + code.length + (k - code.length) = place + k by omega] at this

theorem holds_cons : Holds program place (i :: code) ↔
    program[place]? = some i ∧ Holds program (place + 1) code := by
  rw [← List.singleton_append, holds_append]
  refine and_congr_left fun _ => ⟨fun h => h 0 i rfl, ?_⟩
  rintro h (_ | k) j hj
  · rw [← hj]
    exact h
  · simp at hj

/-- A thread that enters the fragment reads a string of the language and leaves the fragment at its
end. Counters from `counter` on may change. -/
def Reads (cls : Int → α → Bool) (L : Language α) (code : Code) (place counter : Nat) : Prop :=
  ∀ program rest, Holds program place code → ∀ σ,
    Acceptor.Settled (accepted cls program rest) counter (place + code.length) σ →
    accepted cls program rest place σ =
      L * accepted cls program rest (place + code.length) σ

namespace Reads

variable {cls : Int → α → Bool} {L M : Language α}

theorem nil : Reads cls (1 : Language α) [] place counter := by
  intro program rest _ σ _
  rw [one_mul]
  rfl

/-- What comes before a fragment does not depend on its counters either. -/
theorem settled (h : Reads cls L code place counter) {program : Code} {rest : List α}
    (hholds : Holds program place code) {σ : Int → Int}
    (hσ : Acceptor.Settled (accepted cls program rest) counter (place + code.length) σ) :
    Acceptor.Settled (accepted cls program rest) counter place σ := by
  intro σ' hσ'
  rw [h program rest hholds σ' (hσ.of_same hσ'), h program rest hholds σ hσ, hσ σ' hσ']

theorem append (h : Reads cls L code place counter)
    (h' : Reads cls M more (place + code.length) counter) :
    Reads cls (L * M) (code ++ more) place counter := by
  intro program rest hholds σ hσ
  obtain ⟨hcode, hmore⟩ := holds_append.1 hholds
  rw [List.length_append, ← Nat.add_assoc] at hσ ⊢
  rw [h program rest hcode σ (h'.settled hmore hσ), h' program rest hmore σ hσ, mul_assoc]

theorem single (h : ∀ program rest, program[place]? = some i → ∀ σ,
    accepted cls program rest place σ = L * accepted cls program rest (place + 1) σ) :
    Reads cls L [i] place counter :=
  fun program rest hholds σ _ => h program rest (holds_cons.1 hholds).1 σ

variable {op : UInt8} {index address root : Int} {halt : Bool}

theorem skip (hop : Opcode.operation op = .skip) :
    Reads cls (1 : Language α) [⟨op, index, address, false⟩] place counter :=
  .single fun _ _ hi _ => by rw [accepted_skip hi hop, one_mul]

theorem consume (hop : Opcode.operation op = .character false false) :
    Reads cls (classLanguage cls root) [⟨op, index, root, false⟩] place counter :=
  .single fun _ _ hi _ => accepted_consume hi hop

/-- An instruction that jumps or forks to the next one, and ends. -/
theorem goOn (hop : Opcode.operation op = .jump ∨ Opcode.operation op = .fork) :
    Reads cls (1 : Language α) [⟨op, index, 1, true⟩] place counter := by
  refine .single fun program rest hi σ => ?_
  have heq : (1 : Int) = ((place + 1 : Nat) : Int) - place := by omega
  rw [heq] at hi
  rw [one_mul]
  rcases hop with hop | hop
  · exact accepted_jump hi hop
  · exact accepted_leave hi hop

end Reads

end Code
end ByteMatch
