import Mathlib.Data.Int.ConditionallyCompleteOrder
import Mathlib.Data.Int.SuccPred
import ByteMatch.Proofs.Instruction.ControlFlow

/-!
# ByteMatch.Proofs.Instruction.Loops

Loops that count down, one inside or after the other.

A loop starts after the instruction that sets its counter and ends with the one that counts down and goes back.
Loops do not get in each other's way if each has its counter for itself and is only entered from the front.

* `Code.Loop`: a loop whose counter nothing else in it uses, and that nothing outside jumps into.
  `Code.Loop.disjoint_or_nested` follows from the way in alone.
* `Code.Nested`: a fragment whose loops are like that. `Code.Nested.append` puts two of them one after the
  other, and `Code.Nested.rounds` makes a loop of one.
* `Code.Plain`: a fragment without loops.
-/

namespace ByteMatch

namespace Opcode

/-- Whether the instruction counts down, and goes back while the counter is not zero. -/
def isLoopTest (op : UInt8) : Bool := op == test ||| negate ||| count

/-- Whether the index of the instruction is a counter that it sets or tests. -/
def usesCounter (op : UInt8) : Bool :=
  op == setCount || (Instruction.hasBits op test && Instruction.hasBits op count)

theorem usesCounter_of_isLoopTest {op : UInt8} (h : isLoopTest op = true) : usesCounter op = true := by
  rw [beq_iff_eq.1 h]
  decide

end Opcode

/-- No instruction of a template uses a counter. -/
def Template.counterFree (t : Template) : Bool := t.all (!Opcode.usesCounter ·.opcode)

namespace Code

variable {code more : Code} {place place' level limit head last counter k : Nat} {i j : Instruction}
  {t : Int} {T T' : Set Int}

/-! ## Places of instructions -/

/-- An instruction stands at `k` in a fragment that stands at `place`. -/
def At (code : Code) (place k : Nat) (i : Instruction) : Prop := (i, k) ∈ code.zipIdx place

@[simp] theorem at_nil : ¬ At [] place k i := List.not_mem_nil

@[simp] theorem at_cons : At (j :: code) place k i ↔ (i = j ∧ k = place) ∨ At code (place + 1) k i := by
  rw [At, List.zipIdx_cons, List.mem_cons, Prod.mk.injEq, At]

@[simp] theorem at_append : At (code ++ more) place k i ↔
    At code place k i ∨ At more (place + code.length) k i := by
  rw [At, List.zipIdx_append, List.mem_append, At, At]

theorem at_iff : At code place k i ↔ place ≤ k ∧ code[k - place]? = some i :=
  List.mk_mem_zipIdx_iff_le_and_getElem?_sub

theorem at_zero : At code 0 k i ↔ code[k]? = some i := List.mk_mem_zipIdx_iff_getElem?

namespace At

theorem le (h : At code place k i) : place ≤ k := (at_iff.1 h).1

theorem lt (h : At code place k i) : k < place + code.length := by
  obtain ⟨hle, hi⟩ := at_iff.1 h
  have := (List.getElem?_eq_some_iff.1 hi).1
  omega

theorem mem (h : At code place k i) : i ∈ code := List.mem_of_getElem? (at_iff.1 h).2

theorem unique (h : At code place k i) (h' : At code place k j) : i = j :=
  Option.some.inj ((at_iff.1 h).2.symm.trans (at_iff.1 h').2)

end At

/-! ## Jumps -/

/-- All jumps of the fragment lead to places of the set. -/
def Lands (code : Code) (place : Nat) (T : Set Int) : Prop :=
  ∀ k i, code.At place k i → ∀ t ∈ i.jumps k, t ∈ T

theorem lands_nil : Lands [] place T := fun _ _ h => (at_nil h).elim

theorem lands_append : Lands (code ++ more) place T ↔
    Lands code place T ∧ Lands more (place + code.length) T := by
  simp only [Lands, at_append, or_imp, forall_and]

theorem lands_cons : Lands (i :: code) place T ↔ (∀ t ∈ i.jumps place, t ∈ T) ∧ Lands code (place + 1) T := by
  constructor
  · intro h
    exact ⟨h place i (by simp), fun k j hj => h k j (by simp [hj])⟩
  · intro h k j hj
    rw [at_cons] at hj
    rcases hj with ⟨rfl, rfl⟩ | hj
    · exact h.1
    · exact h.2 k j hj

theorem Lands.mono (h : Lands code place T) (hT : T ⊆ T') : Lands code place T' :=
  fun k i hi t ht => hT (h k i hi t ht)

/-! ## Loops -/

/-- A loop from `head` to `last` in a fragment. The instruction before it sets its counter, to at least one.
Nothing else in it uses the counter, and no instruction outside of it jumps into it. -/
structure Loop (code : Code) (place limit head last counter : Nat) : Prop where
  test : code.At place last
    ⟨Opcode.test ||| Opcode.negate ||| Opcode.count, counter, (head : Int) - last, false⟩
  lt : head < last
  counter_lt : counter < limit
  set : ∃ before count, before + 1 = head ∧ 1 ≤ count ∧
    code.At place before ⟨Opcode.setCount, counter, count, false⟩
  alone : ∀ k i, code.At place k i → head ≤ k → k < last → Opcode.usesCounter i.opcode = true →
    i.index ≠ counter
  entry : ∀ k i, code.At place k i → k < head ∨ last < k → ∀ t ∈ i.jumps k, t < head ∨ last < t

namespace Loop

theorem jumps_test : Instruction.jumps
    ⟨Opcode.test ||| Opcode.negate ||| Opcode.count, counter, (head : Int) - last, false⟩ last =
      [(head : Int)] := by
  rw [Instruction.jumps_jump (by decide) (by decide), show (last : Int) + (head - last) = head by omega]

theorem place_lt (h : Loop code place limit head last counter) : place < head := by
  obtain ⟨before, count, rfl, -, hset⟩ := h.set
  exact Nat.lt_succ_of_le hset.le

/-- One of two loops that overlap would be entered by the other one. -/
theorem disjoint_or_nested {limit' head' last' counter' : Nat} (h : Loop code place limit head last counter)
    (h' : Loop code place limit' head' last' counter') :
    last < head' ∨ last' < head ∨ (head ≤ head' ∧ last' ≤ last) ∨ (head' ≤ head ∧ last ≤ last') := by
  have hlt := h.lt
  have hlt' := h'.lt
  have hback := h.entry last' _ h'.test
  have hback' := h'.entry last _ h.test
  simp only [jumps_test, List.mem_singleton, forall_eq] at hback hback'
  omega

/-- A loop stays one in a larger fragment that does not jump into it. -/
theorem extend (h : Loop code place limit head last counter)
    (hmem : ∀ k i, code.At place k i → more.At place' k i)
    (hnew : ∀ k i, more.At place' k i → code.At place k i ∨
      ((k < head ∨ last < k) ∧ ∀ t ∈ i.jumps k, t < head ∨ last < t)) :
    Loop more place' limit head last counter where
  test := hmem _ _ h.test
  lt := h.lt
  counter_lt := h.counter_lt
  set := by
    obtain ⟨before, count, hbefore, hcount, hset⟩ := h.set
    exact ⟨before, count, hbefore, hcount, hmem _ _ hset⟩
  alone k i hi hhead hlast := by
    rcases hnew k i hi with hold | ⟨houtside, -⟩
    · exact h.alone k i hold hhead hlast
    · omega
  entry k i hi houtside := by
    rcases hnew k i hi with hold | ⟨-, hjumps⟩
    · exact h.entry k i hold houtside
    · exact hjumps

end Loop

/-- The place is in no loop of the fragment. -/
def Avoids (code : Code) (place : Nat) (t : Int) : Prop :=
  ∀ last i, code.At place last i → Opcode.isLoopTest i.opcode = true → t < last + i.address ∨ last < t

theorem avoids_append : Avoids (code ++ more) place t ↔
    Avoids code place t ∧ Avoids more (place + code.length) t := by
  simp only [Avoids, at_append, or_imp, forall_and]

/-- The loops of a fragment have counters from `level` on and below the limit, and its jumps lead to places of
the set. -/
structure Nested (code : Code) (place level limit : Nat) (T : Set Int) : Prop where
  counter : ∀ i ∈ code, Opcode.usesCounter i.opcode = true → (level : Int) ≤ i.index
  lands : code.Lands place T
  loop : ∀ last i, code.At place last i → Opcode.isLoopTest i.opcode = true →
    ∃ head counter, Loop code place limit head last counter

namespace Nested

theorem exists_loop (h : Nested code place level limit T) (hi : code.At place last i)
    (htest : Opcode.isLoopTest i.opcode = true) :
    ∃ head counter, Loop code place limit head last counter ∧ last + i.address = head := by
  obtain ⟨head, counter, hloop⟩ := h.loop last i hi htest
  rw [hi.unique hloop.test]
  exact ⟨head, counter, hloop, by simp only; omega⟩

/-- Loops are inside of the fragment. -/
theorem avoids (h : Nested code place level limit T) (ht : t ≤ place ∨ place + code.length ≤ t) :
    code.Avoids place t := by
  intro last i hi htest
  obtain ⟨head, counter, hloop, hhead⟩ := h.exists_loop hi htest
  have hlow := hloop.place_lt
  have hhigh := hi.lt
  omega

theorem mono (h : Nested code place level limit T) {level' : Nat} (hlevel : level' ≤ level) (hT : T ⊆ T') :
    Nested code place level' limit T' where
  counter i hi huses := by
    have := h.counter i hi huses
    omega
  lands := h.lands.mono hT
  loop := h.loop

/-- Fragments one after the other, if none of them jumps into a loop of the other one. -/
theorem append {mid : Nat} (h : Nested code place level limit T) (h' : Nested more mid level limit T')
    (hmid : mid = place + code.length) (hT : ∀ t ∈ T, more.Avoids mid t) (hT' : ∀ t ∈ T', code.Avoids place t) :
    Nested (code ++ more) place level limit (T ∪ T') := by
  subst hmid
  refine ⟨fun i hi => ?_, ?_, fun last i hi htest => ?_⟩
  · rcases List.mem_append.1 hi with hi | hi
    · exact h.counter i hi
    · exact h'.counter i hi
  · exact lands_append.2 ⟨h.lands.mono Set.subset_union_left, h'.lands.mono Set.subset_union_right⟩
  · rcases at_append.1 hi with hi | hi
    · obtain ⟨head, counter, hloop, hhead⟩ := h.exists_loop hi htest
      have hlast := hi.lt
      refine ⟨head, counter, hloop.extend (fun k j hj => at_append.2 (.inl hj)) fun k j hj => ?_⟩
      refine (at_append.1 hj).imp_right fun hj => ⟨.inr (by have := hj.le; omega), fun t ht => ?_⟩
      rw [← hhead]
      exact hT' t (h'.lands k j hj t ht) last i hi htest
    · obtain ⟨head, counter, hloop, hhead⟩ := h'.exists_loop hi htest
      have hlow := hloop.place_lt
      refine ⟨head, counter, hloop.extend (fun k j hj => at_append.2 (.inr hj)) fun k j hj => ?_⟩
      refine (at_append.1 hj).symm.imp_right fun hj => ⟨.inl (by have := hj.lt; omega), fun t ht => ?_⟩
      rw [← hhead]
      exact hT t (h.lands k j hj t ht) last i hi htest

/-- Fragments whose jumps lead to their beginning, into them or to their end. -/
theorem seq {mid finish : Nat} (h : Nested code place level limit (Set.Icc place mid))
    (h' : Nested more mid level limit (Set.Icc mid finish)) (hmid : mid = place + code.length)
    (hfinish : finish = mid + more.length) :
    Nested (code ++ more) place level limit (Set.Icc place finish) := by
  subst hmid hfinish
  refine (h.append h' rfl (fun t ht => h'.avoids (.inl ?_)) fun t ht => h.avoids (.inr ?_)).mono
    (Nat.le_refl _) (Set.union_subset (Set.Icc_subset_Icc ?_ ?_) (Set.Icc_subset_Icc ?_ ?_))
  · exact ht.2
  · exact ht.1
  all_goals omega

end Nested

/-! ## A loop around a fragment -/

/-- Sets a counter before a fragment, and goes through the fragment until it has been counted down. -/
def rounds (code : Code) (place counter : Nat) (count : Int) : Code :=
  ⟨Opcode.setCount, counter, count, false⟩ :: code ++
    [⟨Opcode.test ||| Opcode.negate ||| Opcode.count, counter,
      ((place + 1 : Nat) : Int) - (place + 1 + code.length : Nat), false⟩]

section Rounds

variable {count : Int}

@[simp] theorem length_rounds : (rounds code place counter count).length = code.length + 2 := by
  simp [rounds]

theorem at_rounds : At (rounds code place counter count) place k i ↔
    (i = ⟨Opcode.setCount, counter, count, false⟩ ∧ k = place) ∨ At code (place + 1) k i ∨
      (i = ⟨Opcode.test ||| Opcode.negate ||| Opcode.count, counter,
        ((place + 1 : Nat) : Int) - (place + 1 + code.length : Nat), false⟩ ∧ k = place + 1 + code.length) := by
  rw [rounds, List.cons_append, at_cons, at_append, at_cons]
  simp

theorem jumps_setCount : Instruction.jumps ⟨Opcode.setCount, counter, count, false⟩ k = [] :=
  Instruction.jumps_plain (by decide) (by decide)

/-- The fragment with the last instruction is a loop, if it uses other counters. -/
theorem loop_rounds (hcode : code ≠ []) (hlimit : level < limit) (hcount : 1 ≤ count)
    (hother : ∀ i ∈ code, Opcode.usesCounter i.opcode = true → i.index ≠ level) :
    Loop (rounds code place level count) place limit (place + 1) (place + 1 + code.length) level where
  test := at_rounds.2 (.inr (.inr ⟨rfl, rfl⟩))
  lt := Nat.lt_add_of_pos_right (List.length_pos_iff.2 hcode)
  counter_lt := hlimit
  set := ⟨place, count, rfl, hcount, at_rounds.2 (.inl ⟨rfl, rfl⟩)⟩
  alone k i hi hhead hlast := by
    rcases at_rounds.1 hi with ⟨rfl, rfl⟩ | hi | ⟨rfl, rfl⟩
    · omega
    · exact hother i hi.mem
    · omega
  entry k i hi houtside := by
    rcases at_rounds.1 hi with ⟨rfl, rfl⟩ | hi | ⟨rfl, rfl⟩
    · simp [jumps_setCount]
    · have := hi.le
      have := hi.lt
      omega
    · omega

/-- A loop of the fragment is one inside of the larger loop. -/
theorem Loop.rounds (h : Loop code (place + 1) limit head last counter) :
    Loop (rounds code place level count) place limit head last counter := by
  have hlow := h.place_lt
  have hhigh := h.test.lt
  refine h.extend (fun k i hi => at_rounds.2 (.inr (.inl hi))) fun k i hi => ?_
  rcases at_rounds.1 hi with ⟨rfl, rfl⟩ | hi | ⟨rfl, rfl⟩
  · exact .inr ⟨.inl (by omega), by simp [jumps_setCount]⟩
  · exact .inl hi
  · refine .inr ⟨.inr (by omega), fun t ht => .inl ?_⟩
    rw [Loop.jumps_test, List.mem_singleton] at ht
    omega

/-- The loop has a counter of its own, and it may be left for the instruction after it. -/
theorem Nested.rounds (h : Nested code (place + 1) (level + 1) limit T)
    (hT : T ⊆ Set.Icc ((place + 1 : Nat) : Int) (place + code.length + 2 : Nat))
    (hcode : code ≠ []) (hlimit : level < limit) (hcount : 1 ≤ count) :
    Nested (rounds code place level count) place level limit
      (Set.Icc (place : Int) (place + code.length + 2 : Nat)) where
  counter i hi huses := by
    simp only [Code.rounds, List.cons_append, List.mem_cons, List.mem_append, List.not_mem_nil, or_false] at hi
    rcases hi with rfl | hi | rfl
    · exact Int.le_refl _
    · have := h.counter i hi huses
      omega
    · exact Int.le_refl _
  lands k i hi t ht := by
    rcases at_rounds.1 hi with ⟨rfl, rfl⟩ | hi | ⟨rfl, rfl⟩
    · rw [jumps_setCount] at ht
      cases ht
    · exact Set.Icc_subset_Icc_left (by omega) (hT (h.lands k i hi t ht))
    · rw [Loop.jumps_test, List.mem_singleton] at ht
      exact ⟨by omega, by omega⟩
  loop last i hi htest := by
    rcases at_rounds.1 hi with ⟨rfl, rfl⟩ | hi | ⟨rfl, rfl⟩
    · cases htest
    · obtain ⟨head, counter, hloop⟩ := h.loop last i hi htest
      exact ⟨head, counter, hloop.rounds⟩
    · refine ⟨_, level, loop_rounds hcode hlimit hcount fun j hj huses => ?_⟩
      have := h.counter j hj huses
      omega

end Rounds

/-! ## Fragments without loops -/

/-- A fragment that uses no counters, and whose jumps lead to places of the set. -/
structure Plain (code : Code) (place : Nat) (T : Set Int) : Prop where
  free : ∀ i ∈ code, Opcode.usesCounter i.opcode = false
  lands : code.Lands place T

namespace Plain

theorem nil : Plain [] place T := ⟨by simp, lands_nil⟩

theorem append (h : Plain code place T) (h' : Plain more (place + code.length) T) :
    Plain (code ++ more) place T :=
  ⟨List.forall_mem_append.2 ⟨h.free, h'.free⟩, lands_append.2 ⟨h.lands, h'.lands⟩⟩

theorem cons (hfree : Opcode.usesCounter i.opcode = false) (hjumps : ∀ t ∈ i.jumps place, t ∈ T)
    (h : Plain code (place + 1) T) : Plain (i :: code) place T :=
  ⟨List.forall_mem_cons.2 ⟨hfree, h.free⟩, lands_cons.2 ⟨hjumps, h.lands⟩⟩

section Jumps

variable {op : UInt8} {index address : Int} {halt : Bool}

theorem jump (hjump : Opcode.isJump op = true) (hbranch : Opcode.isBranch op = false)
    (hfree : Opcode.usesCounter op = false) (ht : place + address ∈ T) (h : Plain code (place + 1) T) :
    Plain (⟨op, index, address, halt⟩ :: code) place T :=
  .cons hfree (by simpa [Instruction.jumps_jump hjump hbranch] using ht) h

theorem branch (hjump : Opcode.isJump op = false) (hbranch : Opcode.isBranch op = true)
    (hfree : Opcode.usesCounter op = false) (ht : place + 1 + index ∈ T) (h : Plain code (place + 1) T) :
    Plain (⟨op, index, address, halt⟩ :: code) place T :=
  .cons hfree (by simpa [Instruction.jumps_branch hjump hbranch] using ht) h

end Jumps

theorem mono (h : Plain code place T) (hT : T ⊆ T') : Plain code place T' := ⟨h.free, h.lands.mono hT⟩

theorem leads {limit : Nat} (h : Plain code place T) (hT : ∀ t ∈ T, 0 ≤ t ∧ t ≤ limit) :
    Leads code place limit := by
  refine leads_of_getElem? fun pc i hi t ht => hT t (h.lands (place + pc) i (at_iff.2 ⟨?_, ?_⟩) t ht)
  · exact Nat.le_add_right _ _
  · rwa [Nat.add_sub_cancel_left]

theorem avoids (h : Plain code place T) : code.Avoids place t := by
  intro last i hi htest
  have := h.free i hi.mem
  rw [Opcode.usesCounter_of_isLoopTest htest] at this
  cases this

theorem nested (h : Plain code place T) : Nested code place level limit T where
  counter i hi huses := by
    rw [h.free i hi] at huses
    cases huses
  lands := h.lands
  loop last i hi htest := by
    have := h.free i hi.mem
    rw [Opcode.usesCounter_of_isLoopTest htest] at this
    cases this

end Plain

end Code

theorem Template.usesCounter_fill {t : Template} (h : t.counterFree = true) (args : List Int) :
    ∀ i ∈ t.fill args, Opcode.usesCounter i.opcode = false := by
  induction t generalizing args with
  | nil => simp [fill]
  | cons i rest ih =>
    rw [counterFree, List.all_cons, Bool.and_eq_true, Bool.not_eq_true'] at h
    exact List.forall_mem_cons.2 ⟨h.1, ih h.2 _⟩

/-- An instance of a template that uses no counters and whose jumps do not leave it. -/
theorem Template.plain_fill {t : Template} (hfree : t.counterFree = true) (hjump : t.jumpsInside 0 = true)
    (args : List Int) (place : Nat) :
    (t.fill args).Plain place (Set.Icc (place : Int) (place + t.length : Nat)) where
  free := usesCounter_fill hfree args
  lands k i hi target ht := by
    obtain ⟨hle, hi⟩ := Code.at_iff.1 hi
    have := mem_jumps_fill hjump args place hi (by rwa [Nat.add_zero, Nat.add_sub_cancel' hle])
    exact ⟨by omega, by omega⟩

end ByteMatch
