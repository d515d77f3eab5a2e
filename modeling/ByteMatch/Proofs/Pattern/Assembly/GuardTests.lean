import ByteMatch.Proofs.Pattern.Assembly.Plain
import ByteMatch.Proofs.Pattern.Changes

/-!
# ByteMatch.Proofs.Pattern.Assembly.GuardTests

The guards that a fragment tests.

A guard can be tested by the program, by a decision or by the repetition itself, and the body of a
repetition may be emitted several times. So the tests of a fragment are counted together with the guards
that have not been tested yet.

* `Code.guardTests`: the number of instructions that test a guard.
* `Pattern.untested`: the number of repetitions whose guard has not been tested.
* `Pattern.Spends`: a fragment tests the guards that are no longer untested, and some repetitions have been
  done with.
-/

namespace ByteMatch

open Step

/-! ## Instructions that test guards -/

/-- Whether the instruction tests a guard. -/
def Instruction.testsGuard (i : Instruction) (k : Int) : Bool :=
  hasBits i.opcode Opcode.test && hasBits i.opcode Opcode.guard && i.index == k

/-- The number of instructions that test a guard. -/
def Code.guardTests (code : Code) (k : Int) : Nat := code.countP (·.testsGuard k)

/-- No instruction of a template tests a guard. -/
def Template.guardFree (t : Template) : Bool :=
  t.all fun i => !(Instruction.hasBits i.opcode Opcode.test && Instruction.hasBits i.opcode Opcode.guard)

namespace Code

variable {code more : Code} {i : Instruction} {k : Int}

@[simp] theorem guardTests_nil : guardTests [] k = 0 := rfl

@[simp] theorem guardTests_append : guardTests (code ++ more) k = code.guardTests k + more.guardTests k :=
  List.countP_append

@[simp] theorem guardTests_cons :
    guardTests (i :: code) k = (if i.testsGuard k then 1 else 0) + code.guardTests k := by
  rw [guardTests, List.countP_cons, guardTests, Nat.add_comm]

theorem testsGuard_of_opcode {op : UInt8} {index address : Int} {halt : Bool}
    (h : (Instruction.hasBits op Opcode.test && Instruction.hasBits op Opcode.guard) = false) :
    Instruction.testsGuard ⟨op, index, address, halt⟩ k = false := by
  rw [Instruction.testsGuard, h, Bool.false_and]

theorem testsGuard_of_guard {op : UInt8} {index address : Int} {halt : Bool}
    (h : (Instruction.hasBits op Opcode.test && Instruction.hasBits op Opcode.guard) = true) :
    Instruction.testsGuard ⟨op, index, address, halt⟩ k = (index == k) := by
  rw [Instruction.testsGuard, h, Bool.true_and]

theorem guardTests_singleton {op : UInt8} {index address : Int} {halt : Bool}
    (h : (Instruction.hasBits op Opcode.test && Instruction.hasBits op Opcode.guard) = true) :
    guardTests [⟨op, index, address, halt⟩] k = if index = k then 1 else 0 := by
  rw [guardTests_cons, testsGuard_of_guard h]
  simp

@[simp] theorem testsGuard_forkTo {place target : Nat} {halt : Bool} :
    (forkTo place target halt).testsGuard k = false := testsGuard_of_opcode (by decide)

@[simp] theorem testsGuard_jumpTo {place target : Nat} : (jumpTo place target).testsGuard k = false :=
  testsGuard_of_opcode (by decide)

@[simp] theorem testsGuard_setCount {counter : Nat} {count : Int} :
    (setCount counter count).testsGuard k = false := testsGuard_of_opcode (by decide)

@[simp] theorem testsGuard_countDown {counter place head : Nat} :
    (countDown counter place head).testsGuard k = false := testsGuard_of_opcode (by decide)

@[simp] theorem testsGuard_blank : Instruction.testsGuard ⟨Opcode.null, 0, 0, false⟩ k = false :=
  testsGuard_of_opcode (by decide)

@[simp] theorem guardTests_forkTest {preview : Option Nat} :
    guardTests (Assembler.forkTest preview) k = 0 := by
  cases preview with
  | none => rfl
  | some root =>
    rw [Assembler.forkTest, guardTests_cons, testsGuard_of_opcode (by decide)]
    rfl

end Code

theorem Template.guardTests_fill {t : Template} (h : t.guardFree = true) (args : List Int) (k : Int) :
    (t.fill args).guardTests k = 0 := by
  induction t generalizing args with
  | nil => rfl
  | cons i rest ih =>
    rw [guardFree, List.all_cons, Bool.and_eq_true, Bool.not_eq_true'] at h
    rw [fill, Code.guardTests_cons, Instruction.testsGuard, h.1, Bool.false_and, if_neg Bool.false_ne_true,
      Nat.zero_add]
    exact ih h.2 _

/-! ## Guards that have not been tested -/

/-- A node without what an assembly finds out. -/
def Node.assembled (n : Node) : Node :=
  { n with
    attributes := { n.attributes with controlling := false, previewed := false, guardTested := false } }

/-- A node without whether its first character has been tested ahead. -/
def Node.unpreviewed (n : Node) : Node := { n with attributes := { n.attributes with previewed := false } }

/-- Whether a guard has been tested, and whether there is one. -/
def Node.guardFlags (n : Node) : Bool × Bool := (n.attributes.controlling, n.attributes.guardTested)

/-- Whether the node is a repetition whose guard has not been tested. -/
def Node.untested (n : Node) (k : Int) : Bool :=
  n.attributes.controlling && !n.attributes.guardTested && n.guard.any fun guard : Nat => (guard : Int) == k

theorem Node.controlling_of_untested {n : Node} {k : Int} (h : n.untested k = true) :
    n.attributes.controlling = true := by
  rw [untested, Bool.and_eq_true, Bool.and_eq_true] at h
  exact h.1.1

theorem Node.untested_of_uncontrolled {n : Node} {k : Int} (h : n.attributes.controlling = false) :
    n.untested k = false :=
  Bool.eq_false_iff.2 fun huntested => Bool.eq_false_iff.1 h (controlling_of_untested huntested)

namespace Pattern

variable {p p' p₁ q : Pattern} {L : List Nat} {S S' D D' : Set Nat} {code more : Code} {i j : Nat} {k : Int}

/-- The number of nodes whose guard has not been tested. -/
def untested (p : Pattern) (L : List Nat) (k : Int) : Nat := L.countP fun i => (p.node i).untested k

/-- What a fragment does to the guards of a pattern. The tests in the fragment are those of the guards that
are no longer untested. Only nodes in `S` are concerned, and no repetition gets a guard. Those in `D` have
none any more. -/
structure Spends (L : List Nat) (S D : Set Nat) (p : Pattern) (code : Code) (p' : Pattern) : Prop where
  same : p'.SameUpTo Node.assembled p
  flags : ∀ j ∉ S, (p'.node j).guardFlags = (p.node j).guardFlags
  controlling : ∀ j, (p'.node j).attributes.controlling = true → (p.node j).attributes.controlling = true
  cleared : ∀ j ∈ D, (p'.node j).attributes.controlling = false
  count : ∀ k, code.guardTests k + p'.untested L k = p.untested L k

namespace Spends

/-- Nothing is tested, and no guard is concerned. -/
theorem of_unpreviewed (h : p'.SameUpTo Node.unpreviewed p) (hcode : ∀ k, code.guardTests k = 0) :
    Spends L S ∅ p code p' where
  same := ⟨h.size, h.get Node.assembled fun _ => rfl⟩
  flags j _ := h.get Node.guardFlags (fun _ => rfl) j
  controlling j hj := (h.get (·.attributes.controlling) (fun _ => rfl) j).symm.trans hj
  cleared _ hj := hj.elim
  count k := by
    have hsame : ∀ i, (p'.node i).untested k = (p.node i).untested k := h.get (·.untested k) fun _ => rfl
    simp only [hcode, Nat.zero_add, untested, hsame]

theorem append (h : Spends L S D p code p₁) (h' : Spends L S D' p₁ more p') :
    Spends L S (D ∪ D') p (code ++ more) p' where
  same := h'.same.trans h.same
  flags j hj := (h'.flags j hj).trans (h.flags j hj)
  controlling j hj := h.controlling j (h'.controlling j hj)
  cleared j hj := by
    rcases hj with hj | hj
    · exact Bool.eq_false_iff.2 fun hcontrolling =>
        Bool.eq_false_iff.1 (h.cleared j hj) (h'.controlling j hcontrolling)
    · exact h'.cleared j hj
  count k := by rw [Code.guardTests_append, Nat.add_assoc, h'.count, h.count]

theorem mono (h : Spends L S D p code p') (hS : S ⊆ S') (hD : D' ⊆ D) : Spends L S' D' p code p' :=
  { h with
    flags := fun j hj => h.flags j fun hmem => hj (hS hmem)
    cleared := fun j hj => h.cleared j (hD hj) }

/-- Only the tests in the fragment matter. -/
theorem recode (h : Spends L S D p code p') (hcode : ∀ k, more.guardTests k = code.guardTests k) :
    Spends L S D p more p' :=
  { h with count := fun k => by rw [hcode, h.count] }

end Spends

/-- A guard is taken from those that have not been tested. -/
theorem countP_eq_of_ne {P P' : Nat → Bool} {n : Nat} (hL : L.Nodup) (hi : i ∈ L)
    (hother : ∀ j, j ≠ i → P' j = P j) (hself : n + (P' i).toNat = (P i).toNat) :
    n + L.countP P' = L.countP P := by
  induction L with
  | nil => cases hi
  | cons x rest ih =>
    obtain ⟨hfresh, hrest⟩ := List.nodup_cons.1 hL
    have hcons : ∀ Q : Nat → Bool, (x :: rest).countP Q = (Q x).toNat + rest.countP Q := by
      intro Q
      rw [List.countP_cons, Nat.add_comm]
      cases Q x <;> rfl
    rw [hcons, hcons]
    by_cases hxi : x = i
    · subst hxi
      have hsame : rest.countP P' = rest.countP P :=
        List.countP_congr fun j hj => by rw [hother j fun heq => hfresh (heq ▸ hj)]
      rw [← Nat.add_assoc, hself, hsame]
    · rw [hother x hxi, ← ih hrest ((List.mem_cons.1 hi).resolve_left (Ne.symm hxi))]
      omega

theorem lt_of_controlling (h : (p.node i).attributes.controlling = true) : i < p.nodes.size := by
  by_contra hout
  rw [node, Array.getD_eq_getD_getElem?, Array.getElem?_eq_none (Nat.le_of_not_lt hout)] at h
  cases h

section UpdateAttributes

variable {f : Attributes → Attributes}

theorem node_updateAttributes_of_ne (h : j ≠ i) : (p.updateAttributes i f).node j = p.node j := by
  rw [updateAttributes, node_update, if_neg fun heq => h heq.1.symm]

theorem node_updateAttributes_self (h : i < p.nodes.size) :
    (p.updateAttributes i f).node i = { p.node i with attributes := f (p.node i).attributes } := by
  rw [updateAttributes, node_update, if_pos ⟨rfl, h⟩]

theorem node_updateAttributes_of_controlling
    (h : ((p.updateAttributes i f).node i).attributes.controlling = true) :
    (p.updateAttributes i f).node i = { p.node i with attributes := f (p.node i).attributes } := by
  have hlt := lt_of_controlling h
  rw [updateAttributes, size_update] at hlt
  exact node_updateAttributes_self hlt

theorem controlling_updateAttributes (hf : ∀ a, (f a).controlling = false) :
    ((p.updateAttributes i f).node i).attributes.controlling = false := by
  refine Bool.eq_false_iff.2 fun htrue => ?_
  rw [node_updateAttributes_of_controlling htrue] at htrue
  exact Bool.eq_false_iff.1 (hf _) htrue

/-- The attributes of one node change, and the fragment tests its guard if it is no longer untested. -/
theorem Spends.of_updateAttributes (hL : L.Nodup) (hi : i ∈ L) (hS : i ∈ S)
    (hsame : ∀ n : Node, { n with attributes := f n.attributes }.assembled = n.assembled)
    (hcontrolling : ∀ a, (f a).controlling = true → a.controlling = true)
    (hcleared : ∀ j ∈ D, j = i ∧ ∀ a, (f a).controlling = false)
    (hcode : ∀ k, code.guardTests k + (((p.updateAttributes i f).node i).untested k).toNat =
      ((p.node i).untested k).toNat) :
    Spends L S D p code (p.updateAttributes i f) := by
  have hother : ∀ j, j ≠ i → (p.updateAttributes i f).node j = p.node j :=
    fun j hj => node_updateAttributes_of_ne hj
  refine ⟨.of_update (hsame _), fun j hj => ?_, fun j hj => ?_, fun j hj => ?_, fun k => ?_⟩
  · rw [hother j fun heq => hj (heq ▸ hS)]
  · by_cases hji : j = i
    · subst hji
      rw [node_updateAttributes_of_controlling hj] at hj
      exact hcontrolling _ hj
    · rwa [hother j hji] at hj
  · obtain ⟨rfl, hf⟩ := hcleared j hj
    exact controlling_updateAttributes hf
  · exact countP_eq_of_ne hL hi (fun j hj => by rw [hother j hj]) (hcode k)

end UpdateAttributes

/-! ## Guards at the beginning of a node -/

theorem reaches_of_mem_leading (h : j ∈ p.leading i) : p.Reaches i j := by
  have key : ∀ n i, j ∈ p.leadingTo n i → p.Reaches i j := by
    intro n
    induction n with
    | zero => exact fun i hj => absurd hj List.not_mem_nil
    | succ n ih =>
      intro i hj
      rw [leadingTo] at hj
      cases hc : (p.node i).children with
      | nil =>
        rw [hc] at hj
        obtain rfl := List.mem_singleton.1 hj
        exact .refl
      | cons c rest =>
        rw [hc] at hj
        rcases List.mem_cons.1 hj with rfl | hj
        · exact .refl
        · exact .head (by simp [Child, hc]) (ih c hj)
  exact key _ i h

/-- A guard that is found belongs to a repetition of the chain, and has not been tested. -/
theorem untestedGuard?_some {l : List Nat} {u : UntestedGuard} (h : p.untestedGuard? l = some u) :
    u.place ∈ l ∧ (p.node u.place).attributes.controlling = true ∧
      (p.node u.place).attributes.guardTested = false ∧ (p.node u.place).guard = u.guard := by
  induction l with
  | nil => cases h
  | cons i rest ih =>
    have hrest : p.untestedGuard? rest = some u → u.place ∈ i :: rest ∧
        (p.node u.place).attributes.controlling = true ∧
        (p.node u.place).attributes.guardTested = false ∧ (p.node u.place).guard = u.guard :=
      fun hu => ⟨List.mem_cons_of_mem _ (ih hu).1, (ih hu).2⟩
    rw [untestedGuard?] at h
    cases hkind : (p.node i).kind with
    | group =>
      simp only [hkind] at h
      split at h
      · cases h
      · exact hrest h
    | repetition min max =>
      simp only [hkind] at h
      split at h
      · cases h
      · rename_i htested
        split at h
        · rename_i hcontrolling
          cases h
          exact ⟨List.mem_cons_self, hcontrolling, Bool.eq_false_iff.2 htested, rfl⟩
        · exact hrest h
    | alternation | charClass | action =>
      simp only [hkind] at h
      cases h

end Pattern
end ByteMatch
