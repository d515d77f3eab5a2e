import ByteMatch.Proofs.Pattern.Assembly.Loops
import ByteMatch.Proofs.Pattern.Preparation
import ByteMatch.Proofs.Pattern.Program

/-!
# ByteMatch.Proofs.Pattern.Loops

The loops in the programs of patterns do not get in each other's way.

* `Pattern.SharesTails`: the tails that alternatives share are alternations.
* `Pattern.Acyclic.nests`: the loops in the fragment of a node, by induction on the nodes below it.
* `Pattern.assemble_loops`: each loop of a program has its counter for itself and is only entered from the
  front, so that of two loops one is inside the other, or they are apart.
-/

namespace ByteMatch

open Step

namespace Pattern

variable {p q : Pattern} {root i : Nat}

/-- A tail that alternatives share is an alternation itself. -/
def SharesTails (p : Pattern) (root : Nat) : Prop :=
  ∀ i, p.Reaches root i → (p.node i).kind = .alternation → ∀ j ∈ (p.node i).children,
    (p.node j).attributes.sharedTail = true → (p.node j).kind = .alternation

theorem SharesTails.of_same (h : p.SharesTails root)
    (hchildren : ∀ i, (q.node i).children = (p.node i).children)
    (hkind : ∀ i, (q.node i).kind = .alternation ↔ (p.node i).kind = .alternation)
    (hshared : ∀ i, (q.node i).attributes.sharedTail = (p.node i).attributes.sharedTail) :
    q.SharesTails root := by
  intro i hi halternation j hj htail
  rw [reaches_of_same hchildren] at hi
  rw [hchildren] at hj
  rw [hshared] at htail
  exact (hkind j).2 (h i hi ((hkind i).1 halternation) j hj htail)

theorem Prepared.sharesTails (h : q.Prepared p) (htails : p.SharesTails root) : q.SharesTails root :=
  htails.of_same h.children (fun _ => h.kind_eq (by simp)) (h.get (·.attributes.sharedTail) fun _ => rfl)

theorem Prepared.acyclic (h : q.Prepared p) (hp : p.Acyclic root) : q.Acyclic root :=
  hp.of_same h.size h.children

theorem Alike.sharesTails (h : q.Alike p) (htails : p.SharesTails root) : q.SharesTails root :=
  htails.of_same h.children (fun i => by rw [h.kind]) fun _ => h.attributes (·.sharedTail) fun _ => rfl

theorem Alike.acyclic (h : q.Alike p) (hp : p.Acyclic root) : q.Acyclic root := hp.of_same h.1 h.children

end Pattern

namespace Assembler

open Pattern

variable {p : Pattern} {limit : Nat} {settings : Settings}

/-- The kind of a node comes with the pattern. -/
theorem NestsOr.of_node {back : Option Nat} {i : Nat} {f : Node → Assembler Code}
    (h : ∀ n : Node, n.kind = (p.node i).kind → NestsOr p limit back (f n)) :
    NestsOr p limit back (node i >>= f) := by
  intro s code s' hp hret hback hok
  obtain ⟨n, s₁, hnode, hrest⟩ := bind_ok.1 hok
  obtain ⟨rfl, rfl⟩ := node_ok.1 hnode
  exact h _ (hp.kind i) _ _ _ hp hret hback hrest

theorem Nests.of_node {i : Nat} {f : Node → Assembler Code}
    (h : ∀ n : Node, n.kind = (p.node i).kind → Nests p limit (f n)) : Nests p limit (node i >>= f) := by
  intro s code s' hp hret hok
  obtain ⟨n, s₁, hnode, hrest⟩ := bind_ok.1 hok
  obtain ⟨rfl, rfl⟩ := node_ok.1 hnode
  exact h _ (hp.kind i) _ _ _ hp hret hrest

theorem nestsOr_construct {back : Option Nat} {i : Nat} {children : List (Nat × Assembler Code)}
    (hkind : (p.node i).kind = .alternation) (h : ∀ c ∈ children, NestsIn p limit c) :
    NestsOr p limit back (construct settings i children) := by
  refine .of_node fun n hn => ?_
  rw [hn, hkind]
  exact nests_alternation h

theorem nests_construct {i : Nat} {children : List (Nat × Assembler Code)}
    (hkind : (p.node i).kind ≠ .alternation) (h : ∀ c ∈ children, Nests p settings.limits.maxCounters c.2) :
    Nests p settings.limits.maxCounters (construct settings i children) := by
  refine .of_node fun n hn => ?_
  rw [hn]
  cases hk : (p.node i).kind with
  | group =>
    refine nests_group fun x hx => ?_
    obtain ⟨c, hc, rfl⟩ := List.mem_map.1 hx
    exact h c hc
  | alternation => exact absurd hk hkind
  | repetition min max => exact nests_repetition h
  | charClass root => exact .of_silent .operand fun _ => .of_emit (by decide) (by decide)
  | action a => exact .of_stays stays_action

end Assembler

namespace Pattern

open Assembler

variable {p : Pattern} {root i : Nat} {settings : Settings}

/-- The loops in the fragment of a node are nested, and those of an alternation also as a shared tail. -/
theorem Acyclic.nests (h : p.Acyclic root) (htails : p.SharesTails root) (hi : p.Reaches root i) :
    Nests p settings.limits.maxCounters ((p.outline i).assemble settings) ∧
      ((p.node i).kind = .alternation → ∀ back,
        NestsOr p settings.limits.maxCounters back ((p.outline i).assemble settings)) := by
  induction i, hi using h.induction with
  | step i hi ih =>
    rw [h.assemble_eq hi]
    have halternation : (p.node i).kind = .alternation → ∀ back,
        NestsOr p settings.limits.maxCounters back (construct settings i
          ((p.node i).children.map fun j => (j, (p.outline j).assemble settings))) := by
      intro hkind back
      refine nestsOr_construct hkind fun c hc => ?_
      obtain ⟨j, hj, rfl⟩ := List.mem_map.1 hc
      exact ⟨(ih j hj).1, fun htail place => (ih j hj).2 (htails i hi hkind j hj htail) _⟩
    refine ⟨?_, halternation⟩
    by_cases hkind : (p.node i).kind = .alternation
    · exact (halternation hkind none).nests
    · refine nests_construct hkind fun c hc => ?_
      obtain ⟨j, hj, rfl⟩ := List.mem_map.1 hc
      exact (ih j hj).1

end Pattern

/-! ## Programs -/

namespace Assembler

variable {p : Pattern} {settings : Settings} {s s' : Assembly} {code : Code} {root : Nat}

/-- The loops of a program are nested. -/
theorem program_nested (h : p.Acyclic root) (htails : p.SharesTails root) (hp : s.pattern.Alike p)
    (hret : s.returns = []) (hok : program settings root s = .ok code s') :
    code.Nested s.position s.counter settings.limits.maxCounters (Set.Icc (s.position : Int) s'.position) := by
  rw [program_eq, hp.outline] at hok
  have hall : Nests p settings.limits.maxCounters (inSequence [searchStart root,
      (p.outline root).assemble settings, emit Template.yieldThread [], emit Template.reportMatch []]) := by
    refine .inSequence fun x hx => ?_
    simp only [List.mem_cons, List.not_mem_nil, or_false] at hx
    rcases hx with rfl | rfl | rfl | rfl
    · exact .of_stays stays_searchStart
    · exact (h.nests htails .refl).1
    · exact .of_emit (by decide) (by decide)
    · exact .of_emit (by decide) (by decide)
  exact (hall _ _ _ hp hret hok).2

end Assembler

namespace Pattern

open Assembler

variable {p p' : Pattern} {root : Nat} {options : CompileOptions} {limits : Limits} {code : Code}

/-- Every instruction that counts down ends a loop: it goes back to the place after the one that sets its
counter, nothing else in between uses the counter, and nothing outside leads into the loop. Two loops are apart,
or one of them is inside the other. -/
theorem assemble_loops (h : p.Acyclic root) (htails : p.SharesTails root) (hroot : p.root = some root)
    (hok : p.assemble options limits = .ok code p') :
    (∀ (last : Nat) i, code[last]? = some i → Opcode.isLoopTest i.opcode = true →
      ∃ head counter : Nat, code.Loop 0 limits.maxCounters head last counter) ∧
    ∀ head last counter head' last' counter', code.Loop 0 limits.maxCounters head last counter →
      code.Loop 0 limits.maxCounters head' last' counter' →
      last < head' ∨ last' < head ∨ (head ≤ head' ∧ last' ≤ last) ∨ (head' ≤ head ∧ last ≤ last') := by
  obtain ⟨c, q, hbuild, hpure⟩ := bind_ok.1 hok
  obtain ⟨rfl, rfl⟩ := pure_ok.1 hpure
  obtain ⟨root', guardCount, q₁, q₂, hroot', hnumber, hguards, hprogram, -⟩ := build_ok hbuild
  obtain rfl : root = root' := Option.some.inj (hroot.symm.trans hroot')
  obtain ⟨-, s, hassembled, -⟩ := assembleProgram_ok hprogram
  have hprepared : q₁.Prepared p := (number_same hnumber).trans noteStart_same
  have hnoted : q₂.Alike q₁ := keeps_noteGuards _ _ _ hguards
  have hnested := program_nested (hnoted.acyclic (hprepared.acyclic h))
    (hnoted.sharesTails (hprepared.sharesTails htails)) (.refl _) rfl hassembled
  refine ⟨fun last i hi htest => hnested.loop last i (Code.at_zero.2 hi) htest, ?_⟩
  intro head last counter head' last' counter' hloop hloop'
  exact hloop.disjoint_or_nested hloop'

/-- A class or a shared tail, up to three times. The tail is twice another class. -/
def loopInTail : Pattern where
  nodes := #[
    { kind := .group, children := [1] },
    { kind := .repetition 0 (some 3), children := [2] },
    { kind := .alternation, children := [3, 4] },
    { kind := .charClass 10 },
    { kind := .alternation, attributes := { sharedTail := true }, children := [5] },
    { kind := .repetition 2 (some 2), children := [6] },
    { kind := .group, attributes := { uncaptured := true }, children := [7] },
    { kind := .charClass 11 }]
  root := some 0

open Opcode in
/-- The program of `loopInTail`. Its loops go from 2 to 19 and from 13 to 15. -/
def loopInTailCode : Code :=
  [ ⟨markStart, 0, 0, false⟩,
    Code.setCount 0 3,
    Code.forkTo 2 20 false,
    ⟨character ||| zeroWidth ||| branch, 1, 10, false⟩,
    Code.forkTo 4 7 false,
    Code.jumpTo 5 9,
    ⟨test ||| negate, 0, 0, true⟩,
    ⟨character, 0, 10, false⟩,
    Code.forkTo 8 18 true,
    ⟨character ||| zeroWidth ||| branch, 1, 11, false⟩,
    Code.forkTo 10 12 false,
    Code.jumpTo 11 6,
    Code.setCount 1 2,
    ⟨character, 0, 11, false⟩,
    Code.forkTo 14 15 true,
    Code.countDown 1 15 13,
    Code.forkTo 16 17 true,
    Code.forkTo 17 18 true,
    Code.forkTo 18 19 true,
    Code.countDown 0 19 2,
    Code.setCount 0 0,
    Code.forkTo 21 22 true,
    ⟨markEnd, 0, 0, false⟩,
    Code.forkTo 23 24 true,
    ⟨report, 0, 0, true⟩ ]

/-- What is found out about `loopInTail`: a mark, and two classes that are tested ahead. -/
def loopInTailNoted : Pattern :=
  ((loopInTail.update 0 ({ · with mark := some 0 })).updateAttributes 3
    ({ · with previewed := true })).updateAttributes 7 ({ · with previewed := true })

/-- Two counters are enough for the two loops, and the inner one has the second. -/
theorem assemble_loops_loopInTail :
    loopInTail.Acyclic 0 ∧ loopInTail.SharesTails 0 ∧ loopInTail.root = some 0 ∧
    loopInTail.assemble {} { maxCounters := 2 } = .ok loopInTailCode loopInTailNoted ∧
    (∀ (last : Nat) i, loopInTailCode[last]? = some i → Opcode.isLoopTest i.opcode = true →
      ∃ head counter : Nat, loopInTailCode.Loop 0 2 head last counter) ∧
    ∀ head last counter head' last' counter', loopInTailCode.Loop 0 2 head last counter →
      loopInTailCode.Loop 0 2 head' last' counter' →
      last < head' ∨ last' < head ∨ (head ≤ head' ∧ last' ≤ last) ∨ (head' ≤ head ∧ last ≤ last') := by
  have hacyclic : loopInTail.Acyclic 0 := acyclic_of_lt (by decide) (by decide)
  have hshared : ∀ i < 8, (loopInTail.node i).kind = .alternation →
      ∀ j ∈ (loopInTail.node i).children, (loopInTail.node j).attributes.sharedTail = true →
        (loopInTail.node j).kind = .alternation := by decide
  have htails : loopInTail.SharesTails 0 := fun i hi => hshared i (hacyclic.lt i hi)
  have hassemble : loopInTail.assemble {} { maxCounters := 2 } =
      .ok loopInTailCode loopInTailNoted := by decide +kernel
  exact ⟨hacyclic, htails, rfl, hassemble, assemble_loops hacyclic htails rfl hassemble⟩

end Pattern
end ByteMatch
