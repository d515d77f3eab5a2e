import ByteMatch.Pattern.Program
import ByteMatch.Proofs.Instruction.Loops
import ByteMatch.Proofs.Pattern.Assembly.Alternation
import ByteMatch.Proofs.Pattern.Assembly.Group
import ByteMatch.Proofs.Pattern.Assembly.Repetition

/-!
# ByteMatch.Proofs.Pattern.Assembly.Plain

Steps that emit no loops.

Assertions, marks, guards and the search for the start of a match have no parts of their own. Their fragments
use no counters, and control only leaves them for the instruction that comes next.

* `Assembler.Silent`: steps that emit nothing.
* `Assembler.Stays`: whenever a step succeeds, its fragment is plain and its jumps stay in it.
* `Assembler.decisions_forks`: the forks of an alternation, whose tests lead to the place after a fork.
-/

namespace ByteMatch

open Step

namespace Code

variable {place target : Nat} {halt : Bool} {preview : Option Nat} {T : Set Int}

theorem add_distance : (place : Int) + ((target : Int) - place) = target := by omega

theorem plain_forkTo (h : (target : Int) ∈ T) : Plain [forkTo place target halt] place T :=
  .jump (by decide) (by decide) (by decide) (by rwa [add_distance]) .nil

theorem plain_jumpTo (h : (target : Int) ∈ T) : Plain [jumpTo place target] place T :=
  .jump (by decide) (by decide) (by decide) (by rwa [add_distance]) .nil

theorem plain_forkTest (h : ((place + (Assembler.forkTest preview).length + 1 : Nat) : Int) ∈ T) :
    Plain (Assembler.forkTest preview) place T := by
  cases preview with
  | none => exact .nil
  | some root => exact .branch (by decide) (by decide) (by decide) h .nil

end Code

namespace Assembler

open Code

variable {α : Type} {settings : Settings} {s s' : Assembly} {code : Code} {place stop root : Nat}

/-! ## Steps -/

/-- The step emits nothing, and gives back what it takes but for a mark. -/
def Silent (x : Assembler α) : Prop := ∀ s a s', x s = .ok a s' → Emitted s [] s'

/-- Whenever the step succeeds, its fragment uses no counters, and its jumps stay in it. -/
def Stays (x : Assembler Code) : Prop :=
  ∀ s code s', x s = .ok code s' →
    Emitted s code s' ∧ code.Plain s.position (Set.Icc (s.position : Int) s'.position)

namespace Silent

theorem of_eq {x : Assembler α} (h : ∀ s a s', x s = .ok a s' → s' = s) : Silent x := by
  intro s a s' hok
  obtain rfl := h s a s' hok
  exact .nil

theorem node {i : Nat} : Silent (node i) := of_eq fun _ _ _ h => (node_ok.1 h).2.symm

theorem operand {role : OperandRole} {value : Int} : Silent (operand role value) :=
  of_eq fun _ _ _ h => (operand_ok h).2

theorem assertionClass {a : AssertionClass} : Silent (assertionClass a) :=
  of_eq fun _ _ _ h => assertionClass_ok h

theorem takePreview {i : Nat} : Silent (takePreview i) := fun _ _ _ h => (takePreview_ok h).1

theorem takeGuard {i : Nat} : Silent (takeGuard i) := fun _ _ _ h => takeGuard_ok h

theorem nextPreview {following : Option Nat} : Silent (nextPreview following) := by
  cases following with
  | none => exact of_eq fun _ _ _ h => (pure_ok.1 h).2.symm
  | some following => exact takePreview

theorem takeMark : Silent (takeMark settings) := by
  intro s mark s' h
  obtain ⟨-, -, rfl⟩ := takeMark_ok h
  exact ⟨.refl _, rfl, rfl, rfl⟩

theorem releaseMark : Silent releaseMark := by
  intro s u s' h
  obtain rfl := modify_ok.1 h
  exact ⟨.refl _, rfl, rfl, rfl⟩

theorem uncontrol {i : Nat} : Silent (updateAttributes i ({ · with controlling := false })) := by
  intro s u s' h
  obtain rfl := updateAttributes_ok h
  exact ⟨Pattern.alike_updateAttributes fun _ => rfl, rfl, rfl, rfl⟩

end Silent

namespace Stays

variable {x y : Assembler Code}

theorem nil : Stays (pure []) := by
  intro s code s' hok
  obtain ⟨rfl, rfl⟩ := pure_ok.1 hok
  exact ⟨.nil, .nil⟩

theorem of_throw {e : CompileError} : Stays (throw e) := fun _ _ _ hok => (throw_ok.1 hok).elim

/-- An instance of a template that uses no counters and whose jumps do not leave it. -/
theorem of_emit {t : Template} {args : List Int} (hfree : t.counterFree = true)
    (hjump : t.jumpsInside 0 = true) : Stays (emit t args) := by
  intro s code s' hok
  refine ⟨.of_emit hok, ?_⟩
  obtain ⟨rfl, rfl⟩ := emit_ok hok
  rw [t.length_fill args]
  exact Template.plain_fill hfree hjump args _

theorem of_silent {x : Assembler α} {f : α → Assembler Code} (hx : Silent x) (h : ∀ a, Stays (f a)) :
    Stays (x >>= f) := by
  intro s code s' hok
  obtain ⟨a, s₁, hok₁, hrest⟩ := bind_ok.1 hok
  have hnone := hx _ _ _ hok₁
  have hposition : s₁.position = s.position := hnone.position
  obtain ⟨hemit, hplain⟩ := h a s₁ code s' hrest
  rw [hposition] at hplain
  exact ⟨hnone.append hemit, hplain⟩

theorem append (hx : Stays x) (hy : Stays y) :
    Stays (do
      let code ← x
      let more ← y
      pure (code ++ more)) := by
  intro s code s' hok
  obtain ⟨a, s₁, hok₁, hrest⟩ := bind_ok.1 hok
  obtain ⟨b, s₂, hok₂, hpure⟩ := bind_ok.1 hrest
  obtain ⟨rfl, rfl⟩ := pure_ok.1 hpure
  obtain ⟨hemit, hplain⟩ := hx _ _ _ hok₁
  obtain ⟨hemit', hplain'⟩ := hy _ _ _ hok₂
  have hposition := hemit.position
  have hposition' := hemit'.position
  rw [hposition] at hplain'
  refine ⟨hemit.append hemit', .append (hplain.mono ?_) (hplain'.mono ?_)⟩
  · exact Set.Icc_subset_Icc_right (by omega)
  · exact Set.Icc_subset_Icc_left (by omega)

end Stays

theorem distanceTo_ok {target ahead : Nat} {x : Int} (h : distanceTo target ahead s = .ok x s') :
    x = target - s.position - ahead ∧ s' = s := by
  obtain ⟨place, s₁, hplace, hpure⟩ := bind_ok.1 h
  obtain ⟨rfl, rfl⟩ := position_ok.1 hplace
  obtain ⟨rfl, rfl⟩ := pure_ok.1 hpure
  exact ⟨rfl, rfl⟩

/-! ## Assertions -/

/-- The step emits `n` instructions that use no counters. Their jumps lead from the beginning of the fragment up
to `finish`, which is not before its end. -/
def Spans (finish n : Nat) (x : Assembler Code) : Prop :=
  ∀ s code s', x s = .ok code s' → s.position + n ≤ finish →
    Emitted s code s' ∧ code.length = n ∧ code.Plain s.position (Set.Icc (s.position : Int) finish)

namespace Spans

variable {finish n : Nat} {x : Assembler Code} {t : Template} {op : UInt8}

theorem of_emit {args : List Int} (hfree : t.counterFree = true) (hjump : t.jumpsInside 0 = true) :
    Spans finish t.length (emit t args) := by
  intro s code s' hok hroom
  refine ⟨.of_emit hok, ?_⟩
  obtain ⟨rfl, rfl⟩ := emit_ok hok
  refine ⟨t.length_fill args, (Template.plain_fill hfree hjump args _).mono ?_⟩
  exact Set.Icc_subset_Icc_right (by omega)

theorem of_silent {x : Assembler α} {f : α → Assembler Code} (hx : Silent x) (h : ∀ a, Spans finish n (f a)) :
    Spans finish n (x >>= f) := by
  intro s code s' hok hroom
  obtain ⟨a, s₁, hok₁, hrest⟩ := bind_ok.1 hok
  have hnone := hx _ _ _ hok₁
  have hposition : s₁.position = s.position := hnone.position
  rw [← hposition] at hroom ⊢
  obtain ⟨hemit, hplain⟩ := h a s₁ code s' hrest hroom
  exact ⟨hnone.append hemit, hplain⟩

theorem inSequence {ns : List Nat} {xs : List (Assembler Code)} (h : List.Forall₂ (Spans finish) ns xs) :
    Spans finish ns.sum (inSequence xs) := by
  induction h with
  | nil =>
    intro s code s' hok _
    obtain ⟨rfl, rfl⟩ := pure_ok.1 hok
    exact ⟨.nil, rfl, .nil⟩
  | cons hx _ ih =>
    intro s code s' hok hroom
    obtain ⟨a, b, s₁, ha, hb, rfl⟩ := inSequence_cons_ok hok
    rw [List.sum_cons] at hroom ⊢
    obtain ⟨hemit, hlength, hplain⟩ := hx _ _ _ ha (by omega)
    have hposition := hemit.position
    obtain ⟨hemit', hlength', hplain'⟩ := ih _ _ _ hb (by omega)
    refine ⟨hemit.append hemit', by rw [List.length_append, hlength, hlength'], hplain.append ?_⟩
    rw [← hposition]
    exact hplain'.mono (Set.Icc_subset_Icc_left (by omega))

theorem failBetween {before after : GraphemeBreak} : Spans finish 2 (failBetween before after) :=
  .of_silent .assertionClass fun _ => .of_silent .assertionClass fun _ => .of_emit (by decide) (by decide)

/-- A jump to the end. -/
theorem jump {index : Int} (ht : ∀ x, t.fill [x] = [⟨op, index, x, false⟩]) (hjump : Opcode.isJump op = true)
    (hbranch : Opcode.isBranch op = false) (hfree : Opcode.usesCounter op = false) :
    Spans finish 1 (do emit t [← distanceTo finish 0]) := by
  intro s code s' hok hroom
  obtain ⟨x, s₁, hx, hemit⟩ := bind_ok.1 hok
  obtain ⟨rfl, rfl⟩ := distanceTo_ok hx
  refine ⟨.of_emit hemit, ?_⟩
  obtain ⟨rfl, rfl⟩ := emit_ok hemit
  rw [ht]
  refine ⟨rfl, .jump hjump hbranch hfree ?_ .nil⟩
  exact ⟨by omega, by omega⟩

/-- A test that branches over the jump to the end that follows it. -/
theorem testedJump {root : Int}
    (ht : ∀ x, t.fill [root, x] = [⟨op, 1, root, false⟩, ⟨Opcode.test, 0, x, false⟩])
    (hjump : Opcode.isJump op = false) (hbranch : Opcode.isBranch op = true)
    (hfree : Opcode.usesCounter op = false) : Spans finish 2 (do emit t [root, ← distanceTo finish 1]) := by
  intro s code s' hok hroom
  obtain ⟨x, s₁, hx, hemit⟩ := bind_ok.1 hok
  obtain ⟨rfl, rfl⟩ := distanceTo_ok hx
  refine ⟨.of_emit hemit, ?_⟩
  obtain ⟨rfl, rfl⟩ := emit_ok hemit
  rw [ht]
  refine ⟨rfl, .branch hjump hbranch hfree ?_ (.jump (by decide) (by decide) (by decide) ?_ .nil)⟩
  · exact ⟨by omega, by omega⟩
  · exact ⟨by omega, by omega⟩

end Spans

/-- The jumps of the test for a grapheme cluster lead to the instruction that comes next. -/
theorem stays_grapheme : Stays grapheme := by
  intro s code s' hok
  obtain ⟨place, s₁, hplace, hrest⟩ := bind_ok.1 hok
  obtain ⟨rfl, rfl⟩ := position_ok.1 hplace
  -- the parts have as many instructions as the length says
  have hparts : ∀ {xs ns}, inSequence xs s = .ok code s' →
      List.Forall₂ (Spans (s.position + graphemeLength)) ns xs → ns.sum = graphemeLength →
      Emitted s code s' ∧ code.Plain s.position (Set.Icc (s.position : Int) s'.position) := by
    intro xs ns hseq hxs hsum
    obtain ⟨hemit, hlength, hplain⟩ := Spans.inSequence hxs _ _ _ hseq (by rw [hsum])
    rw [hemit.position, hlength, hsum]
    exact ⟨hemit, hplain⟩
  have hstart : Spans (s.position + graphemeLength) 1
      (do emit Template.jumpIfStart [← distanceTo (s.position + graphemeLength) 0]) :=
    .jump (fun _ => rfl) (by decide) (by decide) (by decide)
  have hend : Spans (s.position + graphemeLength) 1
      (do emit Template.jumpIfEnd [← distanceTo (s.position + graphemeLength) 0]) :=
    .jump (fun _ => rfl) (by decide) (by decide) (by decide)
  have hafter : ∀ root, Spans (s.position + graphemeLength) 2
      (do emit Template.jumpIfAfter [root, ← distanceTo (s.position + graphemeLength) 1]) :=
    fun _ => .testedJump (fun _ => rfl) (by decide) (by decide) (by decide)
  have hbefore : ∀ root, Spans (s.position + graphemeLength) 2
      (do emit Template.jumpIfBefore [root, ← distanceTo (s.position + graphemeLength) 1]) :=
    fun _ => .testedJump (fun _ => rfl) (by decide) (by decide) (by decide)
  exact hparts hrest
    (.cons hstart (.cons hend
    (.cons .failBetween
    (.cons (.of_silent .assertionClass hafter) (.cons (.of_silent .assertionClass hbefore)
    (.cons .failBetween (.cons .failBetween (.cons .failBetween (.cons .failBetween
    (.cons (.of_silent .assertionClass fun _ => .of_emit (by decide) (by decide))
    (.cons (.of_silent .assertionClass fun _ => .of_emit (by decide) (by decide))
    (.cons (.of_silent .assertionClass fun _ => .of_emit (by decide) (by decide))
    (.cons (.of_silent .assertionClass fun _ => .of_emit (by decide) (by decide)) .nil))))))))))))) rfl

theorem stays_action {a : Action} : Stays (action a) := by
  cases a with
  | bufferStart | bufferEnd =>
    rw [action]
    exact .of_emit (by decide) (by decide)
  | backreference target =>
    cases target with
    | mark mark =>
      rw [action]
      exact .of_emit (by decide) (by decide)
    | name name => exact .of_throw
  | textStart | textEnd =>
    rw [action]
    exact .of_silent .assertionClass fun _ => .of_emit (by decide) (by decide)
  | wordBoundary | notWordBoundary =>
    rw [action]
    exact .of_silent .assertionClass fun _ => .of_silent .assertionClass fun _ =>
      .of_emit (by decide) (by decide)
  | grapheme => exact stays_grapheme

/-- A test that goes on with the next instruction if the guard holds. -/
theorem stays_guardTest {guard : Int} : Stays (emit Template.loopGuard [guard, 1]) := by
  intro s code s' hok
  refine ⟨.of_emit hok, ?_⟩
  obtain ⟨rfl, rfl⟩ := emit_ok hok
  exact .jump (by decide) (by decide) (by decide) ⟨Int.le_add_one (Int.le_refl _), Int.le_refl _⟩ .nil

/-! ## Marks -/

theorem stays_groupStart {isLazy : Bool} {mark : Option Nat} : Stays (groupStart isLazy mark) := by
  cases mark with
  | none => exact .nil
  | some mark =>
    rw [groupStart]
    split
    · exact .of_emit (by decide) (by decide)
    · split
      · exact .of_emit (by decide) (by decide)
      · exact .nil

theorem stays_groupEnd {lookahead : Bool} {mark : Option Nat} : Stays (groupEnd lookahead mark) := by
  cases mark with
  | none => exact .nil
  | some mark =>
    rw [groupEnd]
    split
    · exact .of_emit (by decide) (by decide)
    · exact .of_emit (by decide) (by decide)

theorem stays_alternativeMark {n : Node} : Stays (alternativeMark settings n) := by
  rw [alternativeMark]
  split
  · exact .of_silent .operand fun _ => .of_emit (by decide) (by decide)
  · exact .nil

/-! ## Characters and loop guards -/

theorem stays_char {n : Node} {root : Int} :
    Stays (emit (if n.attributes.controlling then Template.charAnchor else Template.char) [root]) := by
  split
  · exact .of_emit (by decide) (by decide)
  · exact .of_emit (by decide) (by decide)

theorem stays_copies {t : Template} {root : Int} {n : Nat} (h : Stays (emit t [root])) :
    Stays (copies t root n) := by
  induction n with
  | zero => exact .nil
  | succ n ih =>
    rw [copies]
    exact h.append ih

theorem stays_loopGuard {n : Node} : Stays (loopGuard n) := by
  rw [loopGuard]
  split
  · split
    · exact .of_silent .operand fun guard => stays_guardTest
    · exact .of_throw
  · exact .nil

/-- What finds the start of a match has no loops. -/
theorem stays_searchStart : Stays (searchStart root) := by
  refine .of_silent .node fun n => ?_
  simp only
  split
  · exact .of_silent .assertionClass fun _ => .of_emit (by decide) (by decide)
  · have hguard : Stays (do
        let guard ← takeGuard root
        guard.elim (pure []) fun guard => emit Template.loopGuard [guard, 1]) := by
      refine .of_silent .takeGuard fun guard => ?_
      cases guard with
      | none => exact .nil
      | some guard => exact stays_guardTest
    -- what comes after the test for a guard stands in both branches
    cases n.preview with
    | none =>
      have hmark : Stays (emit Template.groupStart [0]) := .of_emit (by decide) (by decide)
      simp only [pure_bind, List.nil_append]
      refine (congrArg Stays ?_).mpr (hguard.append hmark)
      rw [bind_assoc]
      exact bind_congr fun guard => by cases guard <;> simp only [Option.elim, pure_bind, List.nil_append]
    | some c =>
      refine .of_silent .operand fun charClass => ?_
      have hscan : Stays (emit Template.scanFor [charClass]) := .of_emit (by decide) (by decide)
      refine (congrArg Stays (bind_congr fun scan => ?_)).mpr (hscan.append hguard)
      rw [bind_assoc]
      exact bind_congr fun guard => by cases guard <;> simp only [Option.elim, pure_bind, List.append_nil]

/-! ## Forks -/

theorem charZero_laid {root : Nat} {tests : Code}
    (h : (do emit Template.charZero [1, ← operand .charClass root]) s = .ok tests s') :
    tests = forkTest (some root) ∧ s' = { s with position := s.position + 1 } := by
  obtain ⟨x, s₁, hx, hemit⟩ := bind_ok.1 h
  obtain ⟨rfl, rfl⟩ := operand_ok hx
  obtain ⟨rfl, rfl⟩ := emit_ok hemit
  exact ⟨rfl, rfl⟩

theorem alternativeGuard_laid {guard distance : Int} {tests : Code}
    (h : emit Template.alternativeGuard [guard, distance] s = .ok tests s') :
    tests = [⟨Opcode.test ||| Opcode.negate ||| Opcode.guard, guard, distance, false⟩] ∧
      s' = { s with position := s.position + 1 } := by
  obtain ⟨rfl, rfl⟩ := emit_ok h
  exact ⟨rfl, rfl⟩

/-- Forks stand one after the other from the first place to the last one, and their tests lead to the place
after the fork. -/
inductive Forks : Nat → List Fork → Nat → Prop
  | nil {place : Nat} : Forks place [] place
  | cons {place stop : Nat} {tests : Code} {blank : Instruction} {forks : List Fork}
      (htests : tests.Plain place {((place + tests.length + 1 : Nat) : Int)})
      (hrest : Forks (place + tests.length + 1) forks stop) :
      Forks place (⟨tests ++ [blank], place + tests.length⟩ :: forks) stop

theorem Forks.le {forks : List Fork} (h : Forks place forks stop) : place ≤ stop := by
  induction h with
  | nil => exact Nat.le_refl _
  | cons _ _ ih => omega

theorem decisionTests_plain {guard : Option Int} {preview : Option Nat} {tests : Code}
    (h : decisionTests guard preview s = .ok tests s') :
    Emitted s tests s' ∧ tests.Plain s.position {((s.position + tests.length + 1 : Nat) : Int)} := by
  have hguard : ∀ {place : Nat} {guard distance : Int} {T : Set Int} {code : Code},
      (place : Int) + distance ∈ T → code.Plain (place + 1) T → Code.Plain
        (⟨Opcode.test ||| Opcode.negate ||| Opcode.guard, guard, distance, false⟩ :: code) place T :=
    fun hT hcode => .jump (by decide) (by decide) (by decide) hT hcode
  cases guard with
  | none =>
    cases preview with
    | none =>
      obtain ⟨rfl, rfl⟩ := pure_ok.1 h
      exact ⟨.nil, .nil⟩
    | some root =>
      obtain ⟨rfl, rfl⟩ := charZero_laid h
      exact ⟨⟨.refl _, rfl, rfl, rfl⟩, plain_forkTest rfl⟩
  | some guard =>
    cases preview with
    | none =>
      obtain ⟨rfl, rfl⟩ := alternativeGuard_laid h
      exact ⟨⟨.refl _, rfl, rfl, rfl⟩, hguard rfl .nil⟩
    | some root =>
      obtain ⟨test, more, s₁, htest, hmore, rfl⟩ := inSequence_cons_ok h
      obtain ⟨look, more', s₂, hlook, hnil, rfl⟩ := inSequence_cons_ok hmore
      obtain ⟨rfl, rfl⟩ := pure_ok.1 hnil
      obtain ⟨rfl, rfl⟩ := alternativeGuard_laid htest
      obtain ⟨rfl, rfl⟩ := charZero_laid hlook
      rw [List.append_nil]
      refine ⟨⟨.refl _, rfl, rfl, rfl⟩, hguard ?_ (plain_forkTest ?_)⟩
      · rw [Set.mem_singleton_iff, List.length_append, forkTest, List.length_singleton, List.length_singleton]
        omega
      · rw [Set.mem_singleton_iff, List.length_append, forkTest, List.length_singleton, List.length_singleton]

theorem decisions_forks {children : List (Nat × Assembler Code)} {forks : List Fork}
    (h : decisions children s = .ok forks s') :
    Emitted s (forks.flatMap (·.code)) s' ∧ Forks s.position forks s'.position ∧
      forks.length = children.length := by
  induction children generalizing s forks with
  | nil =>
    obtain ⟨rfl, rfl⟩ := pure_ok.1 h
    exact ⟨.nil, .nil, rfl⟩
  | cons c rest ih =>
    obtain ⟨fork, s₁, hfork, hrest⟩ := bind_ok.1 h
    obtain ⟨more, s₂, hmore, hpure⟩ := bind_ok.1 hrest
    obtain ⟨rfl, rfl⟩ := pure_ok.1 hpure
    obtain ⟨preview, guard, tests, t₁, t₂, t₃, hpreview, hguard, htests, rfl, rfl⟩ := decision_steps hfork
    have hnone := (takePreview_ok hpreview).1.append (takeGuard_ok hguard)
    obtain ⟨hemit, hplain⟩ := decisionTests_plain htests
    have htested := hnone.append hemit
    obtain ⟨hemit', hforks, hlength⟩ := ih hmore
    have hstart : t₂.position = s.position := hnone.position
    have hposition : t₃.position = s.position + tests.length := by rw [hemit.position, hstart]
    rw [hstart] at hplain
    simp only [hposition] at hforks ⊢
    exact ⟨(htested.append (.blank _)).append hemit', .cons hplain hforks, by simp [hlength]⟩

end Assembler
end ByteMatch
