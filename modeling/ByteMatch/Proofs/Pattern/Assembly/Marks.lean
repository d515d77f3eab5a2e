import Mathlib.Algebra.BigOperators.Group.List.Defs
import ByteMatch.Pattern.Program
import ByteMatch.Proofs.Instruction.Marks
import ByteMatch.Proofs.Pattern.Assembly.Guards

/-!
# ByteMatch.Proofs.Pattern.Assembly.Marks

The marks that a fragment uses.

A lookahead or lazy group that does not capture takes the next free mark, and the groups in it take later
ones. A repetition may emit its child several times, and then each time with the same marks.

* `Pattern.Marks`: the marks of a node and of the nodes below it, if the ones from some number on are free.
* `Assembler.Uses`: whenever a step succeeds, the instructions of its fragment that use marks make a string of
  some language.
* `Assembler.uses_construct`: the fragment of a node uses the marks of the node.
-/

namespace ByteMatch

open Step

namespace Pattern

variable {p q : Pattern} {limit next i : Nat} {alternativeMark : Option Nat} {t : Nesting}

/-- Whether the node is a lookahead or a lazy group that does not capture. -/
def ownsMark (p : Pattern) (i : Nat) : Bool :=
  (p.node i).kind == .group && (p.node i).mark.isNone &&
    ((p.node i).attributes.lookahead || (p.node i).attributes.lazy)

/-- The mark of a group. -/
def groupMark (p : Pattern) (i next : Nat) : Option Nat :=
  if p.ownsMark i then some next else (p.node i).mark

/-- The marks that are free in a node are those from this number on. -/
def nextMark (p : Pattern) (i next : Nat) : Nat := if p.ownsMark i then next + 1 else next

/-- The instruction that opens a group. The mark of the root is set where the match starts. -/
def openingMarks (isLazy : Bool) : Option Nat → Code
  | some mark =>
    if isLazy then [⟨Opcode.setContext, mark, 0, false⟩]
    else if mark ≠ 0 then [⟨Opcode.markStart, mark, 0, false⟩]
    else []
  | none => []

/-- The instruction that closes a group. -/
def closingMarks (lookahead : Bool) : Option Nat → Code
  | some mark =>
    if lookahead then [⟨Opcode.resetToMark, mark, 0, false⟩] else [⟨Opcode.markEnd, mark, 0, false⟩]
  | none => []

/-- The instruction that records an alternative. -/
def alternativeMarks (p : Pattern) (alternativeMark : Option Nat) (i : Nat) : Code :=
  if (p.node i).attributes.sharedTail then []
  else match alternativeMark, (p.node i).altIndex with
    | some mark, some index => [⟨Opcode.setMark, mark, index, false⟩]
    | _, _ => []

/-- The marks of a node and of the nodes below it. Those from `next` up to `limit` are free. -/
inductive Marks (p : Pattern) (limit : Nat) (alternativeMark : Option Nat) : Nat → Nesting → Prop
  | group {next i : Nat} {parts : List Nesting} (hkind : (p.node i).kind = .group)
      (hroom : p.ownsMark i = true → next < limit)
      (hplaces : parts.map Nesting.place = (p.node i).children)
      (h : ∀ t ∈ parts, Marks p limit alternativeMark (p.nextMark i next) t) :
      Marks p limit alternativeMark next
        (.node i (openingMarks (p.node i).attributes.lazy (p.groupMark i next)) parts
          (closingMarks (p.node i).attributes.lookahead (p.groupMark i next)))
  | alternation {next i : Nat} {parts : List Nesting} (hkind : (p.node i).kind = .alternation)
      (hplaces : parts.map Nesting.place = (p.node i).children)
      (h : ∀ t ∈ parts, Marks p limit alternativeMark next t) :
      Marks p limit alternativeMark next
        (.node i [] (parts.map fun t => .node i (p.alternativeMarks alternativeMark t.place) [t] []) [])
  | repetition {next i child min : Nat} {max : Option Nat} {parts : List Nesting} {rest : List Nat}
      (hkind : (p.node i).kind = .repetition min max) (hchildren : (p.node i).children = child :: rest)
      (hplaces : ∀ t ∈ parts, t.place = child) (hparts : parts = [] ↔ mostIterations min max = 0)
      (h : ∀ t ∈ parts, Marks p limit alternativeMark next t) :
      Marks p limit alternativeMark next (.node i [] parts [])
  | charClass {next i root : Nat} (hkind : (p.node i).kind = .charClass root) :
      Marks p limit alternativeMark next (.node i [] [] [])
  | action {next i : Nat} {a : Action} (hkind : (p.node i).kind = .action a) :
      Marks p limit alternativeMark next (.node i [] [] [])

/-- The instructions of a node and of the nodes below it that use marks. -/
def markings (p : Pattern) (limit : Nat) (alternativeMark : Option Nat) (next i : Nat) :
    Language Instruction :=
  {w | ∃ t, t.place = i ∧ p.Marks limit alternativeMark next t ∧ t.code = w}

/-- Those of several nodes. -/
theorem exists_of_mem_prod {is : List Nat} {w : Code}
    (h : w ∈ (is.map (p.markings limit alternativeMark next)).prod) :
    ∃ parts : List Nesting, parts.map Nesting.place = is ∧
      (∀ t ∈ parts, p.Marks limit alternativeMark next t) ∧ Nesting.codeList parts = w := by
  induction is generalizing w with
  | nil => exact ⟨[], rfl, by simp, h.symm⟩
  | cons i rest ih =>
    rw [List.map_cons, List.prod_cons, Language.mem_mul] at h
    obtain ⟨_, ⟨t, hplace, hmarks, rfl⟩, v, hv, rfl⟩ := h
    obtain ⟨parts, hplaces, hparts, rfl⟩ := ih hv
    exact ⟨t :: parts, by rw [List.map_cons, hplace, hplaces],
      List.forall_mem_cons.2 ⟨hmarks, hparts⟩, rfl⟩

/-- Those of several alternatives, each after the instruction that records it. -/
theorem exists_of_mem_prod_alternatives {is : List Nat} {before : Nat → Code} {w : Code}
    (h : w ∈ (is.map fun j => {before j} * p.markings limit alternativeMark next j).prod) :
    ∃ parts : List Nesting, parts.map Nesting.place = is ∧
      (∀ t ∈ parts, p.Marks limit alternativeMark next t) ∧
      Nesting.codeList (parts.map fun t => .node i (before t.place) [t] []) = w := by
  induction is generalizing w with
  | nil => exact ⟨[], rfl, by simp, h.symm⟩
  | cons j rest ih =>
    rw [List.map_cons, List.prod_cons, Language.mem_mul] at h
    obtain ⟨_, ⟨_, rfl, _, ⟨t, rfl, hmarks, rfl⟩, rfl⟩, v, hv, rfl⟩ := h
    obtain ⟨parts, rfl, hparts, rfl⟩ := ih hv
    refine ⟨t :: parts, rfl, List.forall_mem_cons.2 ⟨hmarks, hparts⟩, ?_⟩
    simp [Nesting.codeList, Nesting.code]

end Pattern

/-- Strings of a language, one after the other. There is at least one of them unless `n` is zero. -/
def several (L : Language Instruction) (n : Nat) : Language Instruction :=
  {w | ∃ k, (k = 0 ↔ n = 0) ∧ w ∈ L ^ k}

section Several

variable {L : Language Instruction} {n m : Nat} {w v : Code}

theorem several_zero : several L 0 = 1 := by
  refine Language.ext fun w => ⟨?_, fun h => ⟨0, by simp, h⟩⟩
  rintro ⟨k, hk, hw⟩
  obtain rfl := hk.2 rfl
  exact hw

theorem mem_several (hn : n ≠ 0) (h : w ∈ L) : w ∈ several L n :=
  ⟨1, by simp [hn], by rwa [pow_one]⟩

theorem append_mem_several (h : w ∈ several L n) (h' : v ∈ several L m) : w ++ v ∈ several L (n + m) := by
  obtain ⟨a, ha, hw⟩ := h
  obtain ⟨b, hb, hv⟩ := h'
  refine ⟨a + b, by omega, ?_⟩
  rw [pow_add]
  exact Language.append_mem_mul hw hv

end Several

/-! ## Instructions that use no marks -/

namespace Code

@[simp] theorem usesMark_forkTo {place target : Nat} {halt : Bool} :
    Opcode.usesMark (forkTo place target halt).opcode = false := rfl

@[simp] theorem usesMark_jumpTo {place target : Nat} :
    Opcode.usesMark (jumpTo place target).opcode = false := rfl

@[simp] theorem usesMark_setCount {counter : Nat} {count : Int} :
    Opcode.usesMark (setCount counter count).opcode = false := rfl

@[simp] theorem usesMark_countDown {counter place head : Nat} :
    Opcode.usesMark (countDown counter place head).opcode = false := rfl

@[simp] theorem usesMark_null : Opcode.usesMark Opcode.null = false := rfl

@[simp] theorem marks_forkTest {preview : Option Nat} : marks (Assembler.forkTest preview) = [] := by
  cases preview <;> rfl

end Code

namespace Assembler

open Pattern

variable {α : Type} {settings : Settings} {s s' s₁ : Assembly} {code : Code} {q : Pattern} {n : Nat}
  {W V : Language Instruction}

/-- The step takes no mark, and of the pattern it only notes what an assembly finds out. -/
def Steady (x : Assembler α) : Prop :=
  ∀ s a s', x s = .ok a s' → s'.pattern.SameUpTo Node.assembled s.pattern ∧ s'.nextMark = s.nextMark

/-- Whenever the step succeeds in the assembly of a pattern like `q` when the marks from `n` on are free, the
instructions of its fragment that use marks make a string of `W`. -/
def Uses (q : Pattern) (n : Nat) (W : Language Instruction) (x : Assembler Code) : Prop :=
  ∀ s code s', s.pattern.SameUpTo Node.assembled q → s.nextMark = n → x s = .ok code s' →
    s'.pattern.SameUpTo Node.assembled q ∧ s'.nextMark = n ∧ code.marks ∈ W

namespace Steady

theorem of_eq {x : Assembler α}
    (h : ∀ s a s', x s = .ok a s' → s'.pattern = s.pattern ∧ s'.nextMark = s.nextMark) : Steady x :=
  fun s a s' hok => ⟨(h s a s' hok).1 ▸ .refl _, (h s a s' hok).2⟩

theorem node {i : Nat} : Steady (Assembler.node i) := of_eq fun _ _ _ h => by
  simp [(node_ok.1 h).2]

theorem operand {role : OperandRole} {value : Int} : Steady (operand role value) :=
  of_eq fun _ _ _ h => by simp [(operand_ok h).2]

theorem assertionClass {a : AssertionClass} : Steady (assertionClass a) :=
  of_eq fun _ _ _ h => by simp [assertionClass_ok h]

theorem position : Steady position := of_eq fun _ _ _ h => by simp [(position_ok.1 h).2]

theorem distanceTo {target ahead : Nat} : Steady (distanceTo target ahead) :=
  of_eq fun _ _ _ h => by simp [(distanceTo_ok h).2]

theorem takePreview {i : Nat} : Steady (takePreview i) := by
  intro s preview s' h
  rcases takePreview_steps h with ⟨-, rfl⟩ | ⟨v, -, -, rfl | ⟨place, rfl⟩⟩
  · exact ⟨.refl _, rfl⟩
  · exact ⟨.refl _, rfl⟩
  · exact ⟨.of_update rfl, rfl⟩

theorem takeGuard {i : Nat} : Steady (takeGuard i) := by
  intro s guard s' h
  rcases takeGuard_steps h with ⟨-, rfl⟩ | ⟨place, g, -, -, rfl⟩
  · exact ⟨.refl _, rfl⟩
  · exact ⟨.of_update rfl, rfl⟩

theorem nextPreview {following : Option Nat} : Steady (nextPreview following) := by
  cases following with
  | none => exact of_eq fun _ _ _ h => by simp [← (pure_ok.1 h).2]
  | some following => exact takePreview

theorem uncontrol {i : Nat} : Steady (updateAttributes i ({ · with controlling := false })) := by
  intro s u s' h
  obtain rfl := updateAttributes_ok h
  exact ⟨.of_update rfl, rfl⟩

end Steady

namespace Uses

variable {x y z : Assembler Code}

theorem mono (h : Uses q n W x) (hW : ∀ w ∈ W, w ∈ V) : Uses q n V x := by
  intro s code s' hs hn hok
  obtain ⟨hs', hn', hcode⟩ := h s code s' hs hn hok
  exact ⟨hs', hn', hW _ hcode⟩

theorem of_pure (h : code.marks ∈ W) : Uses q n W (pure code) := by
  intro s code' s' hs hn hok
  obtain ⟨rfl, rfl⟩ := pure_ok.1 hok
  exact ⟨hs, hn, h⟩

theorem nil : Uses q n 1 (pure []) := of_pure rfl

theorem of_throw {e : CompileError} : Uses q n W (throw e) := fun _ _ _ _ _ hok => (throw_ok.1 hok).elim

theorem of_emit {t : Template} {args : List Int} (h : (t.fill args).marks ∈ W) :
    Uses q n W (emit t args) := by
  intro s code s' hs hn hok
  obtain ⟨rfl, rfl⟩ := emit_ok hok
  exact ⟨hs, hn, h⟩

/-- An instance of a template that uses no marks. -/
theorem of_markFree {t : Template} {args : List Int} (h : t.markFree = true) : Uses q n 1 (emit t args) :=
  of_emit (Template.marks_fill h args)

theorem of_steady {x : Assembler α} {f : α → Assembler Code} (hx : Steady x) (h : ∀ a, Uses q n W (f a)) :
    Uses q n W (x >>= f) := by
  intro s code s' hs hn hok
  obtain ⟨a, s₁, hok₁, hrest⟩ := bind_ok.1 hok
  obtain ⟨hs₁, hn₁⟩ := hx _ _ _ hok₁
  exact h a s₁ code s' (hs₁.trans hs) (hn₁.trans hn) hrest

theorem of_operand {role : OperandRole} {value : Int} {f : Int → Assembler Code}
    (h : Uses q n W (f value)) : Uses q n W (operand role value >>= f) := by
  intro s code s' hs hn hok
  obtain ⟨x, s₁, hx, hrest⟩ := bind_ok.1 hok
  obtain ⟨rfl, rfl⟩ := operand_ok hx
  exact h _ _ _ hs hn hrest

/-- A node is as in `q`, but for what the assembly has found out. -/
theorem of_node {i : Nat} {f : Node → Assembler Code}
    (h : ∀ v : Node, v.assembled = (q.node i).assembled → Uses q n W (f v)) :
    Uses q n W (Assembler.node i >>= f) := by
  intro s code s' hs hn hok
  obtain ⟨v, s₁, hnode, hrest⟩ := bind_ok.1 hok
  obtain ⟨rfl, rfl⟩ := node_ok.1 hnode
  exact h _ (hs.node i) _ _ _ hs hn hrest

theorem of_get {f : Assembly → Assembler Code} (h : ∀ t, Uses q n W (f t)) : Uses q n W (get >>= f) :=
  of_steady (.of_eq fun _ _ _ hget => by simp [(get_ok.1 hget).2]) h

/-- What is done after a fragment, if no mark is taken. -/
theorem keep {y : Assembler α} (hx : Uses q n W x) (hy : Steady y) :
    Uses q n W (do
      let code ← x
      let _ ← y
      pure code) := by
  intro s code s' hs hn hok
  obtain ⟨code', s₁, hok₁, hrest⟩ := bind_ok.1 hok
  obtain ⟨_, s₂, hok₂, hpure⟩ := bind_ok.1 hrest
  obtain ⟨rfl, rfl⟩ := pure_ok.1 hpure
  obtain ⟨hs₁, hn₁, hcode⟩ := hx s _ _ hs hn hok₁
  obtain ⟨hs₂, hn₂⟩ := hy _ _ _ hok₂
  exact ⟨hs₂.trans hs₁, hn₂.trans hn₁, hcode⟩

/-- What is done with a fragment that uses no marks. -/
theorem of_nothing {f : Code → Assembler Code} (hx : Uses q n 1 x)
    (h : ∀ code : Code, code.marks = [] → Uses q n W (f code)) : Uses q n W (x >>= f) := by
  intro s code s' hs hn hok
  obtain ⟨a, s₁, hok₁, hrest⟩ := bind_ok.1 hok
  obtain ⟨hs₁, hn₁, ha⟩ := hx s _ _ hs hn hok₁
  exact h a ha _ _ _ hs₁ hn₁ hrest

theorem append (hx : Uses q n W x) (hy : Uses q n V y) :
    Uses q n (W * V) (do
      let code ← x
      let more ← y
      pure (code ++ more)) := by
  intro s code s' hs hn hok
  obtain ⟨a, s₁, hok₁, hrest⟩ := bind_ok.1 hok
  obtain ⟨b, s₂, hok₂, hpure⟩ := bind_ok.1 hrest
  obtain ⟨rfl, rfl⟩ := pure_ok.1 hpure
  obtain ⟨hs₁, hn₁, ha⟩ := hx s _ _ hs hn hok₁
  obtain ⟨hs₂, hn₂, hb⟩ := hy _ _ _ hs₁ hn₁ hok₂
  rw [Code.marks_append]
  exact ⟨hs₂, hn₂, Language.append_mem_mul ha hb⟩

theorem inSequence {Ws : List (Language Instruction)} {xs : List (Assembler Code)}
    (h : List.Forall₂ (Uses q n) Ws xs) : Uses q n Ws.prod (inSequence xs) := by
  induction h with
  | nil => exact nil
  | cons hx _ ih =>
    rw [List.prod_cons, Assembler.inSequence]
    exact hx.append ih

/-- Steps that use no marks. -/
theorem inSequence_nothing {xs : List (Assembler Code)} (h : ∀ x ∈ xs, Uses q n 1 x) :
    Uses q n 1 (Assembler.inSequence xs) := by
  induction xs with
  | nil => exact nil
  | cons x rest ih =>
    rw [List.forall_mem_cons] at h
    rw [Assembler.inSequence, ← one_mul 1]
    exact h.1.append (ih h.2)

end Uses

/-! ## Assertions -/

theorem uses_failBetween {before after : GraphemeBreak} : Uses q n 1 (failBetween before after) :=
  .of_steady .assertionClass fun _ => .of_steady .assertionClass fun _ => .of_markFree (by decide)

theorem uses_grapheme : Uses q n 1 grapheme := by
  refine .of_steady .position fun place => .inSequence_nothing fun x hx => ?_
  simp only [List.mem_cons, List.not_mem_nil, or_false] at hx
  rcases hx with rfl | rfl | rfl | rfl | rfl | rfl | rfl | rfl | rfl | rfl | rfl | rfl | rfl
  · exact .of_steady .distanceTo fun _ => .of_markFree (by decide)
  · exact .of_steady .distanceTo fun _ => .of_markFree (by decide)
  · exact uses_failBetween
  · exact .of_steady .assertionClass fun _ => .of_steady .distanceTo fun _ => .of_markFree (by decide)
  · exact .of_steady .assertionClass fun _ => .of_steady .distanceTo fun _ => .of_markFree (by decide)
  · exact uses_failBetween
  · exact uses_failBetween
  · exact uses_failBetween
  · exact uses_failBetween
  · exact .of_steady .assertionClass fun _ => .of_markFree (by decide)
  · exact .of_steady .assertionClass fun _ => .of_markFree (by decide)
  · exact .of_steady .assertionClass fun _ => .of_markFree (by decide)
  · exact .of_steady .assertionClass fun _ => .of_markFree (by decide)

theorem uses_action {a : Action} : Uses q n 1 (action a) := by
  cases a with
  | bufferStart | bufferEnd =>
    rw [action]
    exact .of_markFree (by decide)
  | backreference target =>
    cases target with
    | mark mark =>
      rw [action]
      exact .of_markFree (by decide)
    | name name => exact .of_throw
  | textStart | textEnd =>
    rw [action]
    exact .of_steady .assertionClass fun _ => .of_markFree (by decide)
  | wordBoundary | notWordBoundary =>
    rw [action]
    exact .of_steady .assertionClass fun _ => .of_steady .assertionClass fun _ => .of_markFree (by decide)
  | grapheme => exact uses_grapheme

/-! ## Groups -/

theorem uses_groupStart {isLazy : Bool} {mark : Option Nat} :
    Uses q n {openingMarks isLazy mark} (groupStart isLazy mark) := by
  cases mark with
  | none => exact .nil
  | some mark =>
    rw [groupStart, openingMarks]
    split
    · exact .of_emit rfl
    · split
      · exact .of_emit rfl
      · exact .nil

theorem uses_groupEnd {lookahead : Bool} {mark : Option Nat} :
    Uses q n {closingMarks lookahead mark} (groupEnd lookahead mark) := by
  cases mark with
  | none => exact .nil
  | some mark =>
    rw [groupEnd, closingMarks]
    split
    · exact .of_emit rfl
    · exact .of_emit rfl

/-- The words of a group: its mark before and after those of its children. -/
theorem mem_markings_group (settings : Settings) {i : Nat} (hkind : (q.node i).kind = .group)
    (hroom : q.ownsMark i = true → n < settings.limits.marks) {w : Code}
    (h : w ∈ ({openingMarks (q.node i).attributes.lazy (q.groupMark i n)} * ((q.node i).children.map
      (q.markings settings.limits.marks settings.alternativeMark (q.nextMark i n))).prod *
        {closingMarks (q.node i).attributes.lookahead (q.groupMark i n)} : Language Instruction)) :
    w ∈ q.markings settings.limits.marks settings.alternativeMark n i := by
  obtain ⟨_, ⟨_, rfl, v, hv, rfl⟩, _, rfl, rfl⟩ := h
  obtain ⟨parts, hplaces, hparts, rfl⟩ := exists_of_mem_prod hv
  exact ⟨_, rfl, .group hkind hroom hplaces hparts, rfl⟩

theorem uses_groupParts {W : Nat → Language Instruction} {f : Nat → Assembler Code} {children : List Nat}
    (h : ∀ j ∈ children, Uses q n (W j) (f j)) (isLazy lookahead : Bool) (mark : Option Nat) :
    Uses q n ({openingMarks isLazy mark} * (children.map W).prod * {closingMarks lookahead mark})
      (inSequence (groupStart isLazy mark :: children.map f ++ [groupEnd lookahead mark])) := by
  have hparts := List.forall₂_map_left_iff.2 (List.forall₂_map_right_iff.2 (List.forall₂_same.2 h))
  have hopens : Uses q n {openingMarks isLazy mark} (groupStart isLazy mark) := uses_groupStart
  have hcloses : Uses q n {closingMarks lookahead mark} (groupEnd lookahead mark) := uses_groupEnd
  have hall := Uses.inSequence (.cons hopens (List.rel_append hparts (.cons hcloses .nil)))
  rwa [List.prod_cons, List.prod_append, List.prod_singleton, ← mul_assoc] at hall

/-- A group uses its mark before and after those of its children. -/
theorem uses_group {i : Nat} {f : Nat → Assembler Code} (hkind : (q.node i).kind = .group)
    (h : ∀ j ∈ (q.node i).children, Uses q (q.nextMark i n)
      (q.markings settings.limits.marks settings.alternativeMark (q.nextMark i n) j) (f j)) :
    Uses q n (q.markings settings.limits.marks settings.alternativeMark n i)
      (group settings i ((q.node i).children.map f)) := by
  refine .of_node fun v hv => ?_
  have hmark : v.mark = (q.node i).mark := congrArg (·.mark) hv
  have hlookahead : v.attributes.lookahead = (q.node i).attributes.lookahead :=
    congrArg (·.attributes.lookahead) hv
  have hlazy : v.attributes.lazy = (q.node i).attributes.lazy := congrArg (·.attributes.lazy) hv
  have howns : q.ownsMark i = ((q.node i).mark.isNone &&
      ((q.node i).attributes.lookahead || (q.node i).attributes.lazy)) := by
    rw [ownsMark, hkind]
    rfl
  have hmem := fun w hroom => mem_markings_group (n := n) settings hkind hroom (w := w)
  simp only
  rw [hlazy, hlookahead, hmark, ← howns]
  split
  · rename_i hown
    rw [groupMark, nextMark, if_pos hown, if_pos hown] at hmem
    rw [nextMark, if_pos hown] at h
    intro s code s' hs hn hok
    obtain ⟨mark, s₁, htake, hrest₁⟩ := bind_ok.1 hok
    obtain ⟨rfl, hroom, rfl⟩ := takeMark_ok htake
    obtain ⟨code', s₂, hcode, hrest₂⟩ := bind_ok.1 hrest₁
    obtain ⟨_, s₃, hrelease, hpure⟩ := bind_ok.1 hrest₂
    obtain ⟨rfl, rfl⟩ := pure_ok.1 hpure
    obtain rfl := modify_ok.1 hrelease
    subst hn
    obtain ⟨hs', hn', hword⟩ :=
      uses_groupParts h _ _ _ { s with nextMark := s.nextMark + 1 } _ _ hs rfl hcode
    exact ⟨hs', Nat.sub_eq_of_eq_add hn', hmem _ (fun _ => hroom) hword⟩
  · rename_i hown
    rw [groupMark, nextMark, if_neg hown, if_neg hown] at hmem
    rw [nextMark, if_neg hown] at h
    exact (uses_groupParts h _ _ _).mono fun w hw => hmem w (fun h => absurd h hown) hw

/-! ## Alternations -/

/-- The tests before a fork use no marks. -/
theorem decisionTests_marks {guard : Option Int} {preview : Option Nat} {tests : Code}
    (h : decisionTests guard preview s = .ok tests s') :
    s'.pattern = s.pattern ∧ s'.nextMark = s.nextMark ∧ tests.marks = [] := by
  have hguard : ∀ {guard distance : Int}, Code.marks
      [⟨Opcode.test ||| Opcode.negate ||| Opcode.guard, guard, distance, false⟩] = [] := rfl
  cases guard with
  | none =>
    cases preview with
    | none =>
      obtain ⟨rfl, rfl⟩ := pure_ok.1 h
      exact ⟨rfl, rfl, rfl⟩
    | some root =>
      obtain ⟨rfl, rfl⟩ := charZero_laid h
      exact ⟨rfl, rfl, Code.marks_forkTest⟩
  | some guard =>
    cases preview with
    | none =>
      obtain ⟨rfl, rfl⟩ := alternativeGuard_laid h
      exact ⟨rfl, rfl, hguard⟩
    | some root =>
      obtain ⟨test, more, s₁, htests, hmore, rfl⟩ := inSequence_cons_ok h
      obtain ⟨look, more', s₂, hlook, hnil, rfl⟩ := inSequence_cons_ok hmore
      obtain ⟨rfl, rfl⟩ := pure_ok.1 hnil
      obtain ⟨rfl, rfl⟩ := alternativeGuard_laid htests
      obtain ⟨rfl, rfl⟩ := charZero_laid hlook
      rw [List.append_nil, Code.marks_append, hguard, Code.marks_forkTest]
      exact ⟨rfl, rfl, rfl⟩

/-- The tests of the fork use no marks, and a placeholder is after them. -/
def Fork.Markless (fork : Fork) : Prop :=
  ∃ (tests : Code) (blank : Instruction) (place : Nat),
    fork = ⟨tests ++ [blank], place⟩ ∧ tests.marks = []

/-- The decisions of an alternation use no marks. -/
theorem decisions_marks {children : List (Nat × Assembler Code)} {forks : List Fork}
    (h : decisions children s = .ok forks s') :
    s'.pattern.SameUpTo Node.assembled s.pattern ∧ s'.nextMark = s.nextMark ∧
      forks.length = children.length ∧ ∀ fork ∈ forks, fork.Markless := by
  induction children generalizing s forks with
  | nil =>
    obtain ⟨rfl, rfl⟩ := pure_ok.1 h
    exact ⟨.refl _, rfl, rfl, by simp⟩
  | cons c rest ih =>
    obtain ⟨fork, s₁, hfork, hrest⟩ := bind_ok.1 h
    obtain ⟨more, s₂, hmore, hpure⟩ := bind_ok.1 hrest
    obtain ⟨rfl, rfl⟩ := pure_ok.1 hpure
    obtain ⟨preview, guard, tests, t₁, t₂, t₃, hpreview, hguard, htests, rfl, rfl⟩ := decision_steps hfork
    obtain ⟨hs₁, hn₁⟩ := Steady.takePreview _ _ _ hpreview
    obtain ⟨hs₂, hn₂⟩ := Steady.takeGuard _ _ _ hguard
    obtain ⟨hpattern, hn₃, hmarks⟩ := decisionTests_marks htests
    obtain ⟨hs', hn', hlength, hforks⟩ := ih hmore
    refine ⟨hs'.trans ?_, ?_, by rw [List.length_cons, hlength, List.length_cons],
      List.forall_mem_cons.2 ⟨⟨tests, _, _, rfl, hmarks⟩, hforks⟩⟩
    · simp only [hpattern]
      exact hs₂.trans hs₁
    · rw [hn', ← hn₁, ← hn₂, ← hn₃]

theorem decisionEnd_marks {stop : Code} (h : decisionEnd s = .ok stop s') :
    s'.pattern = s.pattern ∧ s'.nextMark = s.nextMark ∧ stop.marks = [] := by
  rcases decisionEnd_steps h with ⟨-, rfl, rfl⟩ | ⟨place, rest, -, rfl, rfl⟩
  · exact ⟨rfl, rfl, rfl⟩
  · exact ⟨rfl, rfl, rfl⟩

theorem uses_alternativeMark {i : Nat} {v : Node} (hv : v.assembled = (q.node i).assembled)
    (htail : (q.node i).attributes.sharedTail = false) :
    Uses q n {q.alternativeMarks settings.alternativeMark i} (alternativeMark settings v) := by
  have hindex : v.altIndex = (q.node i).altIndex := congrArg (·.altIndex) hv
  unfold alternativeMark alternativeMarks
  rw [htail, hindex, if_neg Bool.false_ne_true]
  cases settings.alternativeMark with
  | none => exact .nil
  | some mark =>
    cases (q.node i).altIndex with
    | none => exact .nil
    | some index => exact .of_operand (.of_emit rfl)

/-- An alternative uses the mark that records it, and then those of its part. -/
theorem alternative_marks {fork i : Nat} {part : Assembler Code} {a : Alternative}
    (hpart : Uses q n W part) (hs : s.pattern.SameUpTo Node.assembled q) (hn : s.nextMark = n)
    (h : alternative settings fork i part s = .ok a s') :
    s'.pattern.SameUpTo Node.assembled q ∧ s'.nextMark = n ∧ Opcode.usesMark a.entry.opcode = false ∧
      ∃ (code : Code) (blank : Instruction) (place : Nat), a = ⟨a.entry, code ++ [blank], place⟩ ∧
        code.marks ∈ {q.alternativeMarks settings.alternativeMark i} * W := by
  obtain ⟨entry, mark, code, s₁, s₂, hentered, hcode, rfl, rfl⟩ := alternative_steps h
  have hsame : (s.pattern.node i).attributes.sharedTail = (q.node i).attributes.sharedTail :=
    hs.get (·.attributes.sharedTail) (fun _ => rfl) i
  rw [Entered, hsame] at hentered
  cases htail : (q.node i).attributes.sharedTail with
  | true =>
    rw [htail, if_pos rfl] at hentered
    obtain ⟨rfl, rfl, rfl⟩ := hentered
    obtain ⟨hs', hn', hword⟩ := hpart { s with returns := (fork + 1) :: s.returns } _ _ hs hn hcode
    refine ⟨hs', hn', rfl, _, _, _, rfl, ?_⟩
    unfold alternativeMarks
    rw [htail, if_pos rfl]
    exact Language.append_mem_mul (a := []) rfl hword
  | false =>
    rw [htail, if_neg Bool.false_ne_true] at hentered
    obtain ⟨rfl, hmark⟩ := hentered
    obtain ⟨hs₁, hn₁, hmarked⟩ := uses_alternativeMark (hs.node i) htail s _ _ hs hn hmark
    obtain ⟨hs', hn', hword⟩ := hpart _ _ _ hs₁ hn₁ hcode
    refine ⟨hs', hn', rfl, _, _, _, rfl, ?_⟩
    rw [Code.marks_append]
    exact Language.append_mem_mul hmarked hword

theorem alternatives_marks {is : List Nat} {f : Nat → Assembler Code} {M : Nat → Language Instruction}
    {forks : List Fork} {parts : List Alternative} (finish : Nat) (hf : ∀ i ∈ is, Uses q n (M i) (f i))
    (hlength : forks.length = is.length) (hforks : ∀ fork ∈ forks, fork.Markless)
    (hs : s.pattern.SameUpTo Node.assembled q) (hn : s.nextMark = n)
    (h : alternatives settings forks (is.map fun i => (i, f i)) s = .ok parts s') :
    s'.pattern.SameUpTo Node.assembled q ∧ s'.nextMark = n ∧ (resolveForks forks parts).marks = [] ∧
      (resolveEnds finish parts).marks ∈
        (is.map fun i => {q.alternativeMarks settings.alternativeMark i} * M i).prod := by
  induction is generalizing forks parts s with
  | nil =>
    obtain rfl : forks = [] := List.length_eq_zero_iff.1 hlength
    obtain ⟨rfl, rfl⟩ := pure_ok.1 h
    exact ⟨hs, hn, rfl, rfl⟩
  | cons i rest ih =>
    obtain ⟨fork, forks, rfl⟩ := List.exists_cons_of_length_eq_add_one hlength
    rw [List.forall_mem_cons] at hforks hf
    obtain ⟨⟨tests, blank, place, rfl, htests⟩, hforks⟩ := hforks
    obtain ⟨first, s₁, hfirst, hrest⟩ := bind_ok.1 h
    obtain ⟨more, s₂, hmore, hpure⟩ := bind_ok.1 hrest
    obtain ⟨rfl, rfl⟩ := pure_ok.1 hpure
    obtain ⟨hs₁, hn₁, hentry, code, blank', place', ha, hcode⟩ := alternative_marks hf.1 hs hn hfirst
    obtain ⟨hs₂, hn₂, hdecisions, hends⟩ := ih hf.2 (Nat.succ.inj hlength) hforks hs₁ hn₁ hmore
    refine ⟨hs₂, hn₂, ?_, ?_⟩
    · rw [resolveForks_cons, Code.marks_append, Code.marks_cons, hentry, htests, hdecisions]
      rfl
    · rw [ha, resolveEnds_cons, Code.marks_append, Code.marks_cons, Code.usesMark_forkTo,
        if_neg Bool.false_ne_true, List.map_cons, List.prod_cons]
      exact Language.append_mem_mul hcode hends

/-- An alternation uses the marks of its alternatives. -/
theorem uses_alternation {i : Nat} {f : Nat → Assembler Code} (hkind : (q.node i).kind = .alternation)
    (h : ∀ j ∈ (q.node i).children, Uses q n
      (q.markings settings.limits.marks settings.alternativeMark n j) (f j)) :
    Uses q n (q.markings settings.limits.marks settings.alternativeMark n i)
      (alternation settings ((q.node i).children.map fun j => (j, f j))) := by
  intro s code s' hs hn hok
  obtain ⟨forks, stop, parts, s₁, s₂, hforks, hstop, hparts, rfl⟩ := alternation_steps hok
  obtain ⟨hs₁, hn₁, hlength, hshape⟩ := decisions_marks hforks
  obtain ⟨hpattern, hn₂, hstopped⟩ := decisionEnd_marks hstop
  obtain ⟨hs', hn', hdecisions, hends⟩ := alternatives_marks s'.position h
    (by rwa [List.length_map] at hlength) hshape (hpattern ▸ hs₁.trans hs)
    (hn₂.trans (hn₁.trans hn)) hparts
  refine ⟨hs', hn', ?_⟩
  rw [Code.marks_append, Code.marks_append, hdecisions, hstopped]
  obtain ⟨parts, hplaces, hmarks, hcode⟩ := exists_of_mem_prod_alternatives hends
  exact ⟨_, rfl, .alternation hkind hplaces hmarks, by simpa [Nesting.code] using hcode⟩

/-! ## Repetitions -/

theorem uses_counted {count : Int} {part : Assembler Code} (h : Uses q n W part) :
    Uses q n W (counted settings count part) := by
  intro s code s' hs hn hok
  obtain ⟨body, s₁, hbody, rfl, rfl⟩ := counted_ok hok
  obtain ⟨hs', hn', hword⟩ := h { s with counter := s.counter + 1, position := s.position + 1 } _ _ hs hn hbody
  exact ⟨hs', hn', by simpa using hword⟩

theorem uses_skippable {preview : Option Nat} {part : Assembler Code} (h : Uses q n W part) :
    Uses q n W (skippable preview part) := by
  intro s code s' hs hn hok
  obtain ⟨body, hbody, rfl⟩ := skippable_ok hok
  obtain ⟨hs', hn', hword⟩ :=
    h { s with position := s.position + (forkTest preview).length + 1 } _ _ hs hn hbody
  exact ⟨hs', hn', by simpa using hword⟩

theorem uses_loopTo {counter head : Nat} : Uses q n 1 (loopTo counter head) := by
  intro s code s' hs hn hok
  obtain ⟨rfl, rfl⟩ := loopTo_ok hok
  exact ⟨hs, hn, rfl⟩

theorem uses_yielding {part : Assembler Code} (h : Uses q n W part) :
    Uses q n W (inSequence [part, emit Template.yieldThread []]) := by
  have hyield : Uses q n 1 (emit Template.yieldThread []) := .of_markFree (by decide)
  have hall := Uses.inSequence (.cons h (.cons hyield .nil))
  simpa only [List.prod_cons, List.prod_nil, mul_one] using hall

/-- Optional iterations use the marks of the part once, if there are any. -/
theorem uses_optional {preview : Option Nat} {part : Assembler Code} {count : Int} (h : Uses q n W part) :
    Uses q n (several W count.toNat) (optional settings preview part count) := by
  rw [optional]
  split
  · rename_i hone
    exact (uses_skippable h).mono fun w => mem_several (by omega)
  · split
    · rename_i hmany
      intro s code s' hs hn hok
      obtain ⟨rounds, s₁, hrounds, rfl, rfl⟩ := optionalLoop_ok hok
      have hround : Uses q n W
          (inSequence [part, emit Template.yieldThread [], loopTo s.counter (s.position + 1)]) := by
        have hyield : Uses q n 1 (emit Template.yieldThread []) := .of_markFree (by decide)
        have hback : Uses q n 1 (loopTo s.counter (s.position + 1)) := uses_loopTo
        have hall := Uses.inSequence (.cons h (.cons hyield (.cons hback .nil)))
        simpa only [List.prod_cons, List.prod_nil, mul_one] using hall
      obtain ⟨hs', hn', hword⟩ := uses_skippable hround
        { s with counter := s.counter + 1, position := s.position + 1 } _ _ hs hn hrounds
      exact ⟨hs', hn', mem_several (by omega) (by simpa using hword)⟩
    · rename_i hone hmany
      rw [Int.toNat_of_nonpos (by omega), several_zero]
      exact .nil

theorem uses_copies {t : Template} {root : Int} {count : Nat} (h : Uses q n 1 (emit t [root])) :
    Uses q n 1 (copies t root count) := by
  induction count with
  | zero => exact .nil
  | succ count ih =>
    rw [copies, ← one_mul 1]
    exact h.append ih

theorem uses_requiredCharacters {t : Template} {root : Int} {min : Nat} (h : Uses q n 1 (emit t [root])) :
    Uses q n 1 (requiredCharacters settings t root min) := by
  rw [requiredCharacters]
  split
  · exact uses_copies h
  · exact uses_counted h

/-- Required iterations use the marks of the part once or twice, if there are any. -/
theorem uses_required {child min : Nat} {part : Assembler Code} (h : Uses q n W part) :
    Uses q n (several W min) (required settings child part min) := by
  have hlooped : ∀ count : Nat, Uses q n W
      (counted settings count (inSequence [part, emit Template.yieldThread []])) :=
    fun count => uses_counted (uses_yielding h)
  unfold required
  match min with
  | 0 =>
    rw [several_zero]
    exact .nil
  | 1 => exact h.mono fun w => mem_several Nat.one_ne_zero
  | count + 2 =>
    refine .of_get fun t => ?_
    simp only
    split
    · -- the first iteration stands apart
      have hrest : Uses q n W (if count = 0 then part else counted settings ((count + 1 : Nat) : Int)
          (inSequence [part, emit Template.yieldThread []])) := by
        split
        · exact h
        · exact hlooped _
      have hall := Uses.inSequence (.cons h (.cons hrest .nil))
      refine hall.mono fun w hw => ⟨2, by simp, ?_⟩
      simpa only [List.prod_cons, List.prod_nil, mul_one, pow_two] using hw
    · exact (hlooped _).mono fun w => mem_several (by omega)

/-! ### Optional characters -/

theorem uses_branches {t : Template} (ht : t.markFree = true) {root distance : Int} {count : Nat} :
    Uses q n 1 (branches t root distance count) := by
  induction count generalizing distance with
  | zero => exact .nil
  | succ count ih =>
    rw [branches, ← one_mul 1]
    exact .of_operand ((Uses.of_markFree ht).append ih)

theorem uses_disjoint {t : Template} (ht : t.markFree = true) {root count : Int} :
    Uses q n 1 (disjoint settings t root count) := by
  rw [disjoint]
  split
  · exact uses_branches ht
  · refine .inSequence_nothing fun x hx => ?_
    rcases List.mem_pair.1 hx with rfl | rfl
    · exact uses_branches ht
    · intro s code s' hs hn hok
      obtain ⟨rfl, rfl⟩ := disjointLoop_ok hok
      exact ⟨hs, hn, by simp [Template.marks_fill ht]⟩

/-! ### Repetitions of characters and of other parts -/

theorem uses_loopGuard {v : Node} : Uses q n 1 (loopGuard v) := by
  rw [loopGuard]
  split
  · split
    · exact .of_steady .operand fun _ => .of_markFree (by decide)
    · exact .of_throw
  · exact .nil

theorem uses_iterations {v : Node} {first more : Assembler Code} (hfirst : Uses q n W first)
    (hmore : Uses q n V more) :
    Uses q n (W * V) (do
      let a ← loopGuard v
      let b ← first
      let c ← more
      pure (a ++ b ++ c)) := by
  have hall := ((uses_loopGuard (v := v)).append hfirst).append hmore
  simpa only [one_mul, bind_assoc, pure_bind] using hall

theorem uses_characterRepetition {v : Node} {root : Int} {min : Nat} {max : Option Nat} :
    Uses q n 1 (characterRepetition settings v root min max) := by
  have hchar : Uses q n 1
      (emit (if v.attributes.controlling then Template.charAnchor else Template.char) [root]) := by
    split
    · exact .of_markFree (by decide)
    · exact .of_markFree (by decide)
  have hbranch : Template.markFree
      (if v.attributes.controlling then Template.charAnchorBranch else Template.charBranchTo) = true := by
    split
    · decide
    · decide
  have hfirst : Uses q n 1 (requiredCharacters settings
      (if v.attributes.controlling then Template.charAnchor else Template.char) root min) :=
    uses_requiredCharacters hchar
  rw [characterRepetition, ← one_mul 1]
  cases hdisjoint : v.attributes.disjoint with
  | true => exact uses_iterations hfirst (uses_disjoint hbranch)
  | false =>
    have hmore : Uses q n 1 (do
        optional settings (← nextPreview v.lookAhead)
          (emit (if v.attributes.controlling then Template.charAnchor else Template.char) [root])
          (optionalCount min max)) := by
      refine .of_steady .nextPreview fun _ => (uses_optional hchar).mono fun w hw => ?_
      obtain ⟨k, -, hw⟩ := hw
      rwa [one_pow] at hw
    have hall := uses_iterations (v := v) hfirst hmore
    simpa only [Bool.false_eq_true, if_false, bind_assoc] using hall

theorem uses_partRepetition {v : Node} {child min : Nat} {max : Option Nat} {part : Assembler Code}
    (h : Uses q n W part) :
    Uses q n (several W (mostIterations min max)) (partRepetition settings v child part min max) := by
  have hmore : Uses q n (several W (optionalCount min max).toNat) (do
      optional settings (← nextPreview v.lookAhead) part (optionalCount min max)) :=
    .of_steady .nextPreview fun _ => uses_optional h
  have hfirst : Uses q n (several W min) (required settings child part min) := uses_required h
  have hall := uses_iterations (v := v) hfirst hmore
  rw [mostIterations_eq]
  refine Uses.mono ?_ (W := several W min * several W (optionalCount min max).toNat) ?_
  · simpa only [partRepetition, bind_assoc] using hall
  · rintro _ ⟨u, hu, w, hw, rfl⟩
    exact append_mem_several hu hw

/-- A repetition uses the marks of its child several times, and a repetition of characters uses none. -/
theorem uses_repetition {i child min : Nat} {max : Option Nat} {part : Assembler Code} {rest : List Nat}
    {children : List (Nat × Assembler Code)} (hkind : (q.node i).kind = .repetition min max)
    (hchildren : (q.node i).children = child :: rest)
    (h : Uses q n (q.markings settings.limits.marks settings.alternativeMark n child) part) :
    Uses q n (q.markings settings.limits.marks settings.alternativeMark n i)
      (repetition settings i min max ((child, part) :: children)) := by
  have hmem : ∀ w ∈ several (q.markings settings.limits.marks settings.alternativeMark n child)
      (mostIterations min max), w ∈ q.markings settings.limits.marks settings.alternativeMark n i := by
    rintro w ⟨k, hk, hw⟩
    rw [← List.prod_replicate, ← List.map_replicate] at hw
    obtain ⟨parts, hplaces, hparts, rfl⟩ := exists_of_mem_prod hw
    have hlength : parts.length = k := by simpa using congrArg List.length hplaces
    refine ⟨_, rfl, .repetition hkind hchildren (fun t ht => ?_) ?_ hparts, by simp [Nesting.code]⟩
    · exact List.eq_of_mem_replicate (hplaces ▸ List.mem_map_of_mem ht)
    · rw [← hk, ← hlength, List.length_eq_zero_iff]
  rw [repetition]
  refine .of_steady .node fun v => .of_node fun c hc => ?_
  have hclass : c.kind = (q.node child).kind := congrArg (·.kind) hc
  simp only [hclass]
  cases hroot : (q.node child).kind with
  | charClass root =>
    have hsingle : ([] : Code) ∈ q.markings settings.limits.marks settings.alternativeMark n child :=
      ⟨_, rfl, .charClass hroot, rfl⟩
    have hnothing : ∀ w ∈ (1 : Language Instruction),
        w ∈ q.markings settings.limits.marks settings.alternativeMark n i := by
      rintro _ rfl
      refine hmem _ ⟨if mostIterations min max = 0 then 0 else 1, by split <;> simp_all, ?_⟩
      split
      · exact rfl
      · rwa [pow_one]
    exact .of_operand ((uses_characterRepetition.keep .uncontrol).mono hnothing)
  | group | alternation | repetition | action =>
    exact ((uses_partRepetition h).keep .uncontrol).mono hmem

/-! ## Nodes -/

/-- A node uses its marks. -/
theorem uses_construct {i : Nat} {f : Nat → Assembler Code}
    (h : ∀ j ∈ (q.node i).children, ∀ n, Uses q n
      (q.markings settings.limits.marks settings.alternativeMark n j) (f j)) :
    Uses q n (q.markings settings.limits.marks settings.alternativeMark n i)
      (construct settings i ((q.node i).children.map fun j => (j, f j))) := by
  refine .of_node fun v hv => ?_
  have hkind : v.kind = (q.node i).kind := congrArg (·.kind) hv
  rw [hkind]
  cases hk : (q.node i).kind with
  | group =>
    simp only [List.map_map]
    exact uses_group hk fun j hj => h j hj _
  | alternation => exact uses_alternation hk fun j hj => h j hj n
  | repetition min max =>
    cases hchildren : (q.node i).children with
    | nil => exact .of_throw
    | cons child rest => exact uses_repetition hk hchildren (h child (by simp [hchildren]) n)
  | charClass root =>
    refine .of_operand (.of_emit ?_)
    exact ⟨_, rfl, .charClass hk, rfl⟩
  | action a =>
    refine uses_action.mono ?_
    rintro _ rfl
    exact ⟨_, rfl, .action hk, rfl⟩

end Assembler
end ByteMatch
