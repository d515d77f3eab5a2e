import ByteMatch.Pattern.Program
import ByteMatch.Proofs.Pattern.Assembly.GuardTests
import ByteMatch.Proofs.Pattern.Changes

/-!
# ByteMatch.Proofs.Pattern.Assembly.Failures

The ways in which an assembly may fail.

The limits may be too low, a class may be missing or a number too large for an operand, and a repetition
may have no body. No fragment is left with an instruction that is not known, no shared tail is without a
place to return to, and no template gets the wrong number of arguments.

* `Pattern.Kept`: what the steps of a compilation leave as it is. A repetition that controls the anchor
  has a guard.
* `Pattern.MayFail`: the errors that a pattern may have.
* `Assembler.Completes`: a step emits a fragment whose instructions are all known, unless it fails in one
  of these ways.
* `Assembler.completes_group`, `Assembler.completes_alternation`, `Assembler.completes_repetition`: the
  constructs of a pattern.
-/

namespace ByteMatch

open Step

/-! ## Patterns -/

/-- A repetition that controls the anchor has a guard. -/
def Node.Guarded (n : Node) : Prop := n.attributes.controlling = true → n.guard ≠ none

/-- A change to nodes that leaves the children as they are, makes no repetitions and takes no guards. -/
structure Node.Keeps (f : Node → Node) : Prop where
  children : ∀ n, (f n).children = n.children
  repetition : ∀ n min max, (f n).kind = .repetition min max → n.kind = .repetition min max
  guarded : ∀ n, n.Guarded → (f n).Guarded

/-- A change that has nothing to do with guards. -/
theorem Node.Keeps.of_eq {f : Node → Node} (h : ∀ n, (f n).children = n.children ∧ (f n).kind = n.kind ∧
    (f n).attributes.controlling = n.attributes.controlling ∧ (f n).guard = n.guard) : Node.Keeps f where
  children n := (h n).1
  repetition n min max hkind := (h n).2.1.symm.trans hkind
  guarded n hn hcontrolling := by
    obtain ⟨-, -, hsame, hguard⟩ := h n
    rw [hsame] at hcontrolling
    rw [hguard]
    exact hn hcontrolling

namespace Pattern

variable {p q : Pattern} {root i : Nat}

/-- Some repetition has no body. -/
def HasEmptyRepetition (p : Pattern) (root : Nat) : Prop :=
  ∃ i min max, p.Reaches root i ∧ (p.node i).kind = .repetition min max ∧ (p.node i).children = []

/-- The errors that compiling a pattern may end with. -/
def MayFail (p : Pattern) (root : Nat) : CompileError → Prop
  | .templateArity _ => False
  | .unresolved _ => False
  | .noReturn => False
  | .malformed .missingGuard => False
  | .malformed .emptyRepetition => p.HasEmptyRepetition root
  | _ => True

/-- What a compilation leaves of a pattern. -/
structure Kept (p q : Pattern) : Prop where
  size : q.nodes.size = p.nodes.size
  children : ∀ i, (q.node i).children = (p.node i).children
  repetition : ∀ i min max, (q.node i).kind = .repetition min max → (p.node i).kind = .repetition min max
  guarded : ∀ i, (q.node i).Guarded

namespace Kept

theorem refl (h : ∀ i, (p.node i).Guarded) : p.Kept p := ⟨rfl, fun _ => rfl, fun _ _ _ hk => hk, h⟩

theorem update (h : p.Kept q) {f : Node → Node} (hf : Node.Keeps f) : p.Kept (q.update i f) where
  size := size_update.trans h.size
  children j := by
    rw [node_update]
    split
    · rw [hf.children, h.children]
    · exact h.children j
  repetition j min max hkind := by
    rw [node_update] at hkind
    split at hkind
    · exact h.repetition j min max (hf.repetition _ _ _ hkind)
    · exact h.repetition j min max hkind
  guarded j := by
    rw [node_update]
    split
    · exact hf.guarded _ (h.guarded j)
    · exact h.guarded j

theorem outline (h : p.Kept q) : q.outline = p.outline := outline_of_same h.size h.children

end Kept

end Pattern

/-! ## Fragments -/

namespace Code

variable {code more : Code} {i : Instruction}

/-- All instructions are known. -/
def Resolved (code : Code) : Prop := ∀ i ∈ code, i.opcode ≠ Opcode.null

theorem Resolved.append (h : code.Resolved) (h' : more.Resolved) : Resolved (code ++ more) := by
  intro i hi
  rcases List.mem_append.1 hi with hi | hi
  · exact h i hi
  · exact h' i hi

theorem resolved_nil : Resolved [] := fun _ hi => absurd hi List.not_mem_nil

/-- A fork or a jump has taken the place of a placeholder. -/
theorem Resolved.resolveLast (h : Resolved code.dropLast) (hi : i.opcode ≠ Opcode.null) :
    (code.resolveLast i).Resolved := by
  refine h.append fun j hj => ?_
  rwa [List.mem_singleton.1 hj]

theorem opcode_forkTo_ne {place target : Nat} {halt : Bool} :
    (forkTo place target halt).opcode ≠ Opcode.null := by
  change Opcode.newThread ≠ Opcode.null
  decide

theorem opcode_jumpTo_ne {place target : Nat} : (jumpTo place target).opcode ≠ Opcode.null := by
  change Opcode.test ≠ Opcode.null
  decide

theorem resolved_flatten {codes : List Code} (h : ∀ code ∈ codes, Resolved code) :
    Resolved codes.flatten := by
  intro i hi
  obtain ⟨code, hcode, hi⟩ := List.mem_flatten.1 hi
  exact h code hcode i hi

theorem Resolved.unresolved?_eq (h : code.Resolved) : code.unresolved? = none := by
  rw [unresolved?, List.findIdx?_eq_none_iff]
  intro i hi
  exact beq_eq_false_iff_ne.2 (h i hi)

end Code

/-- Whether the instructions of a template are known. -/
def Template.resolved (t : Template) : Bool := t.all (·.opcode != Opcode.null)

theorem Template.resolved_fill {t : Template} (h : t.resolved = true) (args : List Int) :
    Code.Resolved (t.fill args) := by
  induction t generalizing args with
  | nil => exact Code.resolved_nil
  | cons i rest ih =>
    rw [resolved, List.all_cons, Bool.and_eq_true] at h
    rw [fill]
    intro j hj
    rcases List.mem_cons.1 hj with rfl | hj
    · exact bne_iff_ne.1 h.1
    · exact ih h.2 _ j hj

/-! ## Steps -/

namespace Assembler

variable {α : Type} {p : Pattern} {root : Nat} {settings : Settings}

/-- The step answers what satisfies `post`, unless it fails in a way in which the pattern may fail. -/
abbrev Sound (p : Pattern) (root : Nat) (post : α → Prop) (x : Assembler α) : Prop :=
  Meets (fun s : Assembly => p.Kept s.pattern) (p.MayFail root) post x

/-- The step emits a fragment without placeholders. -/
abbrev Completes (p : Pattern) (root : Nat) (x : Assembler Code) : Prop := Sound p root Code.Resolved x

theorem sound_node {i : Nat} : Sound p root (fun n => n.Guarded ∧ n.children = (p.node i).children ∧
    ∀ min max, n.kind = .repetition min max → (p.node i).kind = .repetition min max) (node i) :=
  .of_get fun _ ht => .pure ⟨ht.guarded i, ht.children i, ht.repetition i⟩

theorem sound_position : Sound p root (fun _ => True) position := .of_get fun _ _ => .pure trivial

theorem sound_updateAttributes {i : Nat} {f : Attributes → Attributes}
    (hf : ∀ a, (f a).controlling = true → a.controlling = true) :
    Sound p root (fun _ => True) (updateAttributes i f) :=
  .modify fun _ ht => ht.update ⟨fun _ => rfl, fun _ _ _ hkind => hkind, fun _ hn hc => hn (hf _ hc)⟩

theorem sound_emit {t : Template} {args : List Int} (harity : t.arity = args.length) :
    Sound p root (· = t.fill args) (emit t args) := by
  rw [emit, Template.instantiate, if_pos harity]
  exact .bind (.modify fun _ ht => ht) fun _ _ => .pure rfl

theorem completes_emit {t : Template} {args : List Int} (harity : t.arity = args.length)
    (hresolved : t.resolved = true) : Completes p root (emit t args) :=
  (sound_emit harity).mono fun _ hcode => hcode ▸ Template.resolved_fill hresolved args

theorem sound_operand {role : OperandRole} {value : Int} :
    Sound p root (fun _ => True) (operand role value) := by
  rw [operand]
  split
  · exact .pure trivial
  · exact .throw trivial

theorem sound_assertionClass {a : AssertionClass} :
    Sound p root (fun _ => True) (assertionClass a) := by
  refine .of_get fun t _ => ?_
  cases t.pattern.assertionClass? a with
  | some c => exact sound_operand
  | none => exact .throw trivial

theorem completes_nil : Completes p root (pure []) := .pure Code.resolved_nil

theorem Completes.append {x y : Assembler Code} (hx : Completes p root x) (hy : Completes p root y) :
    Completes p root (do
      let code ← x
      let more ← y
      pure (code ++ more)) :=
  .bind hx fun _ hcode => .bind hy fun _ hmore => .pure (hcode.append hmore)

theorem completes_inSequence {xs : List (Assembler Code)} (h : ∀ x ∈ xs, Completes p root x) :
    Completes p root (inSequence xs) := by
  induction xs with
  | nil => exact completes_nil
  | cons x rest ih =>
    obtain ⟨hx, hrest⟩ := List.forall_mem_cons.1 h
    exact hx.append (ih hrest)

/-! ### Looking ahead -/

theorem sound_takePreview {i : Nat} : Sound p root (fun _ => True) (takePreview i) := by
  refine .of_get fun t _ => ?_
  simp only
  split
  · rename_i preview _
    cases preview.place with
    | some place => exact .bind (sound_updateAttributes fun _ hc => hc) fun _ _ => .pure trivial
    | none => exact .pure trivial
  · exact .pure trivial

/-- A guard that is looked for is there. -/
theorem sound_takeGuard {i : Nat} : Sound p root (fun _ => True) (takeGuard i) := by
  refine .of_get fun t ht => ?_
  simp only
  split
  · rename_i place guard _
    exact .bind (sound_updateAttributes fun _ hc => hc) fun _ _ => sound_operand.map fun _ _ => trivial
  · rename_i place hguard
    obtain ⟨-, hcontrolling, -, hnone⟩ := Pattern.untestedGuard?_some hguard
    exact absurd hnone (ht.guarded place hcontrolling)
  · exact .pure trivial

/-- The placeholder of a fork is its last instruction. -/
theorem sound_fork {preview : Option Nat} :
    Sound p root (fun code => Code.Resolved code.dropLast) (fork preview) := by
  cases preview with
  | some c =>
    rw [fork]
    refine .bind sound_operand fun x _ => (sound_emit rfl).mono fun code hcode => ?_
    have htest : code.dropLast = Template.charZero.fill [1, x] := by
      rw [hcode]
      rfl
    rw [htest]
    exact Template.resolved_fill (by decide) _
  | none =>
    rw [fork]
    refine (sound_emit rfl).mono fun code hcode => ?_
    rw [hcode]
    exact Code.resolved_nil

theorem completes_skippable {preview : Option Nat} {part : Assembler Code}
    (h : Completes p root part) : Completes p root (skippable preview part) := by
  refine .bind sound_fork fun entry hentry => .bind sound_position fun start _ =>
    .bind h fun code hcode => .bind sound_position fun finish _ => .pure ?_
  exact (hentry.resolveLast Code.opcode_forkTo_ne).append hcode

/-! ### Assertions -/

theorem completes_failBetween {before after : GraphemeBreak} :
    Completes p root (failBetween before after) :=
  .bind sound_assertionClass fun _ _ => .bind sound_assertionClass fun _ _ => completes_emit rfl rfl

theorem sound_distanceTo {target ahead : Nat} : Sound p root (fun _ => True) (distanceTo target ahead) :=
  .bind sound_position fun _ _ => .pure trivial

/-- A test of a class of characters with some grapheme cluster break. -/
theorem completes_graphemeClass {t : Template} {value : GraphemeBreak} (harity : t.arity = 1)
    (hresolved : t.resolved = true) :
    Completes p root (do emit t [← graphemeClass value]) :=
  .bind sound_assertionClass fun _ _ => completes_emit harity hresolved

/-- A jump to the instruction after the whole test. -/
theorem completes_distanceTo {t : Template} {target ahead : Nat} (harity : t.arity = 1)
    (hresolved : t.resolved = true) : Completes p root (do emit t [← distanceTo target ahead]) :=
  .bind sound_distanceTo fun _ _ => completes_emit harity hresolved

theorem completes_control {t : Template} {target ahead : Nat} (harity : t.arity = 2)
    (hresolved : t.resolved = true) :
    Completes p root (do
      let control ← graphemeClass .controlCrLf
      emit t [control, ← distanceTo target ahead]) :=
  .bind sound_assertionClass fun _ _ => .bind sound_distanceTo fun _ _ => completes_emit harity hresolved

theorem completes_grapheme : Completes p root grapheme := by
  refine .bind sound_position fun here _ => completes_inSequence ?_
  simp only [List.forall_mem_cons, List.not_mem_nil, false_implies, implies_true, and_true]
  refine ⟨completes_distanceTo rfl rfl, completes_distanceTo rfl rfl, completes_failBetween,
    completes_control rfl rfl, completes_control rfl rfl, completes_failBetween,
    completes_failBetween, completes_failBetween, completes_failBetween,
    completes_graphemeClass rfl rfl, completes_graphemeClass rfl rfl,
    completes_graphemeClass rfl rfl, ?_⟩
  exact .bind sound_assertionClass fun _ _ => completes_emit rfl rfl

theorem completes_action {a : Action} : Completes p root (action a) := by
  cases a with
  | bufferStart | bufferEnd =>
    rw [action]
    exact completes_emit rfl rfl
  | backreference target =>
    cases target with
    | mark mark =>
      rw [action]
      exact completes_emit rfl rfl
    | name name => exact .throw trivial
  | textStart | textEnd =>
    exact .bind sound_assertionClass fun _ _ => completes_emit rfl rfl
  | wordBoundary | notWordBoundary =>
    exact .bind sound_assertionClass fun _ _ => .bind sound_assertionClass fun _ _ =>
      completes_emit rfl rfl
  | grapheme => exact completes_grapheme

/-! ### Groups -/

theorem completes_groupStart {isLazy : Bool} {mark : Option Nat} :
    Completes p root (groupStart isLazy mark) := by
  cases mark with
  | none => exact completes_nil
  | some mark =>
    rw [groupStart]
    split
    · exact completes_emit rfl rfl
    · split
      · exact completes_emit rfl rfl
      · exact completes_nil

theorem completes_groupEnd {lookahead : Bool} {mark : Option Nat} :
    Completes p root (groupEnd lookahead mark) := by
  cases mark with
  | none => exact completes_nil
  | some mark =>
    rw [groupEnd]
    split
    · exact completes_emit rfl rfl
    · exact completes_emit rfl rfl

theorem sound_takeMark : Sound p root (fun _ => True) (takeMark settings) :=
  .of_get fun _ _ => .check trivial (.bind (.modify fun _ ht => ht) fun _ _ => .pure trivial)

theorem completes_group {i : Nat} {children : List (Assembler Code)}
    (hchildren : ∀ x ∈ children, Completes p root x) : Completes p root (group settings i children) := by
  refine .bind sound_node fun n _ => ?_
  have hparts : ∀ mark, Completes p root (inSequence
      (groupStart n.attributes.lazy mark :: children ++ [groupEnd n.attributes.lookahead mark])) := by
    intro mark
    refine completes_inSequence fun x hx => ?_
    rcases List.mem_append.1 hx with hx | hx
    · rcases List.mem_cons.1 hx with rfl | hx
      · exact completes_groupStart
      · exact hchildren x hx
    · rw [List.mem_singleton.1 hx]
      exact completes_groupEnd
  simp only
  split
  · exact .bind sound_takeMark fun mark _ => .bind (hparts _) fun code hcode =>
      .bind (.modify fun _ ht => ht) fun _ _ => .pure hcode
  · exact hparts _

/-! ### Alternatives -/

theorem completes_decisionTests {guard : Option Int} {preview : Option Nat} :
    Completes p root (decisionTests guard preview) := by
  have htest : ∀ c : Nat, Completes p root (do emit Template.charZero [1, ← operand .charClass c]) :=
    fun c => .bind sound_operand fun _ _ => completes_emit rfl rfl
  have hguard : ∀ guard distance : Int, Completes p root (emit Template.alternativeGuard [guard, distance]) :=
    fun _ _ => completes_emit rfl rfl
  cases guard with
  | none =>
    cases preview with
    | none => exact completes_nil
    | some c => exact htest c
  | some guard =>
    cases preview with
    | none => exact hguard guard 2
    | some c =>
      refine completes_inSequence fun x hx => ?_
      rcases List.mem_pair.1 hx with rfl | rfl
      · exact hguard guard 3
      · exact htest c

/-- Only the last instruction of the fork is not known. -/
def Fork.Resolvable (fork : Fork) : Prop := Code.Resolved fork.code.dropLast

/-- The way to the alternative is known, and so is all of it but the last instruction. -/
structure Alternative.Resolvable (a : Alternative) : Prop where
  entry : a.entry.opcode ≠ Opcode.null
  code : Code.Resolved a.code.dropLast

theorem sound_decision {i : Nat} : Sound p root Fork.Resolvable (decision i) := by
  refine .bind sound_takePreview fun preview _ => .bind sound_takeGuard fun guard _ =>
    .bind completes_decisionTests fun tests htests => .bind sound_position fun place _ =>
    .bind (sound_emit rfl) fun blank hblank => .pure ?_
  have hlast : (tests ++ blank).dropLast = tests := by
    rw [hblank]
    exact List.dropLast_concat
  rwa [Fork.Resolvable, hlast]

/-- A shared tail only returns to a place that has been noted. -/
theorem completes_decisionEnd : Completes p root decisionEnd := by
  refine ⟨fun s hs => ?_⟩
  rw [decisionEnd, bind_get]
  cases hreturns : s.returns with
  | nil =>
    have hstop : Completes p root (emit Template.stopThread []) := completes_emit rfl rfl
    exact hstop.run s hs
  | cons place rest =>
    have htake : takeReturn s = .ok place { s with returns := rest } := by
      rw [takeReturn, bind_get, hreturns]
      rfl
    have hjump : Completes p root (do emit Template.jump [(place : Int) - (← position)]) :=
      .bind sound_position fun _ _ => completes_emit rfl rfl
    rw [if_neg (by simp), bind_of_ok htake]
    exact hjump.run _ hs

theorem completes_alternativeMark {n : Node} : Completes p root (alternativeMark settings n) := by
  rw [alternativeMark]
  split
  · exact .bind sound_operand fun _ _ => completes_emit rfl rfl
  · exact completes_nil

theorem sound_alternative {fork i : Nat} {part : Assembler Code} (h : Completes p root part) :
    Sound p root Alternative.Resolvable (alternative settings fork i part) := by
  have hrest : ∀ entry : Instruction, ∀ mark : Code, entry.opcode ≠ Opcode.null → mark.Resolved →
      Sound p root Alternative.Resolvable (do
        let code ← part
        let place ← position
        let placeholder ← emit Template.placeholder []
        pure ⟨entry, mark ++ code ++ placeholder, place⟩) := by
    intro entry mark hentry hmark
    refine .bind h fun code hcode => .bind sound_position fun place _ =>
      .bind (sound_emit rfl) fun blank hblank => .pure ⟨hentry, ?_⟩
    have hlast : (mark ++ code ++ blank).dropLast = mark ++ code := by
      rw [hblank]
      exact List.dropLast_concat
    rw [hlast]
    exact hmark.append hcode
  refine .bind sound_position fun start _ => .bind sound_node fun n _ => ?_
  split
  · exact .bind (.modify fun _ ht => ht) fun _ _ => hrest _ _ Code.opcode_jumpTo_ne Code.resolved_nil
  · exact .bind completes_alternativeMark fun mark hmark => hrest _ _ Code.opcode_forkTo_ne hmark

theorem sound_decisions {children : List (Nat × Assembler Code)} :
    Sound p root (fun forks : List Fork => ∀ fork ∈ forks, fork.Resolvable) (decisions children) := by
  induction children with
  | nil => exact .pure fun _ hfork => absurd hfork List.not_mem_nil
  | cons c rest ih =>
    exact .bind sound_decision fun fork hfork => .bind ih fun more hmore =>
      .pure (List.forall_mem_cons.2 ⟨hfork, hmore⟩)

theorem sound_alternatives {forks : List Fork} {children : List (Nat × Assembler Code)}
    (hchildren : ∀ c ∈ children, Completes p root c.2) :
    Sound p root (fun parts : List Alternative => ∀ a ∈ parts, a.Resolvable)
      (alternatives settings forks children) := by
  induction forks generalizing children with
  | nil => exact .pure fun _ ha => absurd ha List.not_mem_nil
  | cons fork forks ih =>
    cases children with
    | nil => exact .pure fun _ ha => absurd ha List.not_mem_nil
    | cons c rest =>
      obtain ⟨hpart, hrest⟩ := List.forall_mem_cons.1 hchildren
      exact .bind (sound_alternative hpart) fun first hfirst => .bind (ih hrest) fun more hmore =>
        .pure (List.forall_mem_cons.2 ⟨hfirst, hmore⟩)

theorem resolved_resolveForks {forks : List Fork} {parts : List Alternative}
    (hforks : ∀ fork ∈ forks, fork.Resolvable) (hparts : ∀ a ∈ parts, a.Resolvable) :
    Code.Resolved (resolveForks forks parts) := by
  refine Code.resolved_flatten fun code hcode => ?_
  rw [← List.map_uncurry_zip_eq_zipWith] at hcode
  obtain ⟨⟨fork, a⟩, hmem, rfl⟩ := List.mem_map.1 hcode
  obtain ⟨hfork, ha⟩ := List.of_mem_zip hmem
  exact Code.Resolved.resolveLast (hforks fork hfork) (hparts a ha).entry

theorem resolved_resolveEnds {finish : Nat} {parts : List Alternative}
    (hparts : ∀ a ∈ parts, a.Resolvable) :
    Code.Resolved (resolveEnds finish parts) := by
  refine Code.resolved_flatten fun code hcode => ?_
  obtain ⟨a, ha, rfl⟩ := List.mem_map.1 hcode
  exact (hparts a ha).code.resolveLast Code.opcode_forkTo_ne

theorem completes_alternation {children : List (Nat × Assembler Code)}
    (hchildren : ∀ c ∈ children, Completes p root c.2) :
    Completes p root (alternation settings children) := by
  refine .bind sound_decisions fun forks hforks => .bind completes_decisionEnd fun stop hstop =>
    .bind (sound_alternatives hchildren) fun parts hparts => .bind sound_position fun finish _ => .pure ?_
  exact ((resolved_resolveForks hforks hparts).append hstop).append (resolved_resolveEnds hparts)

/-! ### Repetitions -/

theorem completes_withCounter {part : Nat → Assembler Code}
    (h : ∀ counter, Completes p root (part counter)) :
    Completes p root (withCounter settings part) := by
  have htake : Sound p root (fun _ => True) (takeCounter settings) :=
    .of_get fun _ _ => .check trivial (.bind (.modify fun _ ht => ht) fun _ _ => .pure trivial)
  exact .bind htake fun counter _ => .bind (h counter) fun code hcode =>
    .bind (.modify fun _ ht => ht) fun _ _ => .pure hcode

theorem completes_setCounter {counter : Nat} {count : Int} : Completes p root (setCounter counter count) :=
  .bind sound_operand fun _ _ => completes_emit rfl rfl

theorem completes_loopTo {counter head : Nat} : Completes p root (loopTo counter head) :=
  .bind sound_position fun _ _ => completes_emit rfl rfl

theorem completes_counted {count : Int} {part : Assembler Code} (h : Completes p root part) :
    Completes p root (counted settings count part) :=
  completes_withCounter fun _ => .bind completes_setCounter fun _ hset => .bind sound_position fun _ _ =>
    .bind h fun _ hcode => .bind completes_loopTo fun _ hback => .pure ((hset.append hcode).append hback)

theorem completes_copies {t : Template} {c : Int} (h : Completes p root (emit t [c])) {count : Nat} :
    Completes p root (copies t c count) := by
  induction count with
  | zero => exact completes_nil
  | succ count ih => exact h.append ih

theorem completes_requiredCharacters {t : Template} {c : Int} {min : Nat}
    (h : Completes p root (emit t [c])) : Completes p root (requiredCharacters settings t c min) := by
  rw [requiredCharacters]
  split
  · exact completes_copies h
  · exact completes_counted h

theorem completes_required {child min : Nat} {part : Assembler Code} (h : Completes p root part) :
    Completes p root (required settings child part min) := by
  have hlooped : ∀ count : Nat,
      Completes p root (counted settings count (inSequence [part, emit Template.yieldThread []])) := by
    intro count
    refine completes_counted (completes_inSequence fun x hx => ?_)
    rcases List.mem_pair.1 hx with rfl | rfl
    · exact h
    · exact completes_emit rfl rfl
  unfold required
  match min with
  | 0 => exact completes_nil
  | 1 => exact h
  | count + 2 =>
    refine .of_get fun t _ => ?_
    simp only
    split
    · refine completes_inSequence fun x hx => ?_
      rcases List.mem_pair.1 hx with rfl | rfl
      · exact h
      · split
        · exact h
        · exact hlooped _
    · exact hlooped _

theorem completes_branches {t : Template} {c distance : Int} {count : Nat}
    (h : ∀ distance, Completes p root (emit t [distance, c])) :
    Completes p root (branches t c distance count) := by
  induction count generalizing distance with
  | zero => exact completes_nil
  | succ count ih => exact .bind sound_operand fun x _ => (h x).append ih

theorem completes_disjoint {t : Template} {c count : Int}
    (h : ∀ distance, Completes p root (emit t [distance, c])) :
    Completes p root (disjoint settings t c count) := by
  rw [disjoint]
  split
  · exact completes_branches h
  · refine completes_inSequence fun x hx => ?_
    rcases List.mem_pair.1 hx with rfl | rfl
    · exact completes_branches h
    · exact completes_withCounter fun counter => .bind completes_setCounter fun _ hset =>
        .bind sound_position fun _ _ => .bind (h 1) fun _ hcode => .bind completes_loopTo fun _ hback =>
        .bind completes_setCounter fun _ hreset =>
        .pure (((hset.append hcode).append hback).append hreset)

theorem completes_optional {preview : Option Nat} {part : Assembler Code} {count : Int}
    (h : Completes p root part) : Completes p root (optional settings preview part count) := by
  rw [optional]
  split
  · exact completes_skippable h
  · split
    · refine completes_withCounter fun counter => .bind completes_setCounter fun _ hset =>
        .bind sound_position fun head _ => .bind (completes_skippable ?_) fun _ hcode =>
        .bind completes_setCounter fun _ hreset => .pure ((hset.append hcode).append hreset)
      refine completes_inSequence fun x hx => ?_
      simp only [List.mem_cons, List.not_mem_nil, or_false] at hx
      rcases hx with rfl | rfl | rfl
      · exact h
      · exact completes_emit rfl rfl
      · exact completes_loopTo
    · exact completes_nil

theorem completes_loopGuard {n : Node} (h : n.Guarded) : Completes p root (loopGuard n) := by
  rw [loopGuard]
  split
  · rename_i hcontrolling
    cases hguard : n.guard with
    | none => exact absurd hguard (h (Bool.and_eq_true_iff.1 hcontrolling).1)
    | some guard => exact .bind sound_operand fun _ _ => completes_emit rfl rfl
  · exact completes_nil

theorem sound_nextPreview {following : Option Nat} : Sound p root (fun _ => True) (nextPreview following) := by
  cases following with
  | none => exact .pure trivial
  | some i => exact sound_takePreview

theorem completes_characterRepetition {n : Node} {c : Int} {min : Nat} {max : Option Nat} (h : n.Guarded) :
    Completes p root (characterRepetition settings n c min max) := by
  have htest : Completes p root
      (emit (if n.attributes.controlling then Template.charAnchor else Template.char) [c]) := by
    split
    · exact completes_emit rfl rfl
    · exact completes_emit rfl rfl
  have hbranch : ∀ distance, Completes p root
      (emit (if n.attributes.controlling then Template.charAnchorBranch else Template.charBranchTo)
        [distance, c]) := by
    intro distance
    split
    · exact completes_emit rfl rfl
    · exact completes_emit rfl rfl
  refine .bind (completes_loopGuard h) fun _ hguard =>
    .bind (completes_requiredCharacters htest) fun _ hfirst => ?_
  split
  · exact .bind (completes_disjoint hbranch) fun _ hmore => .pure ((hguard.append hfirst).append hmore)
  · exact .bind sound_nextPreview fun _ _ => .bind (completes_optional htest) fun _ hmore =>
      .pure ((hguard.append hfirst).append hmore)

theorem completes_partRepetition {n : Node} {child min : Nat} {max : Option Nat} {part : Assembler Code}
    (h : n.Guarded) (hpart : Completes p root part) :
    Completes p root (partRepetition settings n child part min max) :=
  .bind (completes_loopGuard h) fun _ hguard => .bind (completes_required hpart) fun _ hfirst =>
    .bind sound_nextPreview fun _ _ => .bind (completes_optional hpart) fun _ hmore =>
    .pure ((hguard.append hfirst).append hmore)

/-- Only a repetition needs a child. -/
theorem completes_repetition {i min : Nat} {max : Option Nat} {children : List (Nat × Assembler Code)}
    (hempty : children = [] → p.HasEmptyRepetition root) (hchildren : ∀ c ∈ children, Completes p root c.2) :
    Completes p root (repetition settings i min max children) := by
  cases children with
  | nil => exact .throw (hempty rfl)
  | cons c rest =>
    obtain ⟨child, part⟩ := c
    have hend : ∀ {code : Code}, code.Resolved → Completes p root (do
        updateAttributes i ({ · with controlling := false })
        pure code) :=
      fun hcode => .bind (sound_updateAttributes fun _ hc => absurd hc Bool.false_ne_true) fun _ _ => .pure hcode
    refine .bind sound_node fun n hn => .bind sound_node fun m _ => ?_
    split
    · exact .bind sound_operand fun x _ => .bind (completes_characterRepetition hn.1) fun _ hcode => hend hcode
    · exact .bind (completes_partRepetition hn.1 (hchildren _ List.mem_cons_self)) fun _ hcode => hend hcode

/-! ### Nodes -/

theorem completes_construct {i : Nat} {children : List (Nat × Assembler Code)} (hi : p.Reaches root i)
    (hempty : children = [] → (p.node i).children = []) (hchildren : ∀ c ∈ children, Completes p root c.2) :
    Completes p root (construct settings i children) := by
  refine .bind sound_node fun n hn => ?_
  cases hkind : n.kind with
  | group =>
    refine completes_group fun x hx => ?_
    obtain ⟨c, hc, rfl⟩ := List.mem_map.1 hx
    exact hchildren c hc
  | alternation => exact completes_alternation hchildren
  | repetition min max =>
    exact completes_repetition (fun hnone => ⟨i, min, max, hi, hn.2.2 _ _ hkind, hempty hnone⟩) hchildren
  | charClass c => exact .bind sound_operand fun _ _ => completes_emit rfl rfl
  | action a => exact completes_action

end Assembler
end ByteMatch
