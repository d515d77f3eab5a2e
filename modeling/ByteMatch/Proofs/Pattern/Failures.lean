import ByteMatch.Proofs.Pattern.Assembly.Failures
import ByteMatch.Proofs.Pattern.Program
import ByteMatch.Proofs.Pattern.References

/-!
# ByteMatch.Proofs.Pattern.Failures

The ways in which a pattern may fail to compile.

Whatever the options and the limits are, a pattern is never refused because of a mistake in the program:
all forks are resolved, shared tails have a place to return to and templates get all of their arguments.
A pattern is malformed only if some repetition in it has no body.

* `Pattern.Acyclic.completes`: the fragment of each node.
* `Pattern.annotates_number`, `Pattern.annotates_noteGuards`, `Pattern.Acyclic.annotates_assembleProgram`:
  the steps of a compilation.
* `Pattern.assemble_error`: all of them.
-/

namespace ByteMatch

open Step

namespace Pattern

open Assembler

variable {p q : Pattern} {root i : Nat} {settings : Settings} {options : CompileOptions}
  {limits : Limits}

/-! ## Programs -/

theorem Acyclic.completes (h : p.Acyclic root) (hi : p.Reaches root i) :
    Completes p root ((p.outline i).assemble settings) := by
  induction i, hi using h.induction with
  | step i hi ih =>
    rw [h.assemble_eq hi]
    refine completes_construct hi List.map_eq_nil_iff.1 fun c hc => ?_
    obtain ⟨j, hj, rfl⟩ := List.mem_map.1 hc
    exact ih j hj

theorem completes_searchStart : Completes p root (searchStart root) := by
  refine .bind sound_node fun n _ => ?_
  split
  · exact .bind sound_assertionClass fun _ _ => completes_emit rfl rfl
  · cases n.preview with
    | some c =>
      refine .bind sound_operand fun _ _ => .bind (completes_emit rfl rfl) fun scan hscan =>
        .bind sound_takeGuard fun guard _ => ?_
      have hmark : ∀ test : Code, test.Resolved → Completes p root (do
          let mark ← pure []
          pure (scan ++ test ++ mark)) :=
        fun _ htest => .bind completes_nil fun _ hnone => .pure ((hscan.append htest).append hnone)
      cases guard with
      | some guard => exact .bind (completes_emit rfl rfl) hmark
      | none => exact .bind completes_nil hmark
    | none =>
      refine .bind completes_nil fun scan hscan => .bind sound_takeGuard fun guard _ => ?_
      have hmark : ∀ test : Code, test.Resolved → Completes p root (do
          let mark ← emit Template.groupStart [0]
          pure (scan ++ test ++ mark)) :=
        fun _ htest => .bind (completes_emit rfl rfl) fun _ hset =>
          .pure ((hscan.append htest).append hset)
      cases guard with
      | some guard => exact .bind (completes_emit rfl rfl) hmark
      | none => exact .bind completes_nil hmark

theorem Acyclic.completes_program (h : p.Acyclic root) : Completes p root (program settings root) := by
  refine .of_get fun t ht => completes_inSequence ?_
  simp only [List.forall_mem_cons, List.not_mem_nil, false_implies, implies_true, and_true, ht.outline]
  exact ⟨completes_searchStart, h.completes .refl, completes_emit rfl rfl,
    completes_emit rfl rfl⟩

/-! ## Compilations -/

/-- The step answers, unless it fails in a way in which the pattern may fail. -/
abbrev Annotates {α : Type} (p : Pattern) (root : Nat) (x : Annotating α) : Prop :=
  Meets p.Kept (p.MayFail root) (fun _ => True) x

theorem annotates_update {f : Node → Node} (hf : Node.Keeps f) :
    p.Annotates root (modify (·.update i f)) :=
  .modify fun _ hq => hq.update hf

theorem annotates_assignMarks {limit mark : Nat} {names : List (String × Nat)} {groups : List Nat} :
    p.Annotates root (assignMarks limit mark names groups) := by
  induction groups generalizing mark names with
  | nil => exact .pure trivial
  | cons i rest ih =>
    rw [assignMarks]
    refine .check trivial (.bind (annotates_update (.of_eq fun _ => ⟨rfl, rfl, rfl, rfl⟩)) fun _ _ =>
      .of_get fun q _ => ?_)
    cases (q.node i).name with
    | some name => exact ih
    | none => exact ih

theorem Kept.giveLink (h : p.Kept q) (l : Link) : p.Kept (q.giveLink l) := by
  have hkind : Node.Keeps ({ · with kind := .action (.backreference (.mark l.mark)) }) :=
    ⟨fun _ => rfl, fun _ _ _ hk => Kind.noConfusion hk, fun _ hn => hn⟩
  exact (h.update hkind).update (.of_eq fun _ => ⟨rfl, rfl, rfl, rfl⟩)

theorem annotates_resolveReferences {places rest : List Nat} {names : List (String × Nat)} {mask : UInt32} :
    p.Annotates root (resolveReferences root places names mask rest) := by
  induction rest generalizing mask with
  | nil => exact .pure trivial
  | cons i rest ih =>
    refine ⟨fun q hq => ?_⟩
    by_cases hreference : ∃ target, (q.node i).kind = .action (.backreference target)
    · obtain ⟨target, hkind⟩ := hreference
      cases hmark : target.mark? names with
      | none =>
        cases target with
        | mark mark => cases hmark
        | name name =>
          rw [resolveReferences_unknown hkind hmark]
          trivial
      | some m =>
        rw [resolveReferences_link hkind hmark]
        cases places.find? (q.hasMark root m) with
        | none => trivial
        | some g => exact ih.run _ (hq.giveLink _)
    · rw [resolveReferences_skip fun target hkind => hreference ⟨target, hkind⟩]
      exact ih.run q hq

theorem annotates_number {indexAlternatives : Bool} :
    p.Annotates root (number root indexAlternatives limits) := by
  refine .of_get fun q₁ _ => .of_get fun q₂ _ => .bind annotates_assignMarks fun names _ => ?_
  exact .check trivial (.of_get fun q₃ _ => .bind annotates_resolveReferences fun _ _ => .pure trivial)

theorem annotates_assignGuards {limit guard : Nat} {found : List Nat} :
    p.Annotates root (assignGuards limit guard found) := by
  induction found generalizing guard with
  | nil => exact .pure trivial
  | cons i rest ih =>
    rw [assignGuards]
    have hguard : Node.Keeps fun n =>
        { n with attributes := { n.attributes with controlling := true }, guard := some guard } :=
      ⟨fun _ => rfl, fun _ _ _ hkind => hkind, fun _ _ _ => Option.some_ne_none guard⟩
    exact .check trivial (.bind (annotates_update hguard) fun _ _ => ih)

theorem annotates_noteGuards : p.Annotates root (noteGuards root limits) :=
  .of_get fun _ _ => .bind annotates_assignGuards fun _ _ => .pure trivial

/-- What is assembled has no placeholders left. -/
theorem Acyclic.annotates_assembleProgram (h : p.Acyclic root) {numbering : Numbering} :
    p.Annotates root (assembleProgram root limits numbering) := by
  refine ⟨fun q hq => ?_⟩
  have hprogram : Completes p root (program ⟨limits, numbering.alternativeMark⟩ root) := h.completes_program
  rw [assembleProgram]
  cases hrun : program ⟨limits, numbering.alternativeMark⟩ root ⟨q, 0, 0, numbering.groupCount, []⟩ with
  | ok code s =>
    obtain ⟨hs, hcode⟩ := hprogram.ok hq hrun
    simp only [hcode.unresolved?_eq]
    exact ⟨hs, trivial⟩
  | error e s =>
    exact hprogram.error hq hrun

theorem kept_noteStart (h : ∀ i, (p.node i).Guarded) : p.Kept (p.noteStart root) := by
  rw [noteStart]
  split
  · exact (Kept.refl h).update (.of_eq fun _ => ⟨rfl, rfl, rfl, rfl⟩)
  · exact (Kept.refl h).update (.of_eq fun _ => ⟨rfl, rfl, rfl, rfl⟩)
  · exact .refl h

theorem Acyclic.mayFail_of_build (h : p.Acyclic root) (hroot : p.root = some root)
    (hguarded : ∀ i, (p.node i).Guarded) {e : CompileError} (hbuild : p.build options limits = .error e q) :
    p.MayFail root e := by
  have hsteps : ∀ command, ∀ strides : Nat × Nat, p.Annotates root (do
      let numbering ← number root options.indexAlternatives limits
      let guardCount ← noteGuards root limits
      let code ← assembleProgram root limits numbering
      pure
        ({ code
           numbering
           start :=
            { command, startAddress := 0, groupCount := numbering.groupCount, offset := strides.1,
              stride := strides.2, guardCount, backrefMask := numbering.backrefMask,
              subMasks := numbering.subMasks.toList } } : AssembledProgram)) :=
    fun _ _ => .bind annotates_number fun _ _ => .bind annotates_noteGuards fun _ _ =>
      .bind h.annotates_assembleProgram fun _ _ => .pure trivial
  rw [build, bind_get] at hbuild
  simp only [hroot] at hbuild
  rw [bind_modify, bind_get, bind_get] at hbuild
  exact (hsteps _ _).error (kept_noteStart hguarded) hbuild

/-- A pattern without cycles in which no repetition controls the anchor without a guard, as is so before it
is compiled, is not refused because of a mistake in its program. If it is malformed then because some
repetition in it has no body. -/
theorem assemble_error (hacyclic : ∀ root, p.root = some root → p.Acyclic root)
    (hguarded : ∀ i, (p.node i).Guarded) {e : CompileError}
    (h : p.assemble options limits = .error e q) :
    e ≠ .noReturn ∧ (∀ place, e ≠ .unresolved place) ∧ (∀ mismatch, e ≠ .templateArity mismatch) ∧
      ∀ m, e = .malformed m →
        m = .emptyRepetition ∧ ∃ root, p.root = some root ∧ p.HasEmptyRepetition root := by
  have hbuild : p.build options limits = .error e q := by
    cases hrun : p.build options limits with
    | ok c q' =>
      rw [assemble, bind_of_ok hrun] at h
      cases h
    | error e' q' =>
      rw [assemble, bind_of_error hrun] at h
      cases h
      rfl
  cases hroot : p.root with
  | none =>
    rw [build, bind_get, hroot] at hbuild
    cases hbuild
    simp
  | some root =>
    have hfail := (hacyclic root hroot).mayFail_of_build hroot hguarded hbuild
    refine ⟨?_, ?_, ?_, ?_⟩
    · rintro rfl
      exact hfail
    · rintro place rfl
      exact hfail
    · rintro mismatch rfl
      exact hfail
    · rintro m rfl
      cases m with
      | emptyRepetition => exact ⟨rfl, root, rfl, hfail⟩
      | missingGuard => exact hfail.elim

/-- A class or a shared tail, a class any number of times, and a repetition without a body. -/
def bodiless : Pattern where
  nodes := #[
    { kind := .group, children := [1, 5, 7] },
    { kind := .alternation, children := [2, 3] },
    { kind := .charClass 10 },
    { kind := .alternation, attributes := { sharedTail := true }, children := [4] },
    { kind := .charClass 11 },
    { kind := .repetition 0 none, children := [6] },
    { kind := .charClass 12 },
    { kind := .repetition 2 (some 4) }]
  root := some 0

/-- What is found out about `bodiless` before the repetition without a body is met: a mark, a guard and two
classes that are tested ahead. -/
def bodilessNoted : Pattern :=
  (((bodiless.update 0 ({ · with mark := some 0 })).update 5 ({ · with guard := some 0 })).updateAttributes 2
    ({ · with previewed := true })).updateAttributes 4 ({ · with previewed := true })

theorem assemble_error_bodiless :
    bodiless.assemble {} {} = .error (.malformed .emptyRepetition) bodilessNoted ∧
      ∃ root, bodiless.root = some root ∧ bodiless.HasEmptyRepetition root := by
  have hacyclic : ∀ root, bodiless.root = some root → bodiless.Acyclic root := by
    intro root hroot
    cases hroot
    exact acyclic_of_lt (by decide) (by decide)
  have hguarded : ∀ i, (bodiless.node i).Guarded := by
    intro i hcontrolling
    have hnone : ∀ i < 8, (bodiless.node i).attributes.controlling = false := by decide
    have hlt : i < 8 := lt_of_controlling hcontrolling
    exact absurd (hnone i hlt) (by simp [hcontrolling])
  have hassemble : bodiless.assemble {} {} = .error (.malformed .emptyRepetition) bodilessNoted := by decide +kernel
  obtain ⟨-, -, -, hmalformed⟩ := assemble_error hacyclic hguarded hassemble
  exact ⟨hassemble, (hmalformed _ rfl).2⟩

end Pattern
end ByteMatch
