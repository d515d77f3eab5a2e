import Mathlib.Tactic.IntervalCases
import ByteMatch.Pattern.Compile
import ByteMatch.Proofs.Pattern.Annotation
import ByteMatch.Proofs.Pattern.Assembly.Alternation
import ByteMatch.Proofs.Pattern.Assembly.Group
import ByteMatch.Proofs.Pattern.Assembly.Repetition

/-!
# ByteMatch.Proofs.Pattern.Program

The program of a pattern reports the matches of the pattern, and no others.

* `Pattern.Regular.emits`: the fragment of each node reads the language of the node.
* `Assembler.program_ok`: a thread reads a string of the language and reports.
* `Pattern.assemble_reports_iff`: so do the programs that are compiled.
-/

namespace ByteMatch

open Step

variable {α : Type} {cls : Int → α → Bool}

namespace Outline

theorem assembleList_eq_map {settings : Settings} {os : List Outline} :
    assembleList settings os = os.map fun o => (o.place, o.assemble settings) := by
  induction os with
  | nil => rfl
  | cons o rest ih => rw [assembleList, ih, List.map_cons]

end Outline

namespace Pattern

variable {p q : Pattern} {root i : Nat} {settings : Settings}

theorem Acyclic.assemble_eq (h : p.Acyclic root) (hi : p.Reaches root i) :
    (p.outline i).assemble settings = Assembler.construct settings i
      ((p.node i).children.map fun j => (j, (p.outline j).assemble settings)) := by
  rw [h.outline_eq hi, Outline.assemble, Outline.assembleList_eq_map, List.map_map]
  congr 1
  refine List.map_congr_left fun j hj => ?_
  rw [Function.comp_apply, h.place_outline (hi.tail hj)]

end Pattern

namespace Assembler

variable {p : Pattern} {settings : Settings} {s s' : Assembly} {L : Language α}

theorem EmitsOr.of_node {back : Option Nat} {i : Nat} {f : Node → Assembler Code}
    (h : ∀ n, n.given = (p.node i).given → EmitsOr cls p back L (f n)) :
    EmitsOr cls p back L (node i >>= f) := by
  intro s code s' hp hret hok
  obtain ⟨n, s₁, hnode, hrest⟩ := bind_ok.1 hok
  obtain ⟨rfl, rfl⟩ := node_ok.1 hnode
  exact h _ (hp.2 i) _ _ _ hp hret hrest

theorem emits_construct {i : Nat} {children : List (Nat × Assembler Code)}
    (h : Emits cls p L (match (p.node i).kind with
      | .group => group settings i (children.map (·.2))
      | .alternation => alternation settings children
      | .repetition min max => repetition settings i min max children
      | .charClass root => do emit Template.char [← operand .charClass root]
      | .action a => action a)) :
    Emits cls p L (construct settings i children) := by
  refine .of_node fun n hn => ?_
  have hkind : n.kind = (p.node i).kind := congrArg (·.kind) hn
  rw [hkind]
  exact h

theorem emitsOr_construct {back : Option Nat} {i : Nat} {children : List (Nat × Assembler Code)}
    (hkind : (p.node i).kind = .alternation)
    (h : EmitsOr cls p back L (alternation settings children)) :
    EmitsOr cls p back L (construct settings i children) := by
  refine .of_node fun n hn => ?_
  have hkind' : n.kind = .alternation := (congrArg (·.kind) hn).trans hkind
  rw [hkind']
  exact h

end Assembler

namespace Pattern

open Assembler

variable {p q : Pattern} {root i : Nat} {settings : Settings}

/-- The fragment of a node reads the language of the node, and that of an alternation also as a shared
tail. -/
theorem Regular.emits (h : p.Regular root) (hi : p.Reaches root i) :
    Emits cls p (p.language cls i) ((p.outline i).assemble settings) ∧
      ((p.node i).kind = .alternation → ∀ back,
        EmitsOr cls p back (p.language cls i) ((p.outline i).assemble settings)) := by
  have hacyclic := h.toAcyclic
  induction i, hi using hacyclic.induction with
  | step i hi ih =>
    rw [hacyclic.assemble_eq hi]
    have halternation : (p.node i).kind = .alternation → ∀ back,
        EmitsOr cls p back (p.language cls i) (construct settings i
          ((p.node i).children.map fun j => (j, (p.outline j).assemble settings))) := by
      intro hkind back
      refine emitsOr_construct hkind ?_
      rw [hacyclic.language_eq hi, hkind]
      refine emits_alternation (List.forall₂_map_left_iff.2 (List.forall₂_map_right_iff.2
        (List.forall₂_same.2 fun j hj => ⟨(ih j hj).1, fun htail place => ?_, ?_⟩)))
      · exact (ih j hj).2 (h.shared i hi hkind j hj htail) _
      · exact fun q hq => h.starts_of_preview hq (hi.tail hj)
    refine ⟨?_, halternation⟩
    cases hkind : (p.node i).kind with
    | alternation => exact (halternation hkind none).emits
    | action a => exact absurd hkind (h.no_action i hi a)
    | charClass c =>
      refine emits_construct ?_
      rw [hacyclic.language_eq hi]
      simp only [hkind]
      exact .of_operand (emits_char (.inl rfl))
    | group =>
      refine emits_construct ?_
      rw [hacyclic.language_eq hi]
      simp only [hkind]
      refine emits_group (h.consuming i hi) ?_
      rw [List.map_map]
      exact List.forall₂_map_left_iff.2 (List.forall₂_map_right_iff.2
        (List.forall₂_same.2 fun j hj => (ih j hj).1))
    | repetition min max =>
      refine emits_construct ?_
      rw [hacyclic.language_eq hi]
      simp only [hkind]
      cases hc : (p.node i).children with
      | nil => exact .of_throw
      | cons j rest =>
        have hj : j ∈ (p.node i).children := by simp [hc]
        refine emits_repetition (h.not_disjoint i hi) (h.no_lookAhead i hi) (fun c hclass => ?_)
          (ih j hj).1
        rw [hacyclic.language_eq (hi.tail hj), hclass]

end Pattern

/-! ## Programs -/

namespace Assembler

variable {p : Pattern} {settings : Settings} {s s' : Assembly} {root : Nat} {code : Code}

/-- Where a match can start anywhere, only the guard at the beginning is tested. -/
theorem emits_searchStart (hpreview : (p.node root).preview = none)
    (hnewline : (p.node root).attributes.afterNewline = false) :
    Emits cls p (1 : Language α) (searchStart root) := by
  refine .of_node fun n hn => ?_
  have hpreview' : n.preview = none := (congrArg (·.preview) hn).trans hpreview
  have hnewline' : n.attributes.afterNewline = false :=
    (congrArg (·.attributes.afterNewline) hn).trans hnewline
  have hmark : Emits cls p (1 : Language α) (emit Template.groupStart [0]) :=
    .of_emit fun _ _ => Code.Reads.skip (by decide)
  simp only [hpreview', hnewline', Bool.false_eq_true, if_false, pure_bind, List.nil_append]
  refine .of_takeGuard fun guard => ?_
  cases guard with
  | none => simpa only [pure_bind, List.nil_append, bind_pure] using hmark
  | some guard =>
    have htest : Emits cls p (1 : Language α) (emit Template.loopGuard [guard, 1]) :=
      .of_emit fun _ _ => Code.Reads.goOn (.inl (by decide))
    simpa only [one_mul] using htest.append hmark

theorem program_eq : program settings root s = inSequence [searchStart root,
    (s.pattern.outline root).assemble settings, emit Template.yieldThread [],
    emit Template.reportMatch []] s := rfl

/-- A thread reads a match of the root and then reports it. -/
theorem program_ok (h : p.Regular root) (hp : s.pattern.Alike p) (hposition : s.position = 0)
    (hret : s.returns = []) (hok : program settings root s = .ok code s') (rest : List α)
    (σ : Int → Int) : Code.accepted cls code rest 0 σ = p.language cls root * {rest} := by
  rw [program_eq, hp.outline] at hok
  obtain ⟨start, more₁, s₁, hstart, hmore₁, rfl⟩ := inSequence_cons_ok hok
  obtain ⟨nodes, more₂, s₂, hnodes, hmore₂, rfl⟩ := inSequence_cons_ok hmore₁
  obtain ⟨yield, more₃, s₃, hyield, hmore₃, rfl⟩ := inSequence_cons_ok hmore₂
  obtain ⟨last, more₄, s₄, hlast, hnil, rfl⟩ := inSequence_cons_ok hmore₃
  obtain ⟨rfl, rfl⟩ := pure_ok.1 hnil
  have hsearch : Emits cls p (1 : Language α) (searchStart root) :=
    emits_searchStart (h.no_preview root .refl) h.not_afterNewline
  have hyields : Emits cls p (1 : Language α) (emit Template.yieldThread []) := emits_yield
  obtain ⟨hemit₁, hreads₁⟩ := hsearch s _ _ hp hret hstart
  obtain ⟨hemit₂, hreads₂⟩ := (h.emits .refl).1 _ _ _ (hemit₁.pattern.trans hp)
    (hemit₁.returns.trans hret) hnodes
  have hemit₁₂ := hemit₁.append hemit₂
  obtain ⟨hemit₃, hreads₃⟩ := hyields _ _ _ (hemit₁₂.pattern.trans hp)
    (hemit₁₂.returns.trans hret) hyield
  rw [hemit₁.position, hemit₁.counter] at hreads₂
  rw [hemit₁₂.position, hemit₁₂.counter] at hreads₃
  have hreads := (hreads₁.append hreads₂).append hreads₃
  rw [one_mul, mul_one, hposition] at hreads
  have hholds : Code.Holds (start ++ nodes ++ yield ++ last) 0 (start ++ nodes ++ yield ++ last) :=
    fun k i hk => by rwa [Nat.zero_add]
  obtain ⟨hread, hlast'⟩ := Code.holds_append.1 hholds
  have hat : (start ++ nodes ++ yield ++ last)[0 + (start ++ nodes ++ yield).length]? =
      some ⟨Opcode.report, 0, 0, true⟩ := hlast' 0 _ (by rw [(emit_ok hlast).1]; rfl)
  have hreport : ∀ σ, Code.accepted cls (start ++ nodes ++ yield ++ last) rest
      (0 + (start ++ nodes ++ yield).length) σ = {rest} := fun σ =>
    Code.accepted_report hat (by decide)
  have haccepted := hreads _ rest hread σ fun σ' _ => by rw [hreport, hreport]
  rw [hreport] at haccepted
  simpa only [List.append_assoc, List.append_nil] using haccepted

end Assembler

namespace Pattern

open Assembler

variable {p p' : Pattern} {root : Nat} {options : CompileOptions} {limits : Limits} {code : Code}

theorem assembleProgram_ok {numbering : Numbering}
    (hok : assembleProgram root limits numbering p = .ok code p') : code.unresolved? = none ∧ ∃ s,
      program ⟨limits, numbering.alternativeMark⟩ root ⟨p, 0, 0, numbering.groupCount, []⟩ =
        .ok code s ∧ s.pattern = p' := by
  unfold assembleProgram at hok
  cases hprogram : program ⟨limits, numbering.alternativeMark⟩ root
    ⟨p, 0, 0, numbering.groupCount, []⟩ with
  | error e s => simp [hprogram] at hok
  | ok code' s =>
    simp only [hprogram] at hok
    split at hok
    · rename_i hresolved
      obtain ⟨rfl, rfl⟩ := EStateM.Result.ok.inj hok
      exact ⟨hresolved, s, rfl, rfl⟩
    · cases hok

/-- A program is assembled after the groups have been numbered and the guards have been noted. -/
theorem build_ok {c : AssembledProgram} (hok : p.build options limits = .ok c p') :
    ∃ root guardCount q₁ q₂, p.root = some root ∧
      number root options.indexAlternatives limits (p.noteStart root) = .ok c.numbering q₁ ∧
      noteGuards root limits q₁ = .ok guardCount q₂ ∧
      assembleProgram root limits c.numbering q₂ = .ok c.code p' ∧ c.start.guardCount = guardCount := by
  obtain ⟨_, _, hget, hrest⟩ := bind_ok.1 hok
  obtain ⟨rfl, rfl⟩ := get_ok.1 hget
  cases hroot : p.root with
  | none =>
    rw [hroot] at hrest
    exact (throw_ok.1 hrest).elim
  | some root =>
    simp only [hroot] at hrest
    obtain ⟨_, _, hstart, hrest₁⟩ := bind_ok.1 hrest
    obtain rfl := modify_ok.1 hstart
    obtain ⟨_, _, hget, hrest₂⟩ := bind_ok.1 hrest₁
    obtain ⟨rfl, rfl⟩ := get_ok.1 hget
    obtain ⟨_, _, hget, hrest₃⟩ := bind_ok.1 hrest₂
    obtain ⟨rfl, rfl⟩ := get_ok.1 hget
    obtain ⟨numbering, q₁, hnumber, hrest₄⟩ := bind_ok.1 hrest₃
    obtain ⟨guardCount, q₂, hguards, hrest₅⟩ := bind_ok.1 hrest₄
    obtain ⟨code, q₃, hprogram, hpure⟩ := bind_ok.1 hrest₅
    obtain ⟨rfl, rfl⟩ := pure_ok.1 hpure
    exact ⟨root, guardCount, q₁, q₂, rfl, hnumber, hguards, hprogram, rfl⟩

/-- A program is assembled from a pattern in which marks and guards have been noted. -/
theorem Regular.assemble_ok (h : p.Regular root) (hroot : p.root = some root)
    (hok : p.assemble options limits = .ok code p') : ∃ settings s s', s.pattern.Alike p ∧
      s.position = 0 ∧ s.returns = [] ∧ program settings root s = .ok code s' := by
  obtain ⟨c, p₁, hbuild, hpure⟩ := bind_ok.1 hok
  obtain ⟨rfl, rfl⟩ := pure_ok.1 hpure
  obtain ⟨root', guardCount, q₁, q₂, hroot', hnumber, hguards, hprogram, -⟩ := build_ok hbuild
  obtain rfl : root = root' := Option.some.inj (hroot.symm.trans hroot')
  rw [h.noteStart_eq] at hnumber
  have halike := (keeps_noteGuards _ _ _ hguards).trans (h.number_ok hnumber)
  obtain ⟨-, s, hprogram, -⟩ := assembleProgram_ok hprogram
  exact ⟨_, _, s, halike, rfl, rfl, hprogram⟩

/-- Compiling preserves the language: the program of a pattern reports a match with some characters left
if and only if the pattern matches the characters before them. -/
theorem assemble_reports_iff (h : p.Regular root) (hroot : p.root = some root)
    (hok : p.assemble options limits = .ok code p') (w rest : List α) (σ : Int → Int) :
    Reports cls code rest ⟨0, w, σ⟩ ↔ ∃ u ∈ p.language cls root, u ++ rest = w := by
  obtain ⟨settings, s, s', hp, hposition, hret, hprogram⟩ := h.assemble_ok hroot hok
  rw [← Code.mem_accepted, program_ok h hp hposition hret hprogram, Language.mem_mul]
  constructor
  · rintro ⟨u, hu, v, rfl, heq⟩
    exact ⟨u, hu, heq⟩
  · rintro ⟨u, hu, heq⟩
    exact ⟨u, hu, rest, rfl, heq⟩

/-- A class or a shared tail, and then a class one to three times. -/
def tailAndLoop : Pattern where
  nodes := #[
    { kind := .group, children := [1, 5] },
    { kind := .alternation, children := [2, 3] },
    { kind := .charClass 10 },
    { kind := .alternation, attributes := { sharedTail := true }, children := [4] },
    { kind := .charClass 11 },
    { kind := .repetition 1 (some 3), children := [6] },
    { kind := .charClass 12 }]
  root := some 0

open Opcode in
/-- The program of `tailAndLoop`. -/
def tailAndLoopCode : Code :=
  [ ⟨markStart, 0, 0, false⟩,
    ⟨character ||| zeroWidth ||| branch, 1, 10, false⟩,
    Code.forkTo 2 5 false,
    Code.jumpTo 3 7,
    ⟨test ||| negate, 0, 0, true⟩,
    ⟨character, 0, 10, false⟩,
    Code.forkTo 6 13 true,
    ⟨character ||| zeroWidth ||| branch, 1, 11, false⟩,
    Code.forkTo 8 10 false,
    Code.jumpTo 9 4,
    ⟨character, 0, 11, false⟩,
    Code.forkTo 11 12 true,
    Code.forkTo 12 13 true,
    ⟨character, 0, 12, false⟩,
    Code.setCount 0 2,
    Code.forkTo 15 19 false,
    ⟨character, 0, 12, false⟩,
    Code.forkTo 17 18 true,
    Code.countDown 0 18 15,
    Code.setCount 0 0,
    Code.forkTo 20 21 true,
    ⟨markEnd, 0, 0, false⟩,
    Code.forkTo 22 23 true,
    ⟨report, 0, 0, true⟩ ]

/-- What is found out about `tailAndLoop`: a mark, and two classes that are tested ahead. -/
def tailAndLoopNoted : Pattern :=
  ((tailAndLoop.update 0 ({ · with mark := some 0 })).updateAttributes 2
    ({ · with previewed := true })).updateAttributes 4 ({ · with previewed := true })

theorem tailAndLoop_regular : tailAndLoop.Regular 0 := by
  have hacyclic : tailAndLoop.Acyclic 0 := acyclic_of_lt (by decide) (by decide)
  have hplain : ∀ i < 7, (tailAndLoop.node i).attributes.lookahead = false ∧
      (tailAndLoop.node i).preview = none ∧ (tailAndLoop.node i).lookAhead = none ∧
      (tailAndLoop.node i).attributes.disjoint = false := by decide
  have hshared : ∀ i < 7, (tailAndLoop.node i).kind = .alternation →
      ∀ j ∈ (tailAndLoop.node i).children, (tailAndLoop.node j).attributes.sharedTail = true →
        (tailAndLoop.node j).kind = .alternation := by decide
  refine ⟨hacyclic, fun i hi a => ?_, fun i hi => (hplain i (hacyclic.lt i hi)).1,
    fun i hi => (hplain i (hacyclic.lt i hi)).2.1, fun i hi => (hplain i (hacyclic.lt i hi)).2.2.1,
    fun i hi => (hplain i (hacyclic.lt i hi)).2.2.2, fun i hi => hshared i (hacyclic.lt i hi), rfl⟩
  have hlt : i < 7 := hacyclic.lt i hi
  interval_cases i <;> exact Kind.noConfusion

/-- The tail and two characters of the loop are matched, and one character is left. -/
theorem assemble_reports_iff_tailAndLoop :
    tailAndLoop.Regular 0 ∧ tailAndLoop.root = some 0 ∧
      assemble {} {} tailAndLoop = .ok tailAndLoopCode tailAndLoopNoted ∧
      (Reports (fun root c => root == c) tailAndLoopCode [12] ⟨0, [11, 12, 12, 12], fun _ => 0⟩ ↔
        ∃ u ∈ tailAndLoop.language (fun root c => root == c) 0, u ++ [12] = [11, 12, 12, 12]) := by
  have hassemble : assemble {} {} tailAndLoop = .ok tailAndLoopCode tailAndLoopNoted := by decide +kernel
  exact ⟨tailAndLoop_regular, rfl, hassemble,
    assemble_reports_iff tailAndLoop_regular rfl hassemble _ _ _⟩

end Pattern
end ByteMatch
