import ByteMatch.Proofs.Pattern.Assembly.ControlFlow
import ByteMatch.Proofs.Pattern.Program

/-!
# ByteMatch.Proofs.Pattern.ControlFlow

Control does not leave the programs of patterns.

* `Outline.confines`: the jumps in the fragment of a node, by induction on the nodes below it.
* `Pattern.build_closed`: programs that are built are closed. `Pattern.assemble_closed` also says so of all
  places that a thread comes to.
-/

namespace ByteMatch

open Step

namespace Assembler

variable {settings : Settings} {low : Nat}

theorem confines_construct {i : Nat} {children : List (Nat × Assembler Code)}
    (hchildren : ∀ c ∈ children, Confines 0 c.2) : Confines low (construct settings i children) := by
  refine .of_silent .node fun n => ?_
  cases n.kind with
  | group =>
    refine confines_group fun x hx => ?_
    obtain ⟨c, hc, rfl⟩ := List.mem_map.1 hx
    exact (hchildren c hc).mono (Nat.zero_le _)
  | alternation => exact confines_alternation hchildren
  | repetition min max => exact confines_repetition hchildren
  | charClass root => exact .of_silent .operand fun _ => .of_emit (by decide) (by decide)
  | action a => exact .of_stays stays_action

end Assembler

namespace Outline

open Assembler

variable {settings : Settings}

mutual

/-- The jumps in the fragment of a node lead to places up to its end. -/
theorem confines : ∀ o : Outline, Confines 0 (o.assemble settings)
  | .node i children => by
    rw [assemble]
    exact confines_construct (confinesList children)

theorem confinesList : ∀ os : List Outline, ∀ c ∈ assembleList settings os, Confines 0 c.2
  | [] => by
    intro c hc
    cases hc
  | o :: rest => by
    intro c hc
    rw [assembleList, List.mem_cons] at hc
    rcases hc with rfl | hc
    · exact confines o
    · exact confinesList rest c hc

end
end Outline

namespace Assembler

variable {settings : Settings} {s s' : Assembly} {code : Code} {root : Nat}

/-- A program ends with a report, and the jumps before it lead to places up to the report. -/
theorem program_leads (hposition : s.position = 0) (hreturns : s.returns = [])
    (h : program settings root s = .ok code s') : ∃ body : Code,
      code = body ++ [⟨Opcode.report, 0, 0, true⟩] ∧ Code.Leads body 0 body.length := by
  have hret : s.Returnable := by
    intro place hplace
    rw [hreturns] at hplace
    cases hplace
  rw [program_eq] at h
  obtain ⟨start, more₁, s₁, hstart, hmore₁, rfl⟩ := inSequence_cons_ok h
  obtain ⟨nodes, more₂, s₂, hnodes, hmore₂, rfl⟩ := inSequence_cons_ok hmore₁
  obtain ⟨yield, more₃, s₃, hyield, hmore₃, rfl⟩ := inSequence_cons_ok hmore₂
  obtain ⟨last, more₄, s₄, hlast, hnil, rfl⟩ := inSequence_cons_ok hmore₃
  obtain ⟨rfl, rfl⟩ := pure_ok.1 hnil
  obtain ⟨rfl, -⟩ := emit_ok hlast
  have hyields : Confines 0 (emit Template.yieldThread []) := .of_emit (by decide) (by decide)
  have hsearches : Confines 0 (searchStart root) := .of_stays stays_searchStart
  have hlaid₁ := hsearches _ _ _ (Nat.zero_le _) hret hstart
  have hlaid₂ := Outline.confines _ _ _ _ (Nat.zero_le _) hlaid₁.returnable hnodes
  have hlaid₃ := hyields _ _ _ (Nat.zero_le _) hlaid₂.returnable hyield
  have hlaid := (hlaid₁.append hlaid₂).append hlaid₃
  have hleads := hlaid.leads
  rw [hlaid.position, hposition, Nat.zero_add] at hleads
  refine ⟨start ++ nodes ++ yield, ?_, hleads⟩
  rw [List.append_nil, List.append_assoc, List.append_assoc]
  rfl

end Assembler

namespace Pattern

open Assembler

variable {p p' : Pattern} {options : CompileOptions} {limits : Limits} {code : Code}

/-- Control does not leave a program that has been built. -/
theorem build_closed {c : AssembledProgram} (h : p.build options limits = .ok c p') :
    c.code.Closed := by
  obtain ⟨root, guardCount, q₁, q₂, -, -, -, hprogram, -⟩ := build_ok h
  obtain ⟨hresolved, s, hprogram, -⟩ := assembleProgram_ok hprogram
  obtain ⟨body, hcode, hleads⟩ := program_leads rfl rfl hprogram
  rw [hcode] at hresolved ⊢
  refine Code.closed_of_leads (fun i hi => ?_) hleads
  have hknown := List.findIdx?_eq_none_iff.1 hresolved i hi
  simpa using hknown

/-- Control does not leave the program of a pattern: each instruction leads to others of the program, and
the last one reports and ends the thread. So a thread only comes to places of the program. -/
theorem assemble_closed (h : p.assemble options limits = .ok code p') :
    code.Closed ∧ ∀ t, code.Visits t → 0 ≤ t ∧ t < code.length := by
  obtain ⟨c, q, hbuild, hpure⟩ := bind_ok.1 h
  obtain ⟨rfl, rfl⟩ := pure_ok.1 hpure
  have hclosed := build_closed hbuild
  exact ⟨hclosed, fun t ht => hclosed.of_visits ht⟩

/-- The boundary of a grapheme cluster, and then up to two characters of a class. -/
def boundaryAndRun : Pattern where
  nodes := #[
    { kind := .group, children := [1, 2] },
    { kind := .action .grapheme },
    { kind := .repetition 0 (some 2), attributes := { disjoint := true }, children := [3] },
    { kind := .charClass 20 }]
  root := some 0
  aux := AssertionClass.all.zipIdx

open Opcode in
/-- The program of `boundaryAndRun`. -/
def boundaryAndRunCode : Code :=
  [ ⟨markStart, 0, 0, false⟩,
    ⟨test ||| flags, MachineFlag.start, 20, false⟩,
    ⟨test ||| flags, MachineFlag.finish, 19, false⟩,
    ⟨character ||| previous ||| branch, 1, 4, false⟩,
    ⟨character ||| zeroWidth ||| branch, 0, 5, true⟩,
    ⟨character ||| previous ||| branch, 1, 6, false⟩,
    Code.jumpTo 6 21,
    ⟨character ||| zeroWidth ||| branch, 1, 6, false⟩,
    Code.jumpTo 8 21,
    ⟨character ||| previous ||| branch, 1, 7, false⟩,
    ⟨character ||| zeroWidth ||| branch, 0, 8, true⟩,
    ⟨character ||| previous ||| branch, 1, 9, false⟩,
    ⟨character ||| zeroWidth ||| branch, 0, 10, true⟩,
    ⟨character ||| previous ||| branch, 1, 11, false⟩,
    ⟨character ||| zeroWidth ||| branch, 0, 12, true⟩,
    ⟨character ||| previous ||| branch, 1, 13, false⟩,
    ⟨character ||| zeroWidth ||| branch, 0, 13, true⟩,
    ⟨character ||| zeroWidth ||| branch, 0, 14, true⟩,
    ⟨character ||| zeroWidth ||| branch, 0, 15, true⟩,
    ⟨character ||| previous ||| branch, 0, 16, true⟩,
    ⟨character ||| previous, 0, 3, false⟩,
    ⟨character ||| branch, 1, 20, false⟩,
    ⟨character ||| branch, 0, 20, false⟩,
    Code.forkTo 23 24 true,
    ⟨markEnd, 0, 0, false⟩,
    Code.forkTo 25 26 true,
    ⟨report, 0, 0, true⟩ ]

/-- The jumps of the boundary lead to the instruction after it, and a character that is not of the class
leads past the repetition. -/
theorem assemble_closed_boundaryAndRun :
    assemble {} {} boundaryAndRun =
      .ok boundaryAndRunCode (boundaryAndRun.update 0 ({ · with mark := some 0 })) ∧
    boundaryAndRunCode.Closed ∧ ∀ t, boundaryAndRunCode.Visits t → 0 ≤ t ∧ t < 27 := by
  have hassemble : assemble {} {} boundaryAndRun =
      .ok boundaryAndRunCode (boundaryAndRun.update 0 ({ · with mark := some 0 })) := by decide +kernel
  exact ⟨hassemble, assemble_closed hassemble⟩

end Pattern
end ByteMatch
