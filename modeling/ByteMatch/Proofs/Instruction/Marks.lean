import Mathlib.Computability.Language
import ByteMatch.Instruction.Template

/-!
# ByteMatch.Proofs.Instruction.Marks

The instructions that use marks.

They open and close groups, and they record which alternative has been taken. In a fragment the other
instructions stand between them.

* `Code.marks`: the instructions of a fragment that use marks.
* `Template.markFree`: templates without such instructions.
* `Nesting`: the marks of a construct, around those of its parts.
-/

namespace ByteMatch

/-- Whether the index of the instruction is a mark that it sets, or that it goes back to. -/
def Opcode.usesMark (op : UInt8) : Bool :=
  op == markStart || op == markEnd || op == setContext || op == resetToMark || op == setMark

/-- The instructions of a fragment that use marks. -/
def Code.marks (code : Code) : Code := code.filter (Opcode.usesMark ·.opcode)

/-- No instruction of a template uses a mark. -/
def Template.markFree (t : Template) : Bool := t.all (!Opcode.usesMark ·.opcode)

namespace Code

variable {code more : Code} {i : Instruction}

@[simp] theorem marks_nil : marks [] = [] := rfl

@[simp] theorem marks_append : marks (code ++ more) = code.marks ++ more.marks := List.filter_append ..

@[simp] theorem marks_cons :
    marks (i :: code) = if Opcode.usesMark i.opcode then i :: code.marks else code.marks := List.filter_cons

theorem mem_marks : i ∈ code.marks ↔ i ∈ code ∧ Opcode.usesMark i.opcode = true := List.mem_filter

end Code

theorem Template.marks_fill {t : Template} (h : t.markFree = true) (args : List Int) :
    (t.fill args).marks = [] := by
  induction t generalizing args with
  | nil => rfl
  | cons i rest ih =>
    rw [markFree, List.all_cons, Bool.and_eq_true, Bool.not_eq_true'] at h
    rw [fill, Code.marks_cons, h.1, if_neg Bool.false_ne_true]
    exact ih h.2 _

/-! ## Nestings -/

/-- The instructions that use marks in a construct: those of the construct itself, before and after those
of its parts. -/
inductive Nesting where
  | node (place : Nat) (before : Code) (parts : List Nesting) (after : Code)

namespace Nesting

/-- The place of the construct in the pattern. -/
def place : Nesting → Nat
  | node i _ _ _ => i

/-- The constructs that the construct is made of. -/
def parts : Nesting → List Nesting
  | node _ _ ts _ => ts

mutual

/-- All instructions in their order. -/
def code : Nesting → Code
  | node _ before parts after => before ++ codeList parts ++ after

/-- The instructions of several constructs. -/
def codeList : List Nesting → Code
  | [] => []
  | t :: rest => code t ++ codeList rest

end

/-- A construct is another one or a part of it. -/
inductive Within : Nesting → Nesting → Prop
  | refl {t : Nesting} : Within t t
  | part {t u : Nesting} {i : Nat} {before after : Code} {parts : List Nesting} (hu : u ∈ parts)
      (h : Within t u) : Within t (node i before parts after)

variable {t u : Nesting} {ts parts : List Nesting} {i : Instruction} {place : Nat} {before after : Code}

@[simp] theorem place_node : (node place before parts after).place = place := rfl

@[simp] theorem parts_node : (node place before parts after).parts = parts := rfl

theorem codeList_eq_flatMap : codeList ts = ts.flatMap code := by
  induction ts with
  | nil => rfl
  | cons t rest ih => rw [codeList, ih, List.flatMap_cons]

theorem mem_codeList : i ∈ codeList ts ↔ ∃ t ∈ ts, i ∈ t.code := by
  rw [codeList_eq_flatMap, List.mem_flatMap]

theorem Within.trans {v : Nesting} (h : Within t u) (h' : Within u v) : Within t v := by
  induction h' with
  | refl => exact h
  | part hu _ ih => exact .part hu ih

theorem Within.of_mem_parts (h : t ∈ u.parts) : Within t u := by
  cases u with
  | node => exact .part h .refl

/-- The instructions of a part are among those of the whole. -/
theorem Within.mem_code (h : Within t u) (hi : i ∈ t.code) : i ∈ u.code := by
  induction h with
  | refl => exact hi
  | part hu _ ih =>
    rw [code, List.mem_append, List.mem_append, mem_codeList]
    exact .inl (.inr ⟨_, hu, ih⟩)

end Nesting
end ByteMatch
