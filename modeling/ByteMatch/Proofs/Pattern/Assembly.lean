import ByteMatch.Pattern.Assembly
import ByteMatch.Proofs.Instruction.Fragment
import ByteMatch.Proofs.Pattern.Language
import ByteMatch.Proofs.Step

/-!
# ByteMatch.Proofs.Pattern.Assembly

What the steps of an assembly emit.

* `Assembler.Emitted`: the fragment has been counted, and what was taken for it has been given back.
* `Assembler.Emits`: whenever a step succeeds, its fragment reads a language.
* `Assembler.Emits.inSequence`: steps one after the other.
-/

namespace ByteMatch
namespace Assembler

open Step

variable {α β γ : Type} {s s' : Assembly}

/-! ## Steps that succeed -/

section Steps

theorem node_ok {i : Nat} {n : Node} : node i s = .ok n s' ↔ s.pattern.node i = n ∧ s = s' := by
  simp only [node, bind_ok, get_ok, pure_ok]
  constructor
  · rintro ⟨_, _, ⟨rfl, rfl⟩, rfl, rfl⟩
    exact ⟨rfl, rfl⟩
  · rintro ⟨rfl, rfl⟩
    exact ⟨s, s, ⟨rfl, rfl⟩, rfl, rfl⟩

theorem position_ok {n : Nat} : position s = .ok n s' ↔ s.position = n ∧ s = s' := by
  simp only [position, bind_ok, get_ok, pure_ok]
  constructor
  · rintro ⟨_, _, ⟨rfl, rfl⟩, rfl, rfl⟩
    exact ⟨rfl, rfl⟩
  · rintro ⟨rfl, rfl⟩
    exact ⟨s, s, ⟨rfl, rfl⟩, rfl, rfl⟩

theorem updateAttributes_ok {i : Nat} {f : Attributes → Attributes} {u : Unit}
    (h : updateAttributes i f s = .ok u s') :
    s' = { s with pattern := s.pattern.updateAttributes i f } := (modify_ok.1 h).symm

theorem emit_ok {t : Template} {args : List Int} {code : Code} (h : emit t args s = .ok code s') :
    code = t.fill args ∧ s' = { s with position := s.position + code.length } := by
  rw [emit, Template.instantiate] at h
  by_cases harity : t.arity = args.length
  · simp only [harity, if_true, bind_ok, modify_ok, pure_ok] at h
    obtain ⟨_, _, rfl, rfl, rfl⟩ := h
    exact ⟨rfl, rfl⟩
  · simp only [harity, if_false] at h
    exact (throw_ok.1 h).elim

theorem operand_ok {role : OperandRole} {value x : Int} (h : operand role value s = .ok x s') :
    x = value ∧ s' = s := by
  rw [operand] at h
  split at h
  · obtain ⟨rfl, rfl⟩ := pure_ok.1 h
    exact ⟨rfl, rfl⟩
  · exact (throw_ok.1 h).elim

theorem assertionClass_ok {a : AssertionClass} {x : Int} (h : assertionClass a s = .ok x s') : s' = s := by
  obtain ⟨t, s₁, hget, hrest⟩ := bind_ok.1 h
  obtain ⟨rfl, rfl⟩ := get_ok.1 hget
  cases hclass : s.pattern.assertionClass? a with
  | none =>
    rw [hclass] at hrest
    exact (throw_ok.1 hrest).elim
  | some root =>
    rw [hclass] at hrest
    exact (operand_ok hrest).2

theorem inSequence_cons_ok {x : Assembler Code} {xs : List (Assembler Code)} {code : Code}
    (h : inSequence (x :: xs) s = .ok code s') : ∃ a b s₁, x s = .ok a s₁ ∧
      inSequence xs s₁ = .ok b s' ∧ code = a ++ b := by
  obtain ⟨a, s₁, ha, hrest⟩ := bind_ok.1 h
  obtain ⟨b, s₂, hb, hpure⟩ := bind_ok.1 hrest
  obtain ⟨rfl, rfl⟩ := pure_ok.1 hpure
  exact ⟨a, b, s₁, ha, hb, rfl⟩

end Steps

/-! ## Fragments -/

/-- The instructions of a fragment have been counted, and the counters that were taken for it have been
given back. Of the pattern, only what has been found out about it has changed. -/
structure Emitted (s : Assembly) (code : Code) (s' : Assembly) : Prop where
  pattern : s'.pattern.Alike s.pattern
  position : s'.position = s.position + code.length
  counter : s'.counter = s.counter
  returns : s'.returns = s.returns

namespace Emitted

variable {s₁ : Assembly} {code more : Code}

theorem nil : Emitted s [] s := ⟨.refl _, rfl, rfl, rfl⟩

theorem append (h : Emitted s code s₁) (h' : Emitted s₁ more s') : Emitted s (code ++ more) s' where
  pattern := h'.pattern.trans h.pattern
  position := by rw [h'.position, h.position, List.length_append, Nat.add_assoc]
  counter := h'.counter.trans h.counter
  returns := h'.returns.trans h.returns

theorem of_emit {t : Template} {args : List Int} (h : emit t args s = .ok code s') :
    Emitted s code s' := by
  obtain ⟨-, rfl⟩ := emit_ok h
  exact ⟨.refl _, rfl, rfl, rfl⟩

/-- A placeholder. -/
theorem blank (s : Assembly) :
    Emitted s [⟨Opcode.null, 0, 0, false⟩] { s with position := s.position + 1 } :=
  ⟨.refl _, rfl, rfl, rfl⟩

end Emitted

/-- Whenever the step succeeds in the assembly of a pattern like `p`, and not in the place of a shared
tail, the fragment reads `L`. -/
def Emits (cls : Int → α → Bool) (p : Pattern) (L : Language α) (x : Assembler Code) : Prop :=
  ∀ s code s', s.pattern.Alike p → s.returns = [] → x s = .ok code s' →
    Emitted s code s' ∧ Code.Reads cls L code s.position s.counter

namespace Emits

variable {cls : Int → α → Bool} {p : Pattern} {L M : Language α} {x y : Assembler Code}

theorem nil : Emits cls p (1 : Language α) (pure []) := by
  intro s code s' _ _ h
  obtain ⟨rfl, rfl⟩ := pure_ok.1 h
  exact ⟨.nil, .nil⟩

/-- An instance of a template that reads a language at any place. -/
theorem of_emit {t : Template} {args : List Int}
    (h : ∀ place counter, Code.Reads cls L (t.fill args) place counter) :
    Emits cls p L (emit t args) := by
  intro s code s' _ _ hok
  refine ⟨.of_emit hok, ?_⟩
  rw [(emit_ok hok).1]
  exact h _ _

theorem of_operand {role : OperandRole} {value : Int} {f : Int → Assembler Code}
    (h : Emits cls p L (f value)) : Emits cls p L (operand role value >>= f) := by
  intro s code s' hp hret hok
  obtain ⟨x, s₁, hx, hrest⟩ := bind_ok.1 hok
  obtain ⟨rfl, rfl⟩ := operand_ok hx
  exact h _ _ _ hp hret hrest

theorem of_get {f : Assembly → Assembler Code} (h : ∀ t, Emits cls p L (f t)) :
    Emits cls p L (get >>= f) := by
  intro s code s' hp hret hok
  obtain ⟨t, s₁, hget, hrest⟩ := bind_ok.1 hok
  obtain ⟨rfl, rfl⟩ := get_ok.1 hget
  exact h _ _ _ _ hp hret hrest

/-- A node has what comes with the pattern. -/
theorem of_node {i : Nat} {f : Node → Assembler Code}
    (h : ∀ n, n.given = (p.node i).given → Emits cls p L (f n)) :
    Emits cls p L (node i >>= f) := by
  intro s code s' hp hret hok
  obtain ⟨n, s₁, hnode, hrest⟩ := bind_ok.1 hok
  obtain ⟨rfl, rfl⟩ := node_ok.1 hnode
  exact h _ (hp.2 i) _ _ _ hp hret hrest

theorem of_throw {e : CompileError} : Emits cls p L (throw e) :=
  fun _ _ _ _ _ hok => (throw_ok.1 hok).elim

theorem append (hx : Emits cls p L x) (hy : Emits cls p M y) :
    Emits cls p (L * M) (do
      let code ← x
      let more ← y
      pure (code ++ more)) := by
  intro s code s' hp hret hok
  obtain ⟨a, s₁, hok₁, hrest⟩ := bind_ok.1 hok
  obtain ⟨b, s₂, hok₂, hend⟩ := bind_ok.1 hrest
  obtain ⟨rfl, rfl⟩ := pure_ok.1 hend
  obtain ⟨hemit, hreads⟩ := hx _ _ _ hp hret hok₁
  obtain ⟨hemit', hreads'⟩ := hy _ _ _ (hemit.pattern.trans hp) (hemit.returns.trans hret) hok₂
  rw [hemit.position, hemit.counter] at hreads'
  exact ⟨hemit.append hemit', hreads.append hreads'⟩

theorem append₃ {z : Assembler Code} {N : Language α} (hx : Emits cls p L x)
    (hy : Emits cls p M y) (hz : Emits cls p N z) :
    Emits cls p (L * M * N) (do
      let a ← x
      let b ← y
      let c ← z
      pure (a ++ b ++ c)) := by
  intro s code s' hp hret hok
  obtain ⟨a, s₁, hok₁, hrest₁⟩ := bind_ok.1 hok
  obtain ⟨b, s₂, hok₂, hrest₂⟩ := bind_ok.1 hrest₁
  obtain ⟨c, s₃, hok₃, hend⟩ := bind_ok.1 hrest₂
  obtain ⟨rfl, rfl⟩ := pure_ok.1 hend
  have hxy := (hx.append hy) s (a ++ b) s₂ hp hret
    (bind_ok.2 ⟨a, s₁, hok₁, bind_ok.2 ⟨b, s₂, hok₂, pure_ok.2 ⟨rfl, rfl⟩⟩⟩)
  obtain ⟨hemit, hreads⟩ := hxy
  obtain ⟨hemit', hreads'⟩ := hz _ _ _ (hemit.pattern.trans hp) (hemit.returns.trans hret) hok₃
  rw [hemit.position, hemit.counter] at hreads'
  exact ⟨hemit.append hemit', hreads.append hreads'⟩

theorem inSequence {Ls : List (Language α)} {xs : List (Assembler Code)}
    (h : List.Forall₂ (Emits cls p) Ls xs) : Emits cls p Ls.prod (inSequence xs) := by
  induction h with
  | nil => exact .nil
  | cons hx _ ih =>
    rw [List.prod_cons, Assembler.inSequence]
    exact hx.append ih

end Emits

theorem emits_char {cls : Int → α → Bool} {p : Pattern} {t : Template} {root : Int}
    (ht : t = Template.char ∨ t = Template.charAnchor) :
    Emits cls p (classLanguage cls root) (emit t [root]) := by
  refine .of_emit fun place counter => ?_
  rcases ht with rfl | rfl
  · exact Code.Reads.consume (by decide)
  · exact Code.Reads.consume (by decide)

theorem emits_yield {cls : Int → α → Bool} {p : Pattern} :
    Emits cls p (1 : Language α) (emit Template.yieldThread []) :=
  .of_emit fun _ _ => Code.Reads.goOn (.inr (by decide))

end Assembler
end ByteMatch
