import ByteMatch.Pattern.Guarding
import ByteMatch.Pattern.Numbering
import ByteMatch.Proofs.Pattern.Language
import ByteMatch.Proofs.Pattern.Tree
import ByteMatch.Proofs.Step

/-!
# ByteMatch.Proofs.Pattern.Annotation

What the steps before the assembly leave of a pattern.

* `Annotating.Keeps`: a step that only notes what it finds out.
* `Pattern.Regular.noteStart_eq`: matches of a pattern without assertions can start anywhere.
* `Pattern.Regular.number_ok`, `Pattern.keeps_noteGuards`: marks and guards do not change a pattern.
-/

namespace ByteMatch

open Step

/-! ## Steps that annotate -/

namespace Annotating

variable {β γ : Type}

/-- Whenever the step succeeds, it has only noted what it has found out. -/
def Keeps (x : Annotating β) : Prop := ∀ p b p', x p = .ok b p' → p'.Alike p

namespace Keeps

theorem pure {b : β} : Keeps (Pure.pure b) := by
  intro p b p' h
  obtain ⟨-, rfl⟩ := pure_ok.1 h
  exact .refl p

theorem bind {x : Annotating β} {f : β → Annotating γ} (hx : Keeps x) (hf : ∀ b, Keeps (f b)) :
    Keeps (x >>= f) := by
  intro p c p' h
  obtain ⟨b, p₁, hb, hrest⟩ := bind_ok.1 h
  exact (hf b p₁ c p' hrest).trans (hx p b p₁ hb)

theorem get : Keeps (MonadState.get : Annotating Pattern) := by
  intro p q p' h
  obtain ⟨-, rfl⟩ := get_ok.1 h
  exact .refl p

theorem throw {e : CompileError} : Keeps (MonadExcept.throw e : Annotating β) :=
  fun _ _ _ h => (throw_ok.1 h).elim

theorem check {c : Prop} [Decidable c] {e : CompileError} {f : PUnit → Annotating β}
    (hf : Keeps (f ⟨⟩)) : Keeps (if c then MonadExcept.throw e >>= f else f ⟨⟩) := by
  split
  · exact .bind .throw fun _ => hf
  · exact hf

theorem update {i : Nat} {f : Node → Node} (hf : ∀ n, (f n).given = n.given) :
    Keeps (modify (·.update i f)) := by
  intro p u p' h
  rw [← modify_ok.1 h]
  exact Pattern.alike_update hf

end Keeps
end Annotating

namespace Pattern

open Annotating

variable {p q q' : Pattern} {root : Nat} {limits : Limits}

theorem keeps_assignMarks {limit mark : Nat} {names : List (String × Nat)} {groups : List Nat} :
    Keeps (assignMarks limit mark names groups) := by
  induction groups generalizing mark names with
  | nil => exact .pure
  | cons i rest ih =>
    rw [assignMarks]
    refine .check (.bind (.update fun _ => ?_) fun _ => .bind .get fun q => ?_)
    · rfl
    · cases (q.node i).name with
      | none => exact ih
      | some name => exact ih

theorem keeps_assignGuards {limit guard : Nat} {found : List Nat} :
    Keeps (assignGuards limit guard found) := by
  induction found generalizing guard with
  | nil => exact .pure
  | cons i rest ih =>
    rw [assignGuards]
    refine .check (.bind (.update fun _ => ?_) fun _ => ih)
    rfl

theorem keeps_noteGuards : Keeps (noteGuards root limits) :=
  .bind .get fun _ => .bind keeps_assignGuards fun _ => .pure

/-- Without assertions there are no backreferences to resolve. -/
theorem resolveReferences_ok {places rest : List Nat} {names : List (String × Nat)}
    {mask mask' : UInt32} (hplain : ∀ i ∈ rest, ∀ a, (q.node i).kind ≠ .action a)
    (h : resolveReferences root places names mask rest q = .ok mask' q') : q' = q := by
  induction rest with
  | nil => exact (pure_ok.1 h).2.symm
  | cons i rest ih =>
    obtain ⟨t, q₁, hget, hrest⟩ := bind_ok.1 h
    obtain ⟨rfl, rfl⟩ := get_ok.1 hget
    have hnext : resolveReferences root places names mask rest q = .ok mask' q' := by
      cases hkind : (q.node i).kind with
      | action a => exact absurd hkind (hplain i List.mem_cons_self a)
      | group | alternation | repetition | charClass =>
        rw [hkind] at hrest
        exact hrest
    exact ih (fun j hj => hplain j (List.mem_cons_of_mem _ hj)) hnext

namespace Regular

variable (h : q.Regular root)
include h

theorem number_ok {indexAlternatives : Bool} {numbering : Numbering}
    (hok : number root indexAlternatives limits q = .ok numbering q') : q'.Alike q := by
  obtain ⟨_, _, hget, hrest₁⟩ := bind_ok.1 hok
  obtain ⟨rfl, rfl⟩ := get_ok.1 hget
  obtain ⟨_, _, hget, hrest₂⟩ := bind_ok.1 hrest₁
  obtain ⟨rfl, rfl⟩ := get_ok.1 hget
  obtain ⟨names, q₁, hmarks, hrest₃⟩ := bind_ok.1 hrest₂
  have halike := keeps_assignMarks _ _ _ hmarks
  -- the check that there is a mark for the alternatives
  simp only at hrest₃
  split at hrest₃
  · obtain ⟨_, _, hthrow, -⟩ := bind_ok.1 hrest₃
    exact (throw_ok.1 hthrow).elim
  · obtain ⟨_, _, hget, hrest₄⟩ := bind_ok.1 hrest₃
    obtain ⟨rfl, rfl⟩ := get_ok.1 hget
    obtain ⟨mask, q₂, hreferences, hpure⟩ := bind_ok.1 hrest₄
    obtain ⟨-, rfl⟩ := pure_ok.1 hpure
    have hplain : ∀ i ∈ (q.outline root).preorder, ∀ a, (q₁.node i).kind ≠ .action a := by
      intro i hi a
      rw [halike.kind]
      exact h.no_action i ((h.mem_preorder .refl).1 hi) a
    rw [resolveReferences_ok hplain hreferences]
    exact halike

theorem leadingAssertion_eq {belowLoop : Bool} {i : Nat} (hi : q.Reaches root i) :
    q.leadingAssertion belowLoop (q.leading i) = none := by
  have hacyclic := h.toAcyclic
  induction i, hi using hacyclic.induction generalizing belowLoop with
  | step i hi ih =>
    obtain ⟨rest, hleading, hrest⟩ : ∃ rest, q.leading i = i :: rest ∧
        ∀ belowLoop, q.leadingAssertion belowLoop rest = none := by
      refine ⟨_, hacyclic.leading_eq hi, fun belowLoop => ?_⟩
      cases hc : (q.node i).children with
      | nil => rfl
      | cons j rest => exact ih j (by simp [hc])
    rw [hleading, leadingAssertion]
    cases hkind : (q.node i).kind with
    | action a => exact absurd hkind (h.no_action i hi a)
    | alternation | charClass => rfl
    | group => simp only [h.consuming i hi, Bool.false_eq_true, if_false, hrest]
    | repetition min max => simp only [hrest, ite_self]

theorem noteStart_eq : q.noteStart root = q := by
  rw [noteStart, h.leadingAssertion_eq .refl]

end Regular
end Pattern
end ByteMatch
