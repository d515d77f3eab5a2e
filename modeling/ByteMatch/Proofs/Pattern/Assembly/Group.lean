import ByteMatch.Pattern.Assembly.Group
import ByteMatch.Proofs.Pattern.Assembly

/-!
# ByteMatch.Proofs.Pattern.Assembly.Group

A group reads what its children read, one after the other. Its marks make no difference.

* `Assembler.emits_group`: the fragment of a group.
-/

namespace ByteMatch
namespace Assembler

open Step

variable {α : Type} {cls : Int → α → Bool} {p : Pattern} {s s' : Assembly}

theorem emits_groupStart {isLazy : Bool} {mark : Option Nat} :
    Emits cls p (1 : Language α) (groupStart isLazy mark) := by
  cases mark with
  | none => exact .nil
  | some mark =>
    rw [groupStart]
    split
    · exact .of_emit fun _ _ => Code.Reads.skip (by decide)
    · split
      · exact .of_emit fun _ _ => Code.Reads.skip (by decide)
      · exact .nil

theorem emits_groupEnd {mark : Option Nat} :
    Emits cls p (1 : Language α) (groupEnd false mark) := by
  cases mark with
  | none => exact .nil
  | some mark =>
    rw [groupEnd, if_neg (by decide)]
    refine .of_emit fun place counter => ?_
    have hend : Code.Reads cls (1 : Language α) [⟨Opcode.newThread, 0, 1, true⟩] place counter :=
      Code.Reads.goOn (.inr (by decide))
    have hmark : Code.Reads cls (1 : Language α) [⟨Opcode.markEnd, mark, 0, false⟩] (place + 1)
        counter := Code.Reads.skip (by decide)
    have hboth := hend.append hmark
    rw [one_mul] at hboth
    exact hboth

/-- The mark that is taken is the next one, and there is one. -/
theorem takeMark_ok {settings : Settings} {mark : Nat} (h : takeMark settings s = .ok mark s') :
    mark = s.nextMark ∧ s.nextMark < settings.limits.marks ∧
      s' = { s with nextMark := s.nextMark + 1 } := by
  rw [takeMark] at h
  obtain ⟨t, s₁, hget, hrest⟩ := bind_ok.1 h
  obtain ⟨rfl, rfl⟩ := get_ok.1 hget
  simp only at hrest
  split at hrest
  · obtain ⟨_, _, hthrow, -⟩ := bind_ok.1 hrest
    exact (throw_ok.1 hthrow).elim
  · rename_i hroom
    obtain ⟨_, _, hmodify, hpure⟩ := bind_ok.1 hrest
    obtain ⟨hmark, hs'⟩ := pure_ok.1 hpure
    exact ⟨hmark.symm, Nat.lt_of_not_le hroom, by rw [← hs', ← modify_ok.1 hmodify]⟩

/-- A group reads what its children read, one after the other. -/
theorem emits_group {settings : Settings} {i : Nat} {Ls : List (Language α)}
    {parts : List (Assembler Code)} (hconsuming : (p.node i).attributes.lookahead = false)
    (hparts : List.Forall₂ (Emits cls p) Ls parts) :
    Emits cls p Ls.prod (group settings i parts) := by
  have hwith : ∀ isLazy mark, Emits cls p Ls.prod
      (inSequence (groupStart isLazy mark :: parts ++ [groupEnd false mark])) := by
    intro isLazy mark
    have hall : List.Forall₂ (Emits cls p) (1 :: Ls ++ [1])
        (groupStart isLazy mark :: parts ++ [groupEnd false mark]) :=
      .cons emits_groupStart (List.rel_append hparts (.cons emits_groupEnd .nil))
    have hprod := Emits.inSequence hall
    rw [List.cons_append, List.prod_cons, List.prod_append, List.prod_singleton, one_mul,
      mul_one] at hprod
    exact hprod
  refine .of_node fun n hn => ?_
  have hlookahead : n.attributes.lookahead = false := by
    rw [← hconsuming]
    exact congrArg (·.attributes.lookahead) hn
  simp only [hlookahead]
  split
  · -- the mark that is taken for a lazy group is given back
    intro s code s' hp hret hok
    obtain ⟨mark, s₁, hmark, hrest⟩ := bind_ok.1 hok
    obtain ⟨rfl, -, rfl⟩ := takeMark_ok hmark
    obtain ⟨code', s₂, hcode, hrest'⟩ := bind_ok.1 hrest
    obtain ⟨_, s₃, hrelease, hpure⟩ := bind_ok.1 hrest'
    obtain ⟨rfl, rfl⟩ := pure_ok.1 hpure
    obtain rfl := modify_ok.1 hrelease
    obtain ⟨hemit, hreads⟩ :=
      hwith _ _ { s with nextMark := s.nextMark + 1 } _ _ hp hret hcode
    exact ⟨⟨hemit.pattern, hemit.position, hemit.counter, hemit.returns⟩, hreads⟩
  · exact hwith _ _

end Assembler
end ByteMatch
