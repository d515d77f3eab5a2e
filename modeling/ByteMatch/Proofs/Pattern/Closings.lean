import ByteMatch.Pattern.Numbering
import ByteMatch.Proofs.Pattern.Tree

/-!
# ByteMatch.Proofs.Pattern.Closings

The ends of groups: the masks of the marks that are nested in them, and their order.

* `Pattern.closings_mask`: the bits that are clear in a mask are the marks of the groups below a node.
* `Pattern.closings_ends`: the groups with marks end in the order in which a walk leaves them.
* `Pattern.getElem?_subMasks`, `Pattern.endOrder_eq`: the tables that are made of them.
-/

namespace ByteMatch
namespace Numbering

variable {a b : UInt32} {mark k : Nat}

theorem testBit_and : (a &&& b).toNat.testBit k = (a.toNat.testBit k && b.toNat.testBit k) := by
  rw [UInt32.toNat_and, Nat.testBit_and]

theorem testBit_or : (a ||| b).toNat.testBit k = (a.toNat.testBit k || b.toNat.testBit k) := by
  rw [UInt32.toNat_or, Nat.testBit_or]

theorem testBit_not (hk : k < 32) : (~~~a).toNat.testBit k = !a.toNat.testBit k := by
  change (~~~a).toBitVec.getLsbD k = !a.toBitVec.getLsbD k
  rw [UInt32.toBitVec_not, BitVec.getLsbD_not, decide_eq_true hk, Bool.true_and]

theorem testBit_allMarks (hk : k < 32) : allMarks.toNat.testBit k = true := by
  change (BitVec.allOnes 32).getLsbD k = true
  rw [BitVec.getLsbD_allOnes, decide_eq_true hk]

theorem testBit_markBit (hmark : mark < 32) : (markBit mark).toNat.testBit k = decide (k = mark) := by
  have hamount : (UInt32.ofNat mark).toNat % 32 = mark := by
    rw [UInt32.toNat_ofNat']
    omega
  have hword : (markBit mark).toBitVec = BitVec.twoPow 32 mark := by
    rw [markBit, UInt32.toBitVec_shiftLeft, BitVec.twoPow_eq, BitVec.shiftLeft_eq',
      BitVec.toNat_umod]
    exact congrArg _ hamount
  change (markBit mark).toBitVec.getLsbD k = _
  rw [hword, BitVec.getLsbD_twoPow, decide_eq_true hmark, Bool.true_and]
  exact decide_eq_decide.2 eq_comm

end Numbering

namespace Pattern

open ByteMatch.Numbering

variable {p q : Pattern} {root i j k m limit : Nat} {ends : List Closing}

/-- A node is a group with the given mark. -/
def IsMarked (q : Pattern) (mark j : Nat) : Prop :=
  (q.node j).kind = .group ∧ (q.node j).mark = some mark

/-- The end of a node, if it is a group with a mark. -/
def closing? (p q : Pattern) (j : Nat) : Option Closing :=
  match (q.node j).kind, (q.node j).mark with
  | .group, some mark => some ⟨j, mark, (q.closings (p.outline j)).1⟩
  | _, _ => none

theorem closing?_eq_some {c : Closing} : closing? p q j = some c ↔
    q.IsMarked c.mark j ∧ c.place = j ∧ c.mask = (q.closings (p.outline j)).1 := by
  rw [closing?, IsMarked]
  split
  · rename_i mark hkind hmark
    rw [hkind, hmark, Option.some.injEq, Option.some.injEq]
    constructor
    · rintro rfl
      exact ⟨⟨rfl, rfl⟩, rfl, rfl⟩
    · rintro ⟨⟨-, rfl⟩, rfl, hmask⟩
      rw [← hmask]
  · rename_i hnone
    simp only [reduceCtorEq, false_iff]
    rintro ⟨⟨hkind, hmark⟩, -⟩
    exact hnone _ hkind hmark

/-! ## Masks -/

theorem closings_of_isMarked {os : List Outline} (h : q.IsMarked m i) :
    q.closings (.node i os) = ((q.closingsList os).1 &&& ~~~markBit m,
      (q.closingsList os).2 ++ [⟨i, m, (q.closingsList os).1 &&& ~~~markBit m⟩]) := by
  rw [closings, h.1, h.2]

theorem closings_of_not_isMarked {os : List Outline} (h : ∀ m, ¬ q.IsMarked m i) :
    q.closings (.node i os) = q.closingsList os := by
  rw [closings]
  simp only
  split
  · rename_i mark hkind hmark
    exact absurd ⟨hkind, hmark⟩ (h mark)
  · rfl

theorem closingsList_mask {os : List Outline} (hk : k < 32) :
    (q.closingsList os).1.toNat.testBit k = false ↔
      ∃ o ∈ os, (q.closings o).1.toNat.testBit k = false := by
  induction os with
  | nil => simp [closingsList, testBit_allMarks hk]
  | cons o rest ih =>
    rw [closingsList, List.exists_mem_cons_iff, ← ih, ← Bool.and_eq_false_iff, ← testBit_and]

/-- The bits that are clear in the mask of a node are the marks of the groups below it. -/
theorem closings_mask (h : p.Acyclic root)
    (hbound : ∀ j m, p.Reaches root j → q.IsMarked m j → m < 32) (hi : p.Reaches root i)
    (hk : k < 32) : (q.closings (p.outline i)).1.toNat.testBit k = false ↔
      ∃ j, p.Reaches i j ∧ q.IsMarked k j := by
  induction i, hi using h.induction with
  | step i hi ih =>
    have hinner : (q.closingsList ((p.node i).children.map p.outline)).1.toNat.testBit k = false ↔
        ∃ c, p.Child i c ∧ ∃ j, p.Reaches c j ∧ q.IsMarked k j := by
      rw [closingsList_mask hk]
      constructor
      · rintro ⟨_, ho, hclear⟩
        obtain ⟨c, hc, rfl⟩ := List.mem_map.1 ho
        exact ⟨c, hc, (ih c hc).1 hclear⟩
      · rintro ⟨c, hc, hbelow⟩
        exact ⟨_, List.mem_map_of_mem hc, (ih c hc).2 hbelow⟩
    have hbelow : (∃ j, p.Reaches i j ∧ q.IsMarked k j) ↔
        q.IsMarked k i ∨ ∃ c, p.Child i c ∧ ∃ j, p.Reaches c j ∧ q.IsMarked k j := by
      constructor
      · rintro ⟨j, hij, hj⟩
        rcases Relation.ReflTransGen.cases_head hij with rfl | ⟨c, hc, hcj⟩
        · exact .inl hj
        · exact .inr ⟨c, hc, j, hcj, hj⟩
      · rintro (hi | ⟨c, hc, j, hcj, hj⟩)
        · exact ⟨i, .refl, hi⟩
        · exact ⟨j, .head hc hcj, hj⟩
    rw [h.outline_eq hi, hbelow, ← hinner]
    by_cases hmarked : ∃ m, q.IsMarked m i
    · obtain ⟨m, hm⟩ := hmarked
      have hself : q.IsMarked k i ↔ k = m := by
        rw [IsMarked, hm.2, Option.some.injEq]
        exact ⟨fun heq => heq.2.symm, fun heq => ⟨hm.1, heq.symm⟩⟩
      rw [closings_of_isMarked hm, testBit_and, testBit_not hk, testBit_markBit (hbound i m hi hm),
        Bool.and_eq_false_iff, Bool.not_eq_false', decide_eq_true_iff, hself, or_comm]
    · rw [not_exists] at hmarked
      rw [closings_of_not_isMarked hmarked, or_iff_right (hmarked k)]

/-! ## Ends -/

theorem closingsList_ends {os : List Outline} :
    (q.closingsList os).2 = os.flatMap fun o => (q.closings o).2 := by
  induction os with
  | nil => rfl
  | cons o rest ih => rw [List.flatMap_cons, ← ih, closingsList]

/-- The groups with marks end in the order in which a walk leaves them. -/
theorem closings_ends (h : p.Acyclic root) (hi : p.Reaches root i) :
    (q.closings (p.outline i)).2 = (p.outline i).postorder.filterMap (closing? p q) := by
  induction i, hi using h.induction with
  | step i hi ih =>
    have hinner : (q.closingsList ((p.node i).children.map p.outline)).2 =
        ((p.node i).children.flatMap fun j => (p.outline j).postorder).filterMap (closing? p q) := by
      rw [closingsList_ends, List.flatMap_map, List.filterMap_flatMap]
      exact List.flatMap_congr fun c hc => ih c hc
    rw [h.postorder_eq hi, List.filterMap_append, ← hinner]
    by_cases hmarked : ∃ m, q.IsMarked m i
    · obtain ⟨m, hm⟩ := hmarked
      have hself : closing? p q i = some ⟨i, m, (q.closings (p.outline i)).1⟩ :=
        closing?_eq_some.2 ⟨hm, rfl, rfl⟩
      rw [List.filterMap_cons, hself, List.filterMap_nil, h.outline_eq hi, closings_of_isMarked hm]
    · rw [not_exists] at hmarked
      have hself : closing? p q i = none :=
        Option.eq_none_iff_forall_ne_some.2 fun c hc => hmarked _ (closing?_eq_some.1 hc).1
      rw [List.filterMap_cons, hself, List.filterMap_nil, List.append_nil, h.outline_eq hi,
        closings_of_not_isMarked hmarked]

/-! ## Tables -/

theorem size_subMasks : (subMasks limit ends).size = limit := by
  rw [subMasks]
  have key : ∀ masks : Array UInt32, (ends.foldl (fun masks c => masks.setIfInBounds c.mark c.mask)
      masks).size = masks.size := by
    induction ends with
    | nil => exact fun _ => rfl
    | cons c rest ih =>
      intro masks
      rw [List.foldl_cons, ih, Array.size_setIfInBounds]
  rw [key, Array.size_replicate]

/-- The mask of a mark is the one of the group with the mark, and that of a mark that is not used has all
bits. -/
theorem getElem?_subMasks (hnodup : (ends.map Closing.mark).Nodup) (hm : m < limit) :
    (∀ c ∈ ends, c.mark = m → (subMasks limit ends)[m]? = some c.mask) ∧
      (m ∉ ends.map Closing.mark → (subMasks limit ends)[m]? = some allMarks) := by
  have key : ∀ masks : Array UInt32, masks.size = limit →
      (∀ c ∈ ends, c.mark = m → (ends.foldl (fun masks c => masks.setIfInBounds c.mark c.mask)
        masks)[m]? = some c.mask) ∧
      (m ∉ ends.map Closing.mark → (ends.foldl (fun masks c => masks.setIfInBounds c.mark c.mask)
        masks)[m]? = masks[m]?) := by
    induction ends with
    | nil => exact fun masks _ => ⟨fun c hc => absurd hc List.not_mem_nil, fun _ => rfl⟩
    | cons c rest ih =>
      intro masks hsize
      rw [List.map_cons, List.nodup_cons] at hnodup
      obtain ⟨hfound, hunused⟩ := ih hnodup.2 (masks.setIfInBounds c.mark c.mask)
        (by rw [Array.size_setIfInBounds, hsize])
      rw [List.foldl_cons, List.map_cons]
      refine ⟨fun d hd hmark => ?_, fun hfresh => ?_⟩
      · rcases List.mem_cons.1 hd with rfl | hd
        · rw [hunused (hmark ▸ hnodup.1), hmark, Array.getElem?_setIfInBounds_self_of_lt (by omega)]
        · exact hfound d hd hmark
      · rw [List.mem_cons, not_or] at hfresh
        rw [hunused hfresh.2, Array.getElem?_setIfInBounds_ne (Ne.symm hfresh.1)]
  rw [subMasks]
  obtain ⟨hfound, hunused⟩ := key (Array.replicate limit allMarks) (Array.size_replicate ..)
  refine ⟨hfound, fun hfresh => ?_⟩
  rw [hunused hfresh, Array.getElem?_replicate, if_pos hm]

/-- Groups with different marks are numbered in the order in which they end. -/
theorem endOrder_eq (hnodup : (ends.map Closing.mark).Nodup) :
    endOrder ends = (ends.map Closing.mark).zipIdx := by
  have key : ∀ marks : List Nat, (marks ++ ends.map Closing.mark).Nodup →
      ends.foldl (fun order c => order.filter (·.1 != c.mark) ++ [(c.mark, order.length)])
        marks.zipIdx = (marks ++ ends.map Closing.mark).zipIdx := by
    clear hnodup
    induction ends with
    | nil => exact fun marks _ => by rw [List.map_nil, List.append_nil, List.foldl_nil]
    | cons c rest ih =>
      intro marks hnodup
      rw [List.map_cons, List.append_cons] at hnodup ⊢
      have hfresh : c.mark ∉ marks := by
        have hleft := (List.nodup_append.1 hnodup).1
        exact fun hmem => (List.nodup_append.1 hleft).2.2 _ hmem _ (List.mem_singleton_self _) rfl
      have hkeep : marks.zipIdx.filter (·.1 != c.mark) = marks.zipIdx := by
        refine List.filter_eq_self.2 fun e he => ?_
        have hmem : e.1 ∈ marks := List.fst_mem_of_mem_zipIdx he
        exact bne_iff_ne.2 fun heq => hfresh (heq ▸ hmem)
      rw [List.foldl_cons, ← ih _ hnodup, hkeep, List.zipIdx_append, List.length_zipIdx]
      simp
  exact key [] hnodup

end Pattern
end ByteMatch
