import Mathlib.Data.List.Flatten
import ByteMatch.Pattern.Guarding
import ByteMatch.Proofs.Pattern.Numbering
import ByteMatch.Proofs.Pattern.Preparation

/-!
# ByteMatch.Proofs.Pattern.Guarding

The repetitions that get a guard.

* `Pattern.Searched`: the nodes that the search for guards comes to.
* `Pattern.Ends`: the nodes in which the search ends.
* `Pattern.Acyclic.mem_guarded`: a repetition gets a guard if it needs one and the search comes to it.
* `Pattern.noteGuards_cases`: the guards fit into the machine, or there are too many of them.
* `Pattern.not_controlling_of_referenced`: no guards in a group that a backreference refers to, and none after
  it unless a lookahead or an optional repetition is around the group.
-/

namespace ByteMatch

open Step

namespace Pattern

variable {p q : Pattern} {root i j k c limit guard : Nat} {limits : Limits}

/-- A repetition of a single character that can go on for long, and that is optional or cannot be confused
with what follows. -/
def NeedsGuard (p : Pattern) (i : Nat) : Prop :=
  ∃ min max c rest, (p.node i).kind = .repetition min max ∧ (p.node i).children = c :: rest ∧
    (p.node c).kind.class?.isSome = true ∧ ((p.node i).attributes.disjoint = true ∨ min = 0) ∧
    guardThreshold < max.getD unmeasured

/-- The search goes from a node to a child. It does not look into lookaheads and optional repetitions. -/
def LooksInto (p : Pattern) (i c : Nat) : Prop :=
  match (p.node i).kind with
  | .group => (p.node i).attributes.lookahead = false ∧ c ∈ (p.node i).children
  | .alternation => c ∈ (p.node i).children
  | .repetition min _ => min ≠ 0 ∧ (p.node i).children.head? = some c
  | _ => False

/-- The search of a node ends at a group that a backreference refers to. -/
inductive Ends (p : Pattern) : Nat → Prop
  | referenced {i : Nat} (hkind : (p.node i).kind = .group)
    (hlookahead : (p.node i).attributes.lookahead = false)
    (hreferenced : (p.node i).attributes.referenced = true) : Ends p i
  | deeper {i c : Nat} (hinto : p.LooksInto i c) (hends : Ends p c) : Ends p i

/-- The search goes on from a node to a child. In a group it comes to a child only if it has not ended
before. -/
@[mk_iff]
structure SearchStep (p : Pattern) (i c : Nat) : Prop where
  looksInto : p.LooksInto i c
  before : (p.node i).kind = .group → (p.node i).attributes.referenced = false ∧
    ∃ before after, (p.node i).children = before ++ c :: after ∧ ∀ b ∈ before, ¬ p.Ends b

/-- The search of a node comes to another one. -/
def Searched (p : Pattern) : Nat → Nat → Prop := Relation.ReflTransGen p.SearchStep

theorem LooksInto.child (h : p.LooksInto i c) : p.Child i c := by
  rw [LooksInto] at h
  split at h
  · exact h.2
  · exact h
  · exact List.mem_of_mem_head? h.2
  · exact h.elim

theorem Searched.reaches (h : p.Searched i j) : p.Reaches i j :=
  Relation.ReflTransGen.mono (fun _ _ (hstep : p.SearchStep _ _) => hstep.looksInto.child) i j h

/-! ## The search -/

theorem guardedInSequence_ends {os : List Outline} :
    (p.guardedInSequence os).2 = true ↔ ∃ o ∈ os, (p.guarded o).2 = true := by
  induction os with
  | nil => simp [guardedInSequence]
  | cons o rest ih =>
    rw [guardedInSequence, List.exists_mem_cons_iff, ← ih]
    simp only
    split
    · rename_i hended
      simp [hended]
    · rename_i hended
      simp [hended]

/-- A sequence is searched up to the first part in which the search ends. -/
theorem mem_guardedInSequence {os : List Outline} :
    j ∈ (p.guardedInSequence os).1 ↔ ∃ before o after, os = before ++ o :: after ∧
      (∀ b ∈ before, (p.guarded b).2 = false) ∧ j ∈ (p.guarded o).1 := by
  induction os with
  | nil => simp [guardedInSequence]
  | cons o rest ih =>
    have hsplit : (∃ before o' after, o :: rest = before ++ o' :: after ∧
        (∀ b ∈ before, (p.guarded b).2 = false) ∧ j ∈ (p.guarded o').1) ↔
        j ∈ (p.guarded o).1 ∨ ((p.guarded o).2 = false ∧ j ∈ (p.guardedInSequence rest).1) := by
      rw [ih]
      constructor
      · rintro ⟨before, o', after, heq, hbefore, hj⟩
        cases before with
        | nil =>
          obtain ⟨rfl, rfl⟩ := List.cons.inj heq
          exact .inl hj
        | cons b before =>
          obtain ⟨rfl, rfl⟩ := List.cons.inj heq
          rw [List.forall_mem_cons] at hbefore
          exact .inr ⟨hbefore.1, before, o', after, rfl, hbefore.2, hj⟩
      · rintro (hj | ⟨hgoes, before, o', after, rfl, hbefore, hj⟩)
        · exact ⟨[], o, rest, rfl, by simp, hj⟩
        · exact ⟨o :: before, o', after, rfl, List.forall_mem_cons.2 ⟨hgoes, hbefore⟩, hj⟩
    rw [hsplit, guardedInSequence]
    cases hended : (p.guarded o).2 with
    | true => simp [hended]
    | false => simp [hended]

theorem guardedInAlternatives_ends {os : List Outline} :
    (p.guardedInAlternatives os).2 = true ↔ ∃ o ∈ os, (p.guarded o).2 = true := by
  induction os with
  | nil => simp [guardedInAlternatives]
  | cons o rest ih => rw [guardedInAlternatives, List.exists_mem_cons_iff, ← ih, Bool.or_eq_true]

theorem guardedInAlternatives_eq {os : List Outline} :
    (p.guardedInAlternatives os).1 = os.flatMap fun o => (p.guarded o).1 := by
  induction os with
  | nil => rfl
  | cons o rest ih => rw [List.flatMap_cons, ← ih, guardedInAlternatives]

theorem guardedInSequence_sublist {os : List Outline} :
    (p.guardedInSequence os).1.Sublist (os.flatMap fun o => (p.guarded o).1) := by
  induction os with
  | nil => exact .slnil
  | cons o rest ih =>
    rw [guardedInSequence, List.flatMap_cons]
    simp only
    split
    · exact List.sublist_append_left _ _
    · exact (List.Sublist.refl _).append ih

theorem needsGuard_iff {min : Nat} {max : Option Nat} {rest : List Nat}
    (hkind : (p.node i).kind = .repetition min max) (hchildren : (p.node i).children = c :: rest) :
    p.NeedsGuard i ↔ ((p.node c).kind.class?.isSome && ((p.node i).attributes.disjoint || min == 0) &&
      decide (guardThreshold < max.getD unmeasured)) = true := by
  rw [Bool.and_eq_true, Bool.and_eq_true, Bool.or_eq_true, beq_iff_eq, decide_eq_true_iff, and_assoc]
  constructor
  · rintro ⟨min', max', c', rest', hkind', hchildren', hneeds⟩
    obtain ⟨rfl, rfl⟩ := Kind.repetition.inj (hkind.symm.trans hkind')
    obtain ⟨rfl, rfl⟩ := List.cons.inj (hchildren.symm.trans hchildren')
    exact hneeds
  · exact fun hneeds => ⟨min, max, c, rest, hkind, hchildren, hneeds⟩

/-- The search does not go on from a character. -/
theorem not_looksInto_of_class (hclass : (p.node i).kind.class?.isSome = true) : ¬ p.LooksInto i c := by
  rw [LooksInto]
  cases hkind : (p.node i).kind with
  | charClass root => exact id
  | group | alternation | repetition | action => simp [hkind, Kind.class?] at hclass

theorem not_needsGuard (hkind : ∀ min max, (p.node i).kind ≠ .repetition min max) : ¬ p.NeedsGuard i :=
  fun ⟨min, max, _, _, hrepetition, _⟩ => hkind min max hrepetition

theorem ends_iff : p.Ends i ↔ ((p.node i).kind = .group ∧ (p.node i).attributes.lookahead = false ∧
    (p.node i).attributes.referenced = true) ∨ ∃ c, p.LooksInto i c ∧ p.Ends c := by
  constructor
  · intro h
    cases h with
    | referenced hkind hlookahead hreferenced => exact .inl ⟨hkind, hlookahead, hreferenced⟩
    | deeper hinto hends => exact .inr ⟨_, hinto, hends⟩
  · rintro (⟨hkind, hlookahead, hreferenced⟩ | ⟨c, hinto, hends⟩)
    · exact .referenced hkind hlookahead hreferenced
    · exact .deeper hinto hends

theorem not_ends_of_class (hclass : (p.node i).kind.class?.isSome = true) : ¬ p.Ends i := by
  rw [ends_iff]
  rintro (⟨hkind, -⟩ | ⟨c, hinto, -⟩)
  · simp [hkind, Kind.class?] at hclass
  · exact not_looksInto_of_class hclass hinto

theorem searched_iff : p.Searched i j ↔ i = j ∨ ∃ c, p.SearchStep i c ∧ p.Searched c j := by
  rw [Searched, Relation.ReflTransGen.cases_head_iff]

/-- The search for guards finds the node itself, or it goes on to a child. -/
theorem searched_needsGuard_iff : p.Searched i j ∧ p.NeedsGuard j ↔
    (i = j ∧ p.NeedsGuard i) ∨ ∃ c, p.SearchStep i c ∧ p.Searched c j ∧ p.NeedsGuard j := by
  rw [searched_iff, or_and_right, exists_and_right.symm]
  refine or_congr (and_congr_right fun heq => by rw [heq]) (exists_congr fun c => and_assoc)

theorem searchStep_of_group (hkind : (p.node i).kind = .group) : p.SearchStep i c ↔
    (p.node i).attributes.lookahead = false ∧ (p.node i).attributes.referenced = false ∧
      ∃ before after, (p.node i).children = before ++ c :: after ∧ ∀ b ∈ before, ¬ p.Ends b := by
  simp only [searchStep_iff, LooksInto, hkind, forall_const]
  constructor
  · rintro ⟨⟨hlookahead, -⟩, hreferenced, hbefore⟩
    exact ⟨hlookahead, hreferenced, hbefore⟩
  · rintro ⟨hlookahead, hreferenced, before, after, hc, hbefore⟩
    exact ⟨⟨hlookahead, by simp [hc]⟩, hreferenced, before, after, hc, hbefore⟩

theorem searchStep_of_alternation (hkind : (p.node i).kind = .alternation) :
    p.SearchStep i c ↔ c ∈ (p.node i).children := by
  simp [searchStep_iff, LooksInto, hkind]

theorem searchStep_of_repetition {min : Nat} {max : Option Nat}
    (hkind : (p.node i).kind = .repetition min max) :
    p.SearchStep i c ↔ min ≠ 0 ∧ (p.node i).children.head? = some c := by
  simp [searchStep_iff, LooksInto, hkind]

namespace Acyclic

variable (h : p.Acyclic root)
include h

theorem guarded_eq (hi : p.Reaches root i) : p.guarded (p.outline i) =
    match (p.node i).kind with
    | .group =>
      if (p.node i).attributes.lookahead then ([], false)
      else if (p.node i).attributes.referenced then ([], true)
      else p.guardedInSequence ((p.node i).children.map p.outline)
    | .alternation => p.guardedInAlternatives ((p.node i).children.map p.outline)
    | .repetition min max =>
      match (p.node i).children with
      | [] => ([], false)
      | c :: _ =>
        if (p.node c).kind.class?.isSome && ((p.node i).attributes.disjoint || min == 0) &&
            decide (guardThreshold < max.getD unmeasured) then ([i], false)
        else if min == 0 then ([], false)
        else p.guarded (p.outline c)
    | _ => ([], false) := by
  rw [h.outline_eq hi, guarded]
  cases (p.node i).kind with
  | repetition min max =>
    cases hc : (p.node i).children with
    | nil => rfl
    | cons c rest =>
      have hplace : (p.outline c).place = c := h.place_outline (hi.tail (by simp [Child, hc]))
      simp only [List.map_cons, hplace]
  | group | alternation | charClass | action => rfl

/-- The search says whether it has ended. -/
theorem guarded_ends (hi : p.Reaches root i) : (p.guarded (p.outline i)).2 = true ↔ p.Ends i := by
  induction i, hi using h.induction with
  | step i hi ih =>
    have hall : (∃ o ∈ (p.node i).children.map p.outline, (p.guarded o).2 = true) ↔
        ∃ c ∈ (p.node i).children, p.Ends c := by
      simp only [List.mem_map, exists_exists_and_eq_and]
      exact exists_congr fun c => and_congr_right fun hc => ih c hc
    rw [h.guarded_eq hi, ends_iff]
    simp only [LooksInto]
    cases hkind : (p.node i).kind with
    | group =>
      cases (p.node i).attributes.lookahead with
      | true => simp
      | false =>
        cases (p.node i).attributes.referenced with
        | true => simp
        | false => simpa [guardedInSequence_ends] using hall
    | alternation => simpa [guardedInAlternatives_ends] using hall
    | repetition min max =>
      cases hc : (p.node i).children with
      | nil => simp
      | cons c rest =>
        have hends := ih c (by simp [hc])
        have hright : (∃ c', (min ≠ 0 ∧ (c :: rest).head? = some c') ∧ p.Ends c') ↔ min ≠ 0 ∧ p.Ends c := by
          simp
        simp only [reduceCtorEq, false_and, false_or]
        rw [hright, ← hends]
        split
        · rename_i hneeds
          simp only [Bool.and_eq_true] at hneeds
          simp [hends, not_ends_of_class hneeds.1.1]
        · split
          · rename_i hmin
            simp [beq_iff_eq.1 hmin]
          · rename_i hmin
            rw [and_iff_right fun hzero => hmin (beq_iff_eq.2 hzero)]
    | charClass c => simp
    | action a => simp

theorem guarded_of_class (hi : p.Reaches root i) (hclass : (p.node i).kind.class?.isSome = true) :
    (p.guarded (p.outline i)).1 = [] := by
  rw [h.guarded_eq hi]
  cases hkind : (p.node i).kind with
  | charClass root => rfl
  | group | alternation | repetition | action => simp [hkind, Kind.class?] at hclass

/-- The search of a sequence comes to the children up to the first one in which it ends. -/
theorem mem_guardedInSequence_children (hi : p.Reaches root i) :
    j ∈ (p.guardedInSequence ((p.node i).children.map p.outline)).1 ↔ ∃ c,
      (∃ before after, (p.node i).children = before ++ c :: after ∧ ∀ b ∈ before, ¬ p.Ends b) ∧
        j ∈ (p.guarded (p.outline c)).1 := by
  have hgoes : ∀ b ∈ (p.node i).children, (p.guarded (p.outline b)).2 = false ↔ ¬ p.Ends b :=
    fun b hb => by rw [← Bool.not_eq_true, h.guarded_ends (hi.tail hb)]
  rw [mem_guardedInSequence]
  constructor
  · rintro ⟨before, o, after, hsplit, hbefore, hj⟩
    obtain ⟨before', rest, hc, rfl, hrest⟩ := List.map_eq_append_iff.1 hsplit
    obtain ⟨c, after', rfl, rfl, rfl⟩ := List.map_eq_cons_iff.1 hrest
    refine ⟨c, ⟨before', after', hc, fun b hb => (hgoes b (by simp [hc, hb])).1 ?_⟩, hj⟩
    exact hbefore _ (List.mem_map_of_mem hb)
  · rintro ⟨c, ⟨before, after, hc, hbefore⟩, hj⟩
    refine ⟨before.map p.outline, p.outline c, after.map p.outline, by simp [hc], ?_, hj⟩
    intro o ho
    obtain ⟨b, hb, rfl⟩ := List.mem_map.1 ho
    exact (hgoes b (by simp [hc, hb])).2 (hbefore b hb)

/-- A repetition gets a guard if it needs one and the search comes to it. -/
theorem mem_guarded (hi : p.Reaches root i) :
    j ∈ (p.guarded (p.outline i)).1 ↔ p.Searched i j ∧ p.NeedsGuard j := by
  induction i, hi using h.induction with
  | step i hi ih =>
    have hsteps : (∃ c, p.SearchStep i c ∧ p.Searched c j ∧ p.NeedsGuard j) ↔
        ∃ c, p.SearchStep i c ∧ j ∈ (p.guarded (p.outline c)).1 :=
      exists_congr fun c => and_congr_right fun hstep => (ih c hstep.looksInto.child).symm
    rw [searched_needsGuard_iff, hsteps, h.guarded_eq hi]
    cases hkind : (p.node i).kind with
    | group =>
      simp only [searchStep_of_group hkind, not_needsGuard (p := p) (i := i) (by simp [hkind]), and_false,
        false_or]
      cases (p.node i).attributes.lookahead with
      | true => simp
      | false =>
        cases (p.node i).attributes.referenced with
        | true => simp
        | false => simpa using h.mem_guardedInSequence_children hi
    | alternation =>
      simp [searchStep_of_alternation hkind, not_needsGuard (p := p) (i := i) (by simp [hkind]),
        guardedInAlternatives_eq]
    | repetition min max =>
      cases hc : (p.node i).children with
      | nil =>
        have hself : ¬ p.NeedsGuard i := by
          rintro ⟨_, _, _, _, -, hc', -⟩
          cases hc.symm.trans hc'
        simp [hself, searchStep_of_repetition hkind, hc]
      | cons c rest =>
        have hstep : (∃ c', p.SearchStep i c' ∧ j ∈ (p.guarded (p.outline c')).1) ↔
            min ≠ 0 ∧ j ∈ (p.guarded (p.outline c)).1 := by
          simp [searchStep_of_repetition hkind, hc, and_assoc]
        rw [hstep, needsGuard_iff hkind hc]
        dsimp only
        split
        · rename_i hneeds
          -- what a repetition of a character is made of gets no guard, so that the two cases are apart
          have hclass : (p.guarded (p.outline c)).1 = [] := by
            simp only [Bool.and_eq_true] at hneeds
            exact h.guarded_of_class (hi.tail (by simp [Child, hc])) hneeds.1.1
          simp [hneeds, hclass, eq_comm]
        · rename_i hneeds
          simp only [hneeds, Bool.false_eq_true, and_false, false_or]
          split
          · rename_i hmin
            simp [beq_iff_eq.1 hmin]
          · rename_i hmin
            rw [and_iff_right fun hzero => hmin (beq_iff_eq.2 hzero)]
    | charClass | action =>
      simp [searchStep_iff, LooksInto, hkind, not_needsGuard (p := p) (i := i) (by simp [hkind])]

/-- Guards are found in the order of a walk. -/
theorem guarded_sublist (hi : p.Reaches root i) :
    (p.guarded (p.outline i)).1.Sublist (p.outline i).preorder := by
  induction i, hi using h.induction with
  | step i hi ih =>
    have hall : (((p.node i).children.map p.outline).flatMap fun o => (p.guarded o).1).Sublist
        (i :: (p.node i).children.flatMap fun c => (p.outline c).preorder) := by
      rw [List.flatMap_map]
      exact (List.Sublist.flatMap_right _ ih).cons i
    rw [h.guarded_eq hi, h.preorder_eq hi]
    cases (p.node i).kind with
    | group =>
      dsimp only
      split
      · exact List.nil_sublist _
      · split
        · exact List.nil_sublist _
        · exact guardedInSequence_sublist.trans hall
    | alternation => exact guardedInAlternatives_eq ▸ hall
    | repetition min max =>
      cases hc : (p.node i).children with
      | nil => exact List.nil_sublist _
      | cons c rest =>
        dsimp only
        split
        · exact (List.nil_sublist _).cons_cons i
        · split
          · exact List.nil_sublist _
          · rw [List.flatMap_cons]
            exact ((ih c (by simp [hc])).trans (List.sublist_append_left _ _)).cons i
    | charClass | action => exact List.nil_sublist _

end Acyclic

/-! ## Referenced groups -/

namespace Tree

variable (h : p.Tree root)
include h

/-- The search does not go into a group that a backreference refers to. -/
theorem eq_of_searched (hg : p.Reaches root i) (hkind : (p.node i).kind = .group)
    (hreferenced : (p.node i).attributes.referenced = true) (hij : p.Reaches i j)
    (hj : p.Searched root j) : i = j := by
  induction hj with
  | refl => exact h.eq_of_reaches hg hij hg
  | @tail k j hk hstep ih =>
    rcases Relation.ReflTransGen.cases_tail hij with heq | ⟨m, him, hmj⟩
    · exact heq.symm
    · obtain rfl := h.parent_unique m k j (hg.trans him) (Searched.reaches hk) hmj hstep.looksInto.child
      obtain rfl := ih him
      have hgoes := (hstep.before hkind).1
      rw [hreferenced] at hgoes
      cases hgoes

/-- The search comes to what is below a child of a node only through the node and the child. -/
theorem searchStep_of_searched (hi : p.Reaches root i) (hchild : p.Child i c) (hcj : p.Reaches c j)
    (hj : p.Searched root j) : p.SearchStep i c := by
  induction hj with
  | refl => exact absurd (hcj.trans hi) (h.not_reaches_of_child hi hchild)
  | @tail k j hk hstep ih =>
    rcases Relation.ReflTransGen.cases_tail hcj with rfl | ⟨m, hcm, hmj⟩
    · obtain rfl := h.parent_unique i k j hi (Searched.reaches hk) hchild hstep.looksInto.child
      exact hstep
    · obtain rfl := h.parent_unique m k j ((hi.tail hchild).trans hcm) (Searched.reaches hk) hmj
        hstep.looksInto.child
      exact ih hcm

/-- The search does not come to what follows a child of a group in which it ends. -/
theorem not_searched_after {before after : List Nat} (hi : p.Reaches root i)
    (hkind : (p.node i).kind = .group) (hchildren : (p.node i).children = before ++ c :: after)
    (hends : p.Ends c) (hk : k ∈ after) (hkj : p.Reaches k j) : ¬ p.Searched root j := by
  intro hj
  have hchild : p.Child i k := by simp [Child, hchildren, hk]
  obtain ⟨-, before', after', hchildren', hgoes⟩ :=
    (h.searchStep_of_searched hi hchild hkj hj).before hkind
  obtain ⟨between, rest, rfl⟩ := List.append_of_mem hk
  -- the children are different, so that the child in question is before the other one
  have heq : (before ++ c :: between) ++ k :: rest = before' ++ k :: after' := by
    rw [← hchildren', hchildren, List.append_assoc, List.cons_append]
  have hnodup := h.children_nodup i hi
  rw [hchildren', ← heq, List.nodup_middle, List.nodup_cons, List.mem_append, not_or] at hnodup
  obtain ⟨rfl, -⟩ := (List.append_cons_inj_of_notMem hnodup.1.1 hnodup.1.2).1 heq
  exact hgoes c (by simp) hends

end Tree

/-- The search of a node ends if it comes to a group that a backreference refers to. -/
theorem ends_of_looksInto (hpath : Relation.ReflTransGen p.LooksInto i j)
    (hkind : (p.node j).kind = .group) (hlookahead : (p.node j).attributes.lookahead = false)
    (hreferenced : (p.node j).attributes.referenced = true) : p.Ends i := by
  induction hpath using Relation.ReflTransGen.head_induction_on with
  | refl => exact .referenced hkind hlookahead hreferenced
  | head hinto _ ih => exact .deeper hinto ih

/-! ## Guards -/

/-- Repetitions with their guards, the first one with `guard`. -/
def giveGuards (p : Pattern) : Nat → List Nat → Pattern :=
  p.updateEach fun guard n =>
    { n with attributes := { n.attributes with controlling := true }, guard := some guard }

/-- The repetitions below the root that get a guard, in the order of a walk. -/
def found (p : Pattern) (root : Nat) : List Nat := (p.guarded (p.outline root)).1

theorem assignGuards_ok {is : List Nat} (hroom : guard + is.length ≤ limit) :
    assignGuards limit guard is p = .ok () (p.giveGuards guard is) := by
  induction is generalizing p guard with
  | nil => rfl
  | cons i rest ih =>
    rw [List.length_cons] at hroom
    rw [assignGuards, if_neg (by omega)]
    beta_reduce
    rw [bind_modify]
    exact ih (by omega)

theorem assignGuards_error {is : List Nat} (hguard : guard ≤ limit) (hfull : limit < guard + is.length) :
    ∃ q, assignGuards limit guard is p = .error (.tooManyGuards limit) q := by
  induction is generalizing p guard with
  | nil => exact absurd hfull (by simpa using hguard)
  | cons i rest ih =>
    rw [List.length_cons] at hfull
    rw [assignGuards]
    by_cases hlast : limit ≤ guard
    · rw [if_pos hlast]
      exact ⟨p, bind_throw⟩
    · rw [if_neg hlast]
      beta_reduce
      rw [bind_modify]
      exact ih (by omega) (by omega)

/-- The guards fit into the machine, and each repetition that is found gets one. Otherwise there is an
error. -/
theorem noteGuards_cases (p : Pattern) (root : Nat) (limits : Limits) :
    ((p.found root).length ≤ limits.maxGuards ∧
      noteGuards root limits p = .ok (p.found root).length (p.giveGuards 0 (p.found root))) ∨
    (limits.maxGuards < (p.found root).length ∧
      ∃ q, noteGuards root limits p = .error (.tooManyGuards limits.maxGuards) q) := by
  rcases Nat.lt_or_ge limits.maxGuards (p.found root).length with hfull | hroom
  · have hfull' : limits.maxGuards < 0 + (p.found root).length := by omega
    obtain ⟨q, hq⟩ := assignGuards_error (p := p) (Nat.zero_le limits.maxGuards) hfull'
    refine .inr ⟨hfull, q, ?_⟩
    rw [noteGuards, bind_get]
    exact bind_of_error hq
  · have hroom' : 0 + (p.found root).length ≤ limits.maxGuards := by omega
    have hok := assignGuards_ok (p := p) hroom'
    refine .inl ⟨hroom, ?_⟩
    rw [noteGuards, bind_get]
    exact bind_of_ok hok

theorem noteGuards_ok {count : Nat} (hok : noteGuards root limits p = .ok count q) :
    count = (p.found root).length ∧ q = p.giveGuards 0 (p.found root) := by
  rcases noteGuards_cases p root limits with ⟨-, hok'⟩ | ⟨-, q', herror⟩
  · obtain ⟨rfl, rfl⟩ := EStateM.Result.ok.inj (hok.symm.trans hok')
    exact ⟨rfl, rfl⟩
  · cases hok.symm.trans herror

namespace Tree

variable (h : p.Tree root)
include h

theorem mem_found : i ∈ p.found root ↔ p.Searched root i ∧ p.NeedsGuard i := h.mem_guarded .refl

theorem found_sublist : (p.found root).Sublist (p.outline root).preorder := h.guarded_sublist .refl

theorem found_nodup : (p.found root).Nodup := (h.preorder_nodup .refl).sublist h.found_sublist

theorem node_giveGuards : (p.giveGuards 0 (p.found root)).node i =
    if i ∈ p.found root then
      { p.node i with
        attributes := { (p.node i).attributes with controlling := true }
        guard := some ((p.found root).idxOf i) }
    else p.node i := by
  rw [giveGuards, node_updateEach (fun i hi => h.lt i (h.mem_found.1 hi).1.reaches) h.found_nodup,
    Nat.zero_add]

end Tree

/-! ## Trees that have been numbered -/

/-- No repetition has a guard yet. -/
structure Unguarded (p : Pattern) (root : Nat) : Prop where
  guard : ∀ i, p.Reaches root i → (p.node i).guard = none
  controlling : ∀ i, p.Reaches root i → (p.node i).attributes.controlling = false
  guardTested : ∀ i, p.Reaches root i → (p.node i).attributes.guardTested = false

theorem Tree.unguarded (h : p.Tree root) (hnodes : ∀ i < p.nodes.size, (p.node i).guard = none ∧
    (p.node i).attributes.controlling = false ∧ (p.node i).attributes.guardTested = false) :
    p.Unguarded root :=
  ⟨fun i hi => (hnodes i (h.lt i hi)).1, fun i hi => (hnodes i (h.lt i hi)).2.1,
    fun i hi => (hnodes i (h.lt i hi)).2.2⟩

namespace Prepared

variable (h : q.Prepared p)
include h

theorem reaches : q.Reaches = p.Reaches := reaches_of_same h.children

theorem unguarded (hp : p.Unguarded root) : q.Unguarded root := by
  refine ⟨fun i hi => ?_, fun i hi => ?_, fun i hi => ?_⟩
  · rw [h.get Node.guard fun _ => rfl]
    exact hp.guard i (h.reaches ▸ hi)
  · rw [h.get (·.attributes.controlling) fun _ => rfl]
    exact hp.controlling i (h.reaches ▸ hi)
  · rw [h.get (·.attributes.guardTested) fun _ => rfl]
    exact hp.guardTested i (h.reaches ▸ hi)

theorem looksInto : q.LooksInto = p.LooksInto := by
  funext i c
  have hlookahead : (q.node i).attributes.lookahead = (p.node i).attributes.lookahead :=
    h.get (·.attributes.lookahead) (fun _ => rfl) i
  rw [LooksInto, LooksInto, h.children, hlookahead]
  cases hkind : (p.node i).kind with
  | action a =>
    cases hkind' : (q.node i).kind with
    | action a' => rfl
    | group | alternation | repetition | charClass =>
      cases hkind.symm.trans ((h.kind_eq (by simp)).1 hkind')
  | group | alternation | repetition | charClass => rw [(h.kind_eq (by simp)).2 hkind]

theorem needsGuard : q.NeedsGuard i ↔ p.NeedsGuard i := by
  have hdisjoint : (q.node i).attributes.disjoint = (p.node i).attributes.disjoint :=
    h.get (·.attributes.disjoint) (fun _ => rfl) i
  have hkind : ∀ min max, (q.node i).kind = .repetition min max ↔ (p.node i).kind = .repetition min max :=
    fun _ _ => h.kind_eq (by simp)
  simp only [NeedsGuard, hkind, h.children, h.class?_eq, hdisjoint]

end Prepared

/-- The groups that backreferences refer to are no lookaheads. -/
theorem IsLink.group_consumes (h : p.Tree root) {l : Link} (hl : p.IsLink root l) :
    (p.node l.group).kind = .group ∧ (p.node l.group).attributes.lookahead = false := by
  have hne : l.group ≠ root := by
    intro heq
    have hmark := heq ▸ hl.marked
    exact hl.mark_ne ((h.getElem?_capturing.1 hmark).2.symm.trans
      (h.getElem?_capturing.1 h.capturing_zero).2)
  have hcaptures := (h.mem_capturing.1 (List.mem_of_getElem? hl.marked)).2
  simp only [captures, Bool.and_eq_true, beq_iff_eq, Bool.or_eq_true, hne, false_or,
    Bool.not_eq_true', Bool.or_eq_false_iff] at hcaptures
  exact ⟨hcaptures.1, hcaptures.2.2⟩

/-- In a group that a backreference refers to there are no guards, and there are none after a part that the
search enters and that leads it to such a group. -/
theorem not_controlling_of_referenced (h : p.Tree root) (hmarks : p.Unmarked root)
    (hguards : p.Unguarded root) {indexAlternatives : Bool} {numbering : Numbering} {count : Nat}
    {q' : Pattern} (hnumber : number root indexAlternatives limits p = .ok numbering q)
    (hnote : noteGuards root limits q = .ok count q') {l : Link} (hl : p.IsLink root l) :
    (∀ j, p.Reaches l.group j → (q'.node j).attributes.controlling = false) ∧
      ∀ i before c after, p.Reaches root i → (p.node i).kind = .group →
        (p.node i).children = before ++ c :: after → Relation.ReflTransGen p.LooksInto c l.group →
          ∀ d ∈ after, ∀ j, p.Reaches d j → (q'.node j).attributes.controlling = false := by
  have hsame := number_same hnumber
  have hnumbered := (number_spec h hmarks).2 _ _ hnumber
  have hq := hsame.tree h
  obtain ⟨-, rfl⟩ := noteGuards_ok hnote
  obtain ⟨hkind, hlookahead⟩ := hl.group_consumes h
  have hgroup := (h.mem_capturing.1 (List.mem_of_getElem? hl.marked)).1
  have hreferenced : (q.node l.group).attributes.referenced = true :=
    (hnumbered.referenced _).2 (.inr ⟨l, hl, rfl⟩)
  have hlookahead' : (q.node l.group).attributes.lookahead = false :=
    (hsame.get (·.attributes.lookahead) (fun _ => rfl) _).trans hlookahead
  have hkind' : (q.node l.group).kind = .group := (hsame.kind_eq (by simp)).2 hkind
  have hclear : ∀ j, p.Reaches root j → j ∉ q.found root →
      ((q.giveGuards 0 (q.found root)).node j).attributes.controlling = false := by
    intro j hj hnone
    rw [hq.node_giveGuards, if_neg hnone]
    exact (hsame.unguarded hguards).controlling j (hsame.reaches ▸ hj)
  refine ⟨fun j hj => hclear j (hgroup.trans hj) fun hfound => ?_, ?_⟩
  · obtain ⟨hsearched, hneeds⟩ := hq.mem_found.1 hfound
    obtain rfl := hq.eq_of_searched (hsame.reaches ▸ hgroup) hkind' hreferenced (hsame.reaches ▸ hj)
      hsearched
    exact not_needsGuard (by simp [hkind']) hneeds
  · intro i before c after hi hki hchildren hpath d hd j hj
    have hchild : p.Child i d := by simp [Child, hchildren, hd]
    refine hclear j ((hi.tail hchild).trans hj) fun hfound => ?_
    have hends : q.Ends c := ends_of_looksInto (hsame.looksInto ▸ hpath) hkind' hlookahead' hreferenced
    exact hq.not_searched_after (hsame.reaches ▸ hi) ((hsame.kind_eq (by simp)).2 hki)
      ((hsame.children i).trans hchildren) hends hd (hsame.reaches ▸ hj) (hq.mem_found.1 hfound).1

/-- A group with a repetition, another repetition, and the text of the group once more. -/
def repeatedText : Pattern where
  nodes := #[
    { kind := .group, children := [1, 4, 6] },
    { kind := .group, children := [2] },
    { kind := .repetition 0 none, children := [3] },
    { kind := .charClass 10 },
    { kind := .repetition 0 none, children := [5] },
    { kind := .charClass 11 },
    { kind := .action (.backreference (.mark 1)) }]
  root := some 0

/-- What the numbering of `repeatedText` answers. -/
def repeatedTextNumbering : Numbering where
  groupCount := 2
  names := []
  endOrder := [(1, 0)]
  backrefMask := 2
  subMasks := #[0xFFFFFFFC, 0xFFFFFFFD]
  alternativeMark := none

/-- What it notes in `repeatedText`. -/
def repeatedTextNumbered : Pattern :=
  ((repeatedText.update 0 ({ · with mark := some 0 })).update 1 ({ · with mark := some 1 })).giveLink
    ⟨6, 1, 1⟩

/-- Neither the repetition in the group nor the one after it gets a guard. -/
theorem not_controlling_of_referenced_repeatedText :
    repeatedText.Tree 0 ∧ repeatedText.Unmarked 0 ∧ repeatedText.Unguarded 0 ∧
    number 0 false { maxMarkPairs := 2 } repeatedText = .ok repeatedTextNumbering repeatedTextNumbered ∧
    noteGuards 0 {} repeatedTextNumbered = .ok 0 repeatedTextNumbered ∧
    repeatedText.IsLink 0 ⟨6, 1, 1⟩ ∧
    (repeatedTextNumbered.node 2).attributes.controlling = false ∧
    (repeatedTextNumbered.node 4).attributes.controlling = false := by
  have htree : repeatedText.Tree 0 := tree_of_lt (by decide) rfl (by decide) (by decide) (by decide)
  have hmarks : repeatedText.Unmarked 0 := htree.unmarked (by decide)
  have hguards : repeatedText.Unguarded 0 := htree.unguarded (by decide)
  have hnumber : number 0 false { maxMarkPairs := 2 } repeatedText =
      .ok repeatedTextNumbering repeatedTextNumbered := by decide +kernel
  have hnote : noteGuards 0 {} repeatedTextNumbered = .ok 0 repeatedTextNumbered := by decide +kernel
  have hchild : ∀ {i j}, j ∈ (repeatedText.node i).children → repeatedText.Reaches i j := fun hj => .single hj
  have hlink : repeatedText.IsLink 0 ⟨6, 1, 1⟩ :=
    ⟨hchild (by decide), ⟨.mark 1, rfl, rfl⟩, by decide, by decide +kernel⟩
  obtain ⟨hinside, hafter⟩ := not_controlling_of_referenced htree hmarks hguards hnumber hnote hlink
  exact ⟨htree, hmarks, hguards, hnumber, hnote, hlink, hinside 2 (hchild (by decide)),
    hafter 0 [] 1 [4, 6] .refl rfl rfl .refl 4 (by simp) 4 .refl⟩

/-- A group that is optional, a repetition, and the text of the group once more. -/
def optionalText : Pattern where
  nodes := #[
    { kind := .group, children := [1, 4, 6] },
    { kind := .repetition 0 (some 1), children := [2] },
    { kind := .group, children := [3] },
    { kind := .charClass 10 },
    { kind := .repetition 0 none, children := [5] },
    { kind := .charClass 11 },
    { kind := .action (.backreference (.mark 1)) }]
  root := some 0

/-- What the numbering notes in `optionalText`. -/
def optionalTextNumbered : Pattern :=
  ((optionalText.update 0 ({ · with mark := some 0 })).update 2 ({ · with mark := some 1 })).giveLink
    ⟨6, 1, 2⟩

/-- A repetition that follows an optional part with the group gets a guard. -/
theorem controlling_after_optionalText :
    optionalText.Tree 0 ∧ optionalText.Unmarked 0 ∧ optionalText.Unguarded 0 ∧
    (∃ numbering, number 0 false { maxMarkPairs := 2 } optionalText = .ok numbering optionalTextNumbered) ∧
    noteGuards 0 {} optionalTextNumbered = .ok 1 (optionalTextNumbered.giveGuards 0 [4]) ∧
    optionalText.IsLink 0 ⟨6, 1, 2⟩ ∧ (optionalText.node 0).children = [] ++ 1 :: [4, 6] ∧
    optionalText.Reaches 1 2 ∧
    ((optionalTextNumbered.giveGuards 0 [4]).node 4).kind = .repetition 0 none ∧
    ((optionalTextNumbered.giveGuards 0 [4]).node 4).attributes.controlling = true := by
  have htree : optionalText.Tree 0 := tree_of_lt (by decide) rfl (by decide) (by decide) (by decide)
  have hnumber : number 0 false { maxMarkPairs := 2 } optionalText =
      .ok repeatedTextNumbering optionalTextNumbered := by decide +kernel
  have hnote : noteGuards 0 {} optionalTextNumbered = .ok 1 (optionalTextNumbered.giveGuards 0 [4]) := by
    decide +kernel
  have hchild : ∀ {i j}, j ∈ (optionalText.node i).children → optionalText.Reaches i j := fun hj => .single hj
  have hlink : optionalText.IsLink 0 ⟨6, 1, 2⟩ :=
    ⟨hchild (by decide), ⟨.mark 1, rfl, rfl⟩, by decide, by decide +kernel⟩
  exact ⟨htree, htree.unmarked (by decide), htree.unguarded (by decide), ⟨_, hnumber⟩, hnote, hlink, rfl,
    hchild (by decide), by decide +kernel, by decide +kernel⟩

end Pattern
end ByteMatch
