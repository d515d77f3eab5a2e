import Mathlib.Data.Set.Card
import ByteMatch.Proofs.Pattern.Assembly.Guards
import ByteMatch.Proofs.Pattern.Guarding
import ByteMatch.Proofs.Pattern.Program

/-!
# ByteMatch.Proofs.Pattern.Guards

Each guard of a program is tested once.

* `Pattern.Tree.settles`: the fragment of a node tests the guards of the node, by induction on the nodes below
  it.
* `Pattern.build_guards`: the guards of a program are numbered in the order of a walk, and the program has one
  test of each.
-/

namespace ByteMatch

open Step

namespace Pattern

open Assembler

variable {p : Pattern} {root i j : Nat} {settings : Settings}

/-- The repetitions that the search for guards may come to from a node. -/
def sought (p : Pattern) (i : Nat) : Set Nat :=
  {j | Relation.ReflTransGen p.LooksInto i j ∧ ∃ min max, (p.node j).kind = .repetition min max}

theorem mem_sought (h : j ∈ p.sought i) :
    (j = i ∧ ∃ min max, (p.node i).kind = .repetition min max) ∨ ∃ c, p.LooksInto i c ∧ j ∈ p.sought c := by
  obtain ⟨hpath, hkind⟩ := h
  rcases Relation.ReflTransGen.cases_head hpath with rfl | ⟨c, hinto, hpath⟩
  · exact .inl ⟨rfl, hkind⟩
  · exact .inr ⟨c, hinto, hpath, hkind⟩

/-- Except for a repetition itself, they are sought from the children of a node. -/
theorem sought_subset (h : ∀ min max, (p.node i).kind ≠ .repetition min max) :
    p.sought i ⊆ {j | ∃ D ∈ (p.node i).children.map p.sought, j ∈ D} := by
  intro j hj
  rcases mem_sought hj with ⟨-, min, max, hkind⟩ | ⟨c, hinto, hj⟩
  · exact absurd hkind (h min max)
  · exact ⟨p.sought c, List.mem_map_of_mem hinto.child, hj⟩

theorem sought_eq_empty (hkind : ∀ min max, (p.node i).kind ≠ .repetition min max)
    (hinto : ∀ c, ¬ p.LooksInto i c) : p.sought i = ∅ := by
  refine Set.eq_empty_of_forall_notMem fun j hj => ?_
  rcases mem_sought hj with ⟨-, min, max, hrepetition⟩ | ⟨c, hc, -⟩
  · exact hkind min max hrepetition
  · exact hinto c hc

theorem sought_of_class (hclass : (p.node i).kind.class?.isSome = true) : p.sought i = ∅ :=
  sought_eq_empty (fun min max hkind => by simp [hkind, Kind.class?] at hclass)
    fun _ => not_looksInto_of_class hclass

/-- The fragment of a node tests the guards of the repetitions below it, and those that the search for guards
may come to are done with. -/
theorem Tree.settles (h : p.Tree root) (hi : p.Reaches root i) :
    Settles (p.outline root).preorder {j | p.Reaches i j} (p.sought i) p
      ((p.outline i).assemble settings) := by
  have hacyclic := h.toAcyclic
  have hnodup := h.preorder_nodup .refl
  have hmem : ∀ {j}, p.Reaches root j → j ∈ (p.outline root).preorder :=
    fun hj => (hacyclic.mem_preorder .refl).2 hj
  induction i, hi using hacyclic.induction with
  | step i hi ih =>
    have hparts : List.Forall₂ (fun D (c : Nat × Assembler Code) =>
          Settles (p.outline root).preorder {j | p.Reaches i j} D p c.2)
        ((p.node i).children.map p.sought)
        ((p.node i).children.map fun c => (c, (p.outline c).assemble settings)) := by
      refine List.forall₂_map_left_iff.2 (List.forall₂_map_right_iff.2 (List.forall₂_same.2 fun c hc => ?_))
      exact (ih c hc).mono (fun j hj => .head hc hj) subset_rfl
    rw [hacyclic.assemble_eq hi]
    refine .of_node fun n hn => ?_
    rw [hn]
    cases hkind : (p.node i).kind with
    | group =>
      exact (settles_group (List.forall₂_map_right_iff.2 hparts)).mono subset_rfl
        (sought_subset (by simp [hkind]))
    | alternation =>
      refine (settles_alternation hnodup (fun c hc j hj => ?_) hparts).mono subset_rfl
        (sought_subset (by simp [hkind]))
      obtain ⟨c', hc', rfl⟩ := List.mem_map.1 hc
      exact ⟨hmem ((hi.tail hc').trans hj), .head hc' hj⟩
    | repetition min max =>
      cases hchildren : (p.node i).children with
      | nil => exact .of_throw
      | cons c rest =>
        have hc : p.Child i c := by simp [Child, hchildren]
        refine (settles_repetition hnodup (hmem hi) (h.not_reaches_of_child hi hc)
          (fun hclass => sought_of_class hclass) (ih c hc)).mono ?_ ?_
        · exact Set.insert_subset .refl fun j hj => .head hc hj
        · intro j hj
          rcases mem_sought hj with ⟨rfl, -⟩ | ⟨c', hinto, hj⟩
          · exact .inl rfl
          · rw [LooksInto, hkind, hchildren] at hinto
            obtain ⟨hmin, hhead⟩ := hinto
            obtain rfl := Option.some.inj hhead
            exact .inr ⟨hmin, hj⟩
    | charClass root =>
      rw [sought_of_class (by simp [hkind, Kind.class?])]
      exact .of_still .operand fun _ => .of_emit (by decide)
    | action a =>
      rw [sought_eq_empty (by simp [hkind]) (by simp [LooksInto, hkind])]
      exact settles_action

end Pattern

/-! ## Programs -/

namespace Assembler

variable {q : Pattern} {L : List Nat} {S : Set Nat} {s s' : Assembly} {root : Nat}

/-- The test of a guard before a match is searched for. -/
def startTest : Option Int → Code
  | some guard => Template.loopGuard.fill [guard, 1]
  | none => []

theorem startTest_spends {guard : Option Int} (hL : L.Nodup) (hbelow : ∀ j, q.Reaches root j → j ∈ L ∧ j ∈ S)
    (h : takeGuard root s = .ok guard s') (hs : s.pattern.SameUpTo Node.assembled q) :
    s.pattern.Spends L S ∅ (startTest guard) s'.pattern := by
  refine takeGuard_spends hL hbelow hs h fun k => ?_
  cases guard with
  | none => rfl
  | some guard =>
    rw [startTest, guardTests_loopGuard]
    simp only [Option.some.injEq]

/-- Before a match is searched for, a guard at the beginning of the root is tested. -/
theorem settles_searchStart (hL : L.Nodup) (hbelow : ∀ j, q.Reaches root j → j ∈ L ∧ j ∈ S) :
    Settles L S ∅ q (searchStart root) := by
  refine .of_still .node fun n => ?_
  simp only
  split
  · exact .of_still .assertionClass fun _ => .of_emit (by decide)
  · cases n.preview with
    | none =>
      have hmark : Settles L S ∅ q (emit Template.groupStart [0]) := .of_emit (by decide)
      simp only [pure_bind, List.nil_append]
      intro s code s' hs hok
      obtain ⟨guard, s₁, hguard, hrest⟩ := bind_ok.1 hok
      have htest := startTest_spends hL hbelow hguard hs
      cases guard with
      | none =>
        have hspends := htest.append (hmark _ _ _ (htest.same.trans hs) hrest)
        rwa [Set.empty_union] at hspends
      | some guard =>
        obtain ⟨test, s₂, hemit, hrest'⟩ := bind_ok.1 hrest
        obtain ⟨mark, s₃, hmarked, hpure⟩ := bind_ok.1 hrest'
        obtain ⟨rfl, rfl⟩ := pure_ok.1 hpure
        obtain ⟨rfl, rfl⟩ := emit_ok hemit
        obtain ⟨rfl, rfl⟩ := emit_ok hmarked
        refine htest.recode fun k => ?_
        rw [Code.guardTests_append, Template.guardTests_fill (t := Template.groupStart) (by decide)]
        rfl
    | some c =>
      refine .of_still .operand fun charClass => ?_
      intro s code s' hs hok
      obtain ⟨scan, s₁, hscan, hrest₁⟩ := bind_ok.1 hok
      obtain ⟨rfl, rfl⟩ := emit_ok hscan
      obtain ⟨guard, s₂, hguard, hrest₂⟩ := bind_ok.1 hrest₁
      have htest := startTest_spends hL hbelow hguard hs
      cases guard with
      | none =>
        obtain ⟨rfl, rfl⟩ := pure_ok.1 hrest₂
        refine htest.recode fun k => ?_
        rw [List.append_nil, List.append_nil]
        exact Template.guardTests_fill (by decide) _ _
      | some guard =>
        obtain ⟨test, s₃, hemit, hpure⟩ := bind_ok.1 hrest₂
        obtain ⟨rfl, rfl⟩ := pure_ok.1 hpure
        obtain ⟨rfl, rfl⟩ := emit_ok hemit
        refine htest.recode fun k => ?_
        rw [List.append_nil, Code.guardTests_append, Template.guardTests_fill (by decide), Nat.zero_add]
        rfl

end Assembler

namespace Pattern

open Assembler

variable {p p' q : Pattern} {root i : Nat} {k : Int} {settings : Settings} {limits : Limits}
  {s s' : Assembly} {code : Code}

/-- The program tests the guards that are no longer untested, and all repetitions that the search for guards
may come to are done with. -/
theorem Tree.program_spends (h : p.Tree root) (hs : s.pattern.SameUpTo Node.assembled p)
    (hok : program settings root s = .ok code s') :
    s.pattern.Spends (p.outline root).preorder {j | p.Reaches root j} (p.sought root) code s'.pattern := by
  have halike : s.pattern.Alike p := ⟨hs.size, hs.get Node.given fun _ => rfl⟩
  rw [program_eq, halike.outline] at hok
  have hstart : Settles (p.outline root).preorder {j | p.Reaches root j} ∅ p (searchStart root) :=
    settles_searchStart (h.preorder_nodup .refl) fun j hj => ⟨(h.mem_preorder .refl).2 hj, hj⟩
  have hnodes : Settles (p.outline root).preorder {j | p.Reaches root j} (p.sought root) p
      ((p.outline root).assemble settings) := h.settles .refl
  have hyield : Settles (p.outline root).preorder {j | p.Reaches root j} ∅ p
      (emit Template.yieldThread []) := .of_emit (by decide)
  have hreport : Settles (p.outline root).preorder {j | p.Reaches root j} ∅ p
      (emit Template.reportMatch []) := .of_emit (by decide)
  have hall := Settles.inSequence (.cons hstart (.cons hnodes (.cons hyield (.cons hreport .nil))))
  exact (hall s _ _ hs hok).mono subset_rfl fun j hj => ⟨p.sought root, by simp, hj⟩

/-! ## Guards in order -/

/-- A function that finds something in a part of a list only finds that part. -/
theorem filterMap_of_sublist {l L : List Nat} {f : Nat → Option Nat} {g : Nat → Nat} (h : l.Sublist L)
    (hL : L.Nodup) (hsome : ∀ i ∈ l, f i = some (g i)) (hnone : ∀ i ∈ L, i ∉ l → f i = none) :
    L.filterMap f = l.map g := by
  induction h with
  | slnil => rfl
  | @cons l L i hsub ih =>
    obtain ⟨hfresh, hL⟩ := List.nodup_cons.1 hL
    rw [List.filterMap_cons_none (hnone i List.mem_cons_self fun hi => hfresh (hsub.subset hi))]
    exact ih hL hsome fun j hj => hnone j (List.mem_cons_of_mem _ hj)
  | @cons_cons l L i hsub ih =>
    obtain ⟨hfresh, hL⟩ := List.nodup_cons.1 hL
    rw [List.forall_mem_cons] at hsome
    rw [List.filterMap_cons_some hsome.1, List.map_cons]
    refine congrArg _ (ih hL hsome.2 fun j hj hout => hnone j (List.mem_cons_of_mem _ hj) fun hmem => ?_)
    rcases List.mem_cons.1 hmem with rfl | hmem
    · exact hfresh hj
    · exact hout hmem

theorem map_idxOf {l : List Nat} (h : l.Nodup) : l.map l.idxOf = List.range l.length := by
  refine List.ext_getElem (by simp) fun n hn _ => ?_
  rw [List.getElem_map, h.idxOf_getElem, List.getElem_range]

namespace Tree

variable (h : p.Tree root) (hguards : p.Unguarded root)
include h hguards

/-- The guards are numbered in the order of a walk. -/
theorem guards_giveGuards : (p.outline root).preorder.filterMap
    (fun i => ((p.giveGuards 0 (p.found root)).node i).guard) = List.range (p.found root).length := by
  rw [← map_idxOf h.found_nodup]
  refine filterMap_of_sublist h.found_sublist (h.preorder_nodup .refl) (fun i hi => ?_) fun i hi hout => ?_
  · rw [h.node_giveGuards, if_pos hi]
  · rw [h.node_giveGuards, if_neg hout]
    exact hguards.guard i ((h.mem_preorder .refl).1 hi)

/-- At first no guard has been tested. -/
theorem untested_giveGuards : (p.giveGuards 0 (p.found root)).untested (p.outline root).preorder k =
    if 0 ≤ k ∧ k < (p.found root).length then 1 else 0 := by
  have hnode : ∀ i ∈ (p.outline root).preorder,
      (((p.giveGuards 0 (p.found root)).node i).untested k = true ↔
        i ∈ p.found root ∧ ((p.found root).idxOf i : Int) = k) := by
    intro i hi
    have hreaches := (h.mem_preorder .refl).1 hi
    rw [h.node_giveGuards, Node.untested]
    split
    · rename_i hfound
      simp [hguards.guardTested i hreaches, hfound]
    · rename_i hfound
      simp [hguards.controlling i hreaches, hfound]
  split
  · rename_i hk
    obtain ⟨n, rfl⟩ := Int.eq_ofNat_of_zero_le hk.1
    have hn : n < (p.found root).length := by exact_mod_cast hk.2
    have hself : ∀ i ∈ (p.outline root).preorder,
        (((p.giveGuards 0 (p.found root)).node i).untested n = true ↔ (i == (p.found root)[n]) = true) := by
      intro i hi
      rw [hnode i hi, beq_iff_eq]
      constructor
      · rintro ⟨hfound, hidx⟩
        have hidx : (p.found root).idxOf i = n := by exact_mod_cast hidx
        subst hidx
        exact (List.getElem_idxOf hn).symm
      · rintro rfl
        exact ⟨List.getElem_mem hn, by rw [h.found_nodup.idxOf_getElem]⟩
    rw [untested, List.countP_congr hself]
    exact List.count_eq_one_of_mem (h.preorder_nodup .refl) (h.found_sublist.subset (List.getElem_mem hn))
  · rename_i hk
    refine List.countP_eq_zero.2 fun i hi huntested => hk ?_
    obtain ⟨hfound, rfl⟩ := (hnode i hi).1 huntested
    exact ⟨Int.natCast_nonneg _, by exact_mod_cast List.idxOf_lt_length_of_mem hfound⟩

end Tree

/-! ## Guards of programs -/

theorem Searched.mem_sought (h : p.Searched root i) (hneeds : p.NeedsGuard i) : i ∈ p.sought root := by
  obtain ⟨min, max, _, _, hkind, -⟩ := hneeds
  exact ⟨Relation.ReflTransGen.mono (fun _ _ (hstep : p.SearchStep _ _) => hstep.looksInto) _ _ h,
    min, max, hkind⟩

theorem Tree.length_found (h : p.Tree root) :
    (p.found root).length = {i | p.Searched root i ∧ p.NeedsGuard i}.ncard := by
  have hset : {i | p.Searched root i ∧ p.NeedsGuard i} = ((p.found root).toFinset : Set Nat) := by
    ext i
    rw [Set.mem_ofPred_eq, ← h.mem_found, List.coe_toFinset, Set.mem_ofPred_eq]
  rw [hset, Set.ncard_coe_finset, List.toFinset_card_of_nodup h.found_nodup]

/-- The guards fit into the machine unless more repetitions need one. -/
theorem Tree.noteGuards_fails_iff (h : p.Tree root) :
    (∃ q, noteGuards root limits p = .error (.tooManyGuards limits.maxGuards) q) ↔
      limits.maxGuards < {i | p.Searched root i ∧ p.NeedsGuard i}.ncard := by
  rw [← h.length_found]
  rcases noteGuards_cases p root limits with ⟨hroom, hok⟩ | ⟨hfull, q, herror⟩
  · refine ⟨fun ⟨q, herror⟩ => ?_, fun hfull => absurd hroom (Nat.not_le.2 hfull)⟩
    cases hok.symm.trans herror
  · exact ⟨fun _ => hfull, fun _ => ⟨q, herror⟩⟩

/-- The guards of a program. They are numbered in the order of a walk, they belong to repetitions that need
one, and the program has one test of each. -/
structure Guards (p : Pattern) (root count : Nat) (code : Code) (p' : Pattern) : Prop where
  inOrder : (p.outline root).preorder.filterMap (fun i => (p'.node i).guard) = List.range count
  needed : ∀ i, p.Reaches root i → (p'.node i).guard.isSome = true → p.NeedsGuard i
  testedOnce : ∀ k : Int, code.guardTests k = if 0 ≤ k ∧ k < count then 1 else 0

theorem Alike.looksInto (h : q.Alike p) : q.LooksInto = p.LooksInto := by
  funext i c
  rw [LooksInto, LooksInto, h.kind, h.children, h.attributes (·.lookahead) fun _ => rfl]

theorem Alike.sought (h : q.Alike p) : q.sought = p.sought := by
  funext i
  simp only [Pattern.sought, h.looksInto, h.kind]

theorem Alike.tree (h : q.Alike p) (hp : p.Tree root) : q.Tree root :=
  hp.of_same h.1 h.children ((h.kind root).trans hp.root_group)

/-- No guard is left untested if all repetitions that have one are done with. -/
theorem Tree.untested_of_spends {S : Set Nat} (h : p.Tree root) (hguards : p.Unguarded root)
    (hspends : (p.giveGuards 0 (p.found root)).Spends (p.outline root).preorder S (p.sought root) code p') :
    p'.untested (p.outline root).preorder k = 0 := by
  refine List.countP_eq_zero.2 fun i hi huntested => ?_
  have hcontrolling := Node.controlling_of_untested huntested
  have hbefore := hspends.controlling i hcontrolling
  rw [h.node_giveGuards] at hbefore
  split at hbefore
  · rename_i hfound
    obtain ⟨hsearched, hneeds⟩ := h.mem_found.1 hfound
    rw [hspends.cleared i (hsearched.mem_sought hneeds)] at hcontrolling
    cases hcontrolling
  · rw [hguards.controlling i ((h.mem_preorder .refl).1 hi)] at hbefore
    cases hbefore

/-- A program that is assembled after guards have been given tests each of them once. -/
theorem Tree.program_guards (h : p.Tree root) (hguards : p.Unguarded root) {count : Nat}
    (hnote : noteGuards root limits p = .ok count s.pattern) (hok : program settings root s = .ok code s') :
    p.Guards root count code s'.pattern := by
  have halike : s.pattern.Alike p := keeps_noteGuards _ _ _ hnote
  obtain ⟨rfl, hs⟩ := noteGuards_ok hnote
  have hspends := (halike.tree h).program_spends (.refl _) hok
  rw [halike.outline, halike.sought, hs] at hspends
  have hguard : ∀ i, (s'.pattern.node i).guard = ((p.giveGuards 0 (p.found root)).node i).guard :=
    hspends.same.get Node.guard fun _ => rfl
  refine ⟨?_, fun i hi hsome => ?_, fun k => ?_⟩
  · simp only [hguard]
    exact h.guards_giveGuards hguards
  · rw [hguard, h.node_giveGuards] at hsome
    split at hsome
    · rename_i hfound
      exact (h.mem_found.1 hfound).2
    · rw [hguards.guard i hi] at hsome
      cases hsome
  · rw [← h.untested_giveGuards hguards, ← hspends.count k, h.untested_of_spends hguards hspends,
      Nat.add_zero]

/-- Each guard of a program is tested once. There are as many guards as repetitions that need one, and the
search for them fails if the machine has fewer. -/
theorem build_guards (h : p.Tree root) (hroot : p.root = some root) (hguards : p.Unguarded root) :
    (∀ {indexAlternatives : Bool} {numbering : Numbering} {q : Pattern},
      number root indexAlternatives limits (p.noteStart root) = .ok numbering q →
        ((∃ q', noteGuards root limits q = .error (.tooManyGuards limits.maxGuards) q') ↔
          limits.maxGuards < {i | q.Searched root i ∧ q.NeedsGuard i}.ncard) ∧
        ∀ {count : Nat} {q' : Pattern}, noteGuards root limits q = .ok count q' →
          count = {i | q.Searched root i ∧ q.NeedsGuard i}.ncard) ∧
      ∀ {options : CompileOptions} {c : AssembledProgram} {p' : Pattern},
        p.build options limits = .ok c p' → p.Guards root c.start.guardCount c.code p' := by
  have hprepared : ∀ {indexAlternatives : Bool} {numbering : Numbering} {q : Pattern},
      number root indexAlternatives limits (p.noteStart root) = .ok numbering q → q.Prepared p :=
    fun hnumber => (number_same hnumber).trans noteStart_same
  refine ⟨fun hnumber => ?_, fun {options c p'} hbuild => ?_⟩
  · have hq := (hprepared hnumber).tree h
    exact ⟨hq.noteGuards_fails_iff, fun hnote => (noteGuards_ok hnote).1.trans hq.length_found⟩
  · obtain ⟨root', guardCount, q₁, q₂, hroot', hnumber, hnote, hprogram, rfl⟩ := build_ok hbuild
    obtain rfl : root = root' := Option.some.inj (hroot.symm.trans hroot')
    have hsame := hprepared hnumber
    obtain ⟨-, s, hok, rfl⟩ := assembleProgram_ok hprogram
    obtain ⟨hinOrder, hneeded, htestedOnce⟩ :=
      (hsame.tree h).program_guards (hsame.unguarded hguards) hnote hok
    refine ⟨?_, fun i hi hsome => ?_, htestedOnce⟩
    · rwa [outline_of_same hsame.size hsame.children] at hinOrder
    · exact hsame.needsGuard.1 (hneeded i (hsame.reaches ▸ hi) hsome)

/-- A repetition, and then a group twice that begins with a repetition. -/
def repeatedLoops : Pattern where
  nodes := #[
    { kind := .group, children := [1, 3] },
    { kind := .repetition 0 none, children := [2] },
    { kind := .charClass 10 },
    { kind := .repetition 2 (some 2), children := [4] },
    { kind := .group, attributes := { uncaptured := true }, children := [5, 7] },
    { kind := .repetition 0 none, children := [6] },
    { kind := .charClass 11 },
    { kind := .charClass 12 }]
  root := some 0

/-- A loop of any number of characters. -/
def anyNumberCode (place : Nat) (op : UInt8) (root : Int) : Code :=
  [ Code.setCount 0 unmeasured,
    Code.forkTo (place + 1) (place + 5) false,
    ⟨op, 0, root, false⟩,
    Code.forkTo (place + 3) (place + 4) true,
    Code.countDown 0 (place + 4) (place + 1),
    Code.setCount 0 0 ]

open Opcode in
/-- The program of `repeatedLoops`. -/
def repeatedLoopsCode : Code :=
  [⟨test ||| guard, 0, 1, true⟩, ⟨markStart, 0, 0, false⟩] ++
  anyNumberCode 2 (character ||| setGuard) 10 ++ [⟨test ||| guard, 1, 1, true⟩] ++
  anyNumberCode 9 (character ||| setGuard) 11 ++ [⟨character, 0, 12, false⟩] ++
  anyNumberCode 16 character 11 ++ [⟨character, 0, 12, false⟩] ++
  [ Code.forkTo 23 24 true,
    ⟨markEnd, 0, 0, false⟩,
    Code.forkTo 25 26 true,
    ⟨report, 0, 0, true⟩ ]

/-- What the numbering of `repeatedLoops` answers. -/
def repeatedLoopsNumbering : Numbering where
  groupCount := 1
  names := []
  endOrder := []
  backrefMask := 0
  subMasks := #[0xFFFFFFFE]
  alternativeMark := none

/-- The program of `repeatedLoops` with its entry point. -/
def repeatedLoopsProgram : AssembledProgram where
  code := repeatedLoopsCode
  start := ⟨0, 0, 1, 0, 1, 2, 0, [0xFFFFFFFE]⟩
  numbering := repeatedLoopsNumbering

/-- `repeatedLoops` with a mark. -/
def repeatedLoopsNumbered : Pattern := repeatedLoops.update 0 ({ · with mark := some 0 })

/-- `repeatedLoops` with the guards of its two repetitions. The first one has been tested at the start. -/
def repeatedLoopsNoted : Pattern :=
  (repeatedLoopsNumbered.update 1 fun n =>
    { n with attributes := { n.attributes with guardTested := true }, guard := some 0 }).update 5
      ({ · with guard := some 1 })

/-- A machine with a single guard. -/
def singleGuard : Limits := { maxMarkPairs := 1, maxGuards := 1 }

/-- The repetition in the group is emitted twice and its guard is tested once. One guard is too few. -/
theorem build_guards_repeatedLoops :
    repeatedLoops.Tree 0 ∧ repeatedLoops.root = some 0 ∧ repeatedLoops.Unguarded 0 ∧
    number 0 false singleGuard (repeatedLoops.noteStart 0) =
      .ok repeatedLoopsNumbering repeatedLoopsNumbered ∧
    (∃ q, noteGuards 0 singleGuard repeatedLoopsNumbered = .error (.tooManyGuards 1) q) ∧
    1 < {i | repeatedLoopsNumbered.Searched 0 i ∧ repeatedLoopsNumbered.NeedsGuard i}.ncard ∧
    repeatedLoops.build {} { maxMarkPairs := 1 } = .ok repeatedLoopsProgram repeatedLoopsNoted ∧
    repeatedLoops.Guards 0 2 repeatedLoopsCode repeatedLoopsNoted ∧ repeatedLoopsCode.guardTests 1 = 1 := by
  have htree : repeatedLoops.Tree 0 := tree_of_lt (by decide) rfl (by decide) (by decide) (by decide)
  have hguards : repeatedLoops.Unguarded 0 := htree.unguarded (by decide)
  have hnumber : number 0 false singleGuard (repeatedLoops.noteStart 0) =
      .ok repeatedLoopsNumbering repeatedLoopsNumbered := by decide +kernel
  have hnote : ∃ q, noteGuards 0 singleGuard repeatedLoopsNumbered = .error (.tooManyGuards 1) q :=
    ⟨repeatedLoopsNumbered.giveGuards 0 [1], by decide +kernel⟩
  have hbuild : repeatedLoops.build {} { maxMarkPairs := 1 } =
      .ok repeatedLoopsProgram repeatedLoopsNoted := by decide +kernel
  have htests := (build_guards htree rfl hguards).2 hbuild
  exact ⟨htree, rfl, hguards, hnumber, hnote, ((build_guards htree rfl hguards).1 hnumber).1.1 hnote,
    hbuild, htests, htests.testedOnce 1⟩

end Pattern
end ByteMatch
