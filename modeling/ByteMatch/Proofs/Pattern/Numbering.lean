import ByteMatch.Proofs.Pattern.References

/-!
# ByteMatch.Proofs.Pattern.Numbering

What the numbering of groups finds out, and when it fails.

* `Pattern.NumberingFails`: why the groups of a tree cannot be numbered.
* `Pattern.Numbered`: what the numbering answers and what it notes in the tree.
* `Pattern.number_spec`: it does so unless it fails.
-/

namespace ByteMatch

open Step ByteMatch.Numbering

/-- A node without what the numbering finds out. -/
def Node.unnumbered (n : Node) : Node := { n.unlinked with mark := none }

namespace Pattern

variable {p q : Pattern} {root i j k m g : Nat} {indexAlternatives : Bool} {limits : Limits}

/-- No group has a mark yet. -/
def Unmarked (p : Pattern) (root : Nat) : Prop := ∀ i, p.Reaches root i → (p.node i).mark = none

theorem Tree.unmarked (h : p.Tree root) (hnodes : ∀ i < p.nodes.size, (p.node i).mark = none) :
    p.Unmarked root := fun i hi => hnodes i (h.lt i hi)

/-- The groups of a pattern with their marks. -/
def marked (p : Pattern) (root : Nat) : Pattern := p.giveMarks 0 (p.capturing root)

/-- There are marks for the groups and, if they are indexed, for the alternatives. -/
def HasRoom (p : Pattern) (root : Nat) (indexAlternatives : Bool) (limits : Limits) : Prop :=
  (p.capturing root).length + indexAlternatives.toNat ≤ limits.marks

/-! ## Marks -/

namespace Tree

variable (h : p.Tree root)
include h

theorem capturing_nodup : (p.capturing root).Nodup := (h.preorder_nodup .refl).filter _

theorem lt_of_mem_capturing (hi : i ∈ p.capturing root) : i < p.nodes.size :=
  h.lt i (h.mem_capturing.1 hi).1

/-- The root gets the first mark. -/
theorem capturing_zero : (p.capturing root)[0]? = some root := by
  have hroot : p.captures root root = true := by simp [captures, h.root_group]
  rw [capturing, h.preorder_eq .refl, List.filter_cons, if_pos hroot]
  rfl

theorem node_marked : (p.marked root).node j =
    { p.node j with
      mark := if j ∈ p.capturing root then some ((p.capturing root).idxOf j) else (p.node j).mark } := by
  rw [marked, giveMarks, node_updateEach (fun _ => h.lt_of_mem_capturing) h.capturing_nodup, Nat.zero_add]
  split <;> rfl

theorem getElem?_capturing : (p.capturing root)[k]? = some j ↔
    j ∈ p.capturing root ∧ (p.capturing root).idxOf j = k := by
  constructor
  · intro hk
    obtain ⟨hlt, heq⟩ := List.getElem?_eq_some_iff.1 hk
    exact ⟨List.mem_of_getElem? hk, heq ▸ h.capturing_nodup.idxOf_getElem k hlt⟩
  · rintro ⟨hj, rfl⟩
    exact List.getElem?_idxOf hj

theorem mark_marked (hfresh : p.Unmarked root) (hj : p.Reaches root j) :
    ((p.marked root).node j).mark = some k ↔ (p.capturing root)[k]? = some j := by
  rw [h.node_marked, h.getElem?_capturing]
  by_cases hmem : j ∈ p.capturing root
  · simp [hmem]
  · simp [hmem, hfresh j hj]

theorem isMarked_marked (hfresh : p.Unmarked root) (hj : p.Reaches root j) :
    (p.marked root).IsMarked k j ↔ (p.capturing root)[k]? = some j := by
  rw [IsMarked, h.mark_marked hfresh hj, h.node_marked, and_iff_right_iff_imp]
  intro hk
  have hcaptures := (h.mem_capturing.1 (List.mem_of_getElem? hk)).2
  rw [captures, Bool.and_eq_true, beq_iff_eq] at hcaptures
  exact hcaptures.1

/-- A mark other than the first one is found at its group. -/
theorem find?_hasMark (hfresh : p.Unmarked root) :
    (p.outline root).preorder.find? ((p.marked root).hasMark root m) = some g ↔
      m ≠ 0 ∧ (p.capturing root)[m]? = some g := by
  have hmark : ∀ j ∈ (p.outline root).preorder, (p.marked root).hasMark root m j = true ↔
      m ≠ 0 ∧ (p.capturing root)[m]? = some j := by
    intro j hj
    rw [hasMark, Bool.and_eq_true, Bool.and_eq_true, beq_iff_eq, beq_iff_eq, bne_iff_ne, and_assoc,
      ← IsMarked, h.isMarked_marked hfresh ((h.mem_preorder .refl).1 hj)]
    refine and_congr_left fun hj' => not_congr ?_
    constructor
    · rintro rfl
      exact (h.getElem?_capturing.1 hj').2.symm.trans (h.getElem?_capturing.1 h.capturing_zero).2
    · rintro rfl
      exact Option.some.inj (hj'.symm.trans h.capturing_zero)
  constructor
  · intro hfind
    exact (hmark g (List.mem_of_find?_eq_some hfind)).1 (List.find?_some hfind)
  · intro hg
    have hmem : g ∈ (p.outline root).preorder :=
      (h.mem_preorder .refl).2 (h.mem_capturing.1 (List.mem_of_getElem? hg.2)).1
    cases hfind : (p.outline root).preorder.find? ((p.marked root).hasMark root m) with
    | none => exact absurd ((hmark g hmem).2 hg) (List.find?_eq_none.1 hfind g hmem)
    | some g' =>
      have hg' := (hmark g' (List.mem_of_find?_eq_some hfind)).1 (List.find?_some hfind)
      exact hg'.2.symm.trans hg.2

/-- Resolution starts from the tree with its marks. -/
theorem resolving (hfresh : p.Unmarked root) :
    p.Resolving root (p.outline root).preorder (p.outline root).preorder (p.marked root) :=
  ⟨size_updateEach, fun i _ => by rw [h.node_marked], fun _ _ => h.find?_hasMark hfresh⟩

end Tree

/-! ## Ends -/

/-- The ends of the groups of a tree with their marks. -/
def ends (p : Pattern) (root : Nat) : List Closing := ((p.marked root).closings (p.outline root)).2

/-- Of two groups, the one with mark `m` ends before the one with mark `k`: it is nested in the other one,
or they are apart and it has the lower mark. -/
def EndsBefore (p : Pattern) (root m k : Nat) : Prop :=
  ∀ i j, (p.capturing root)[m]? = some i → (p.capturing root)[k]? = some j →
    m ≠ k ∧ (p.Reaches j i ∨ (m < k ∧ ¬ p.Reaches i j))

namespace Tree

variable (h : p.Tree root)
include h

theorem mem_ends (hfresh : p.Unmarked root) {c : Closing} :
    c ∈ p.ends root ↔ (p.capturing root)[c.mark]? = some c.place ∧
      c.mask = ((p.marked root).closings (p.outline c.place)).1 := by
  rw [ends, closings_ends h.toAcyclic .refl, List.mem_filterMap]
  constructor
  · rintro ⟨j, hj, hc⟩
    obtain ⟨hmark, rfl, hmask⟩ := closing?_eq_some.1 hc
    exact ⟨(h.isMarked_marked hfresh ((h.mem_postorder .refl).1 hj)).1 hmark, hmask⟩
  · rintro ⟨hmark, hmask⟩
    have hreach := (h.mem_capturing.1 (List.mem_of_getElem? hmark)).1
    exact ⟨c.place, (h.mem_postorder .refl).2 hreach,
      closing?_eq_some.2 ⟨(h.isMarked_marked hfresh hreach).2 hmark, rfl, hmask⟩⟩

theorem closing_mem_ends (hfresh : p.Unmarked root) (hm : (p.capturing root)[m]? = some g) :
    ⟨g, m, ((p.marked root).closings (p.outline g)).1⟩ ∈ p.ends root :=
  (h.mem_ends hfresh).2 ⟨hm, rfl⟩

/-- The groups end in order. -/
theorem ends_pairwise (hfresh : p.Unmarked root) :
    ((p.ends root).map Closing.mark).Pairwise (p.EndsBefore root) := by
  have hrank : (p.outline root).preorder.Pairwise
      ((p.outline root).preorder.idxOf · < (p.outline root).preorder.idxOf ·) := by
    refine List.pairwise_iff_getElem.2 fun a b ha hb hab => ?_
    rwa [(h.preorder_nodup .refl).idxOf_getElem, (h.preorder_nodup .refl).idxOf_getElem]
  have hmarks := hrank.sublist (List.filter_sublist (p := p.captures root))
  have hplaces := (h.postorder_pairwise .refl hrank).and
    (((h.postorder_perm .refl).nodup_iff).2 (h.preorder_nodup .refl))
  rw [List.pairwise_map, ends, closings_ends h.toAcyclic .refl]
  refine (List.Pairwise.and_mem.1 hplaces).filterMap _ ?_
  rintro a b ⟨ha, hb, hab, hne⟩ c hc d hd i j hi hj
  rw [h.mem_postorder .refl] at ha hb
  have hi' := (h.isMarked_marked hfresh ha).1 (closing?_eq_some.1 hc).1
  have hj' := (h.isMarked_marked hfresh hb).1 (closing?_eq_some.1 hd).1
  obtain rfl : a = i := Option.some.inj (hi'.symm.trans hi)
  obtain rfl : b = j := Option.some.inj (hj'.symm.trans hj)
  have hmark : c.mark ≠ d.mark := fun heq => hne (Option.some.inj (hi.symm.trans (heq ▸ hj)))
  refine ⟨hmark, hab.imp_right fun hafter => ⟨?_, hafter.2⟩⟩
  -- marks and ranks are in the same order
  by_contra hle
  obtain ⟨hlt, rfl⟩ := List.getElem?_eq_some_iff.1 hi
  obtain ⟨hlt', rfl⟩ := List.getElem?_eq_some_iff.1 hj
  have hback := List.pairwise_iff_getElem.1 hmarks d.mark c.mark hlt' hlt (by omega)
  exact absurd hafter.1 (Nat.lt_asymm hback)

theorem ends_nodup (hfresh : p.Unmarked root) : ((p.ends root).map Closing.mark).Nodup := by
  refine (h.ends_pairwise hfresh).imp_of_mem ?_
  intro m k hm hk hbefore
  obtain ⟨c, hc, rfl⟩ := List.mem_map.1 hm
  obtain ⟨d, hd, rfl⟩ := List.mem_map.1 hk
  exact (hbefore _ _ ((h.mem_ends hfresh).1 hc).1 ((h.mem_ends hfresh).1 hd).1).1

/-- No two groups end before each other. -/
theorem endsBefore_asymm (hm : m < (p.capturing root).length) (hk : k < (p.capturing root).length)
    (hmk : p.EndsBefore root m k) : ¬ p.EndsBefore root k m := by
  intro hkm
  have hi := List.getElem?_eq_getElem hm
  have hj := List.getElem?_eq_getElem hk
  obtain ⟨hne, hbefore⟩ := hmk _ _ hi hj
  obtain ⟨-, hafter⟩ := hkm _ _ hj hi
  rcases hbefore with hbelow | ⟨hlt, hapart⟩ <;> rcases hafter with hbelow' | ⟨hlt', hapart'⟩
  · have heq := h.eq_of_reaches (h.mem_capturing.1 (List.mem_of_getElem? hj)).1 hbelow hbelow'
    rw [← heq] at hi
    exact hne ((h.getElem?_capturing.1 hi).2.symm.trans (h.getElem?_capturing.1 hj).2)
  · exact hapart' hbelow
  · exact hapart hbelow'
  · omega

/-- The places in a list of marks are in the order of the ends if the list is. -/
theorem lt_iff_endsBefore {marks : List Nat} (hbound : ∀ m ∈ marks, m < (p.capturing root).length)
    (hordered : marks.Pairwise (p.EndsBefore root)) {a b : Nat × Nat} (ha : a ∈ marks.zipIdx)
    (hb : b ∈ marks.zipIdx) : a.2 < b.2 ↔ p.EndsBefore root a.1 b.1 := by
  obtain ⟨hlt, ha⟩ := List.getElem?_eq_some_iff.1 (List.mem_zipIdx_iff_getElem?.1 ha)
  obtain ⟨hlt', hb⟩ := List.getElem?_eq_some_iff.1 (List.mem_zipIdx_iff_getElem?.1 hb)
  have hbound' : ∀ {i : Nat} (hi : i < marks.length), marks[i] < (p.capturing root).length :=
    fun hi => hbound _ (List.getElem_mem hi)
  rw [← ha, ← hb]
  constructor
  · exact List.pairwise_iff_getElem.1 hordered a.2 b.2 hlt hlt'
  · intro hbefore
    by_contra hle
    rcases Nat.lt_or_eq_of_le (Nat.le_of_not_lt hle) with hback | heq
    · exact h.endsBefore_asymm (hbound' hlt) (hbound' hlt') hbefore
        (List.pairwise_iff_getElem.1 hordered b.2 a.2 hlt' hlt hback)
    · simp only [heq] at hbefore
      exact h.endsBefore_asymm (hbound' hlt) (hbound' hlt) hbefore hbefore

theorem mem_ends_marks (hfresh : p.Unmarked root) :
    m ∈ (p.ends root).map Closing.mark ↔ m < (p.capturing root).length := by
  rw [List.mem_map]
  constructor
  · rintro ⟨c, hc, rfl⟩
    exact (List.getElem?_eq_some_iff.1 ((h.mem_ends hfresh).1 hc).1).1
  · intro hm
    exact ⟨_, h.closing_mem_ends hfresh (List.getElem?_eq_getElem hm), rfl⟩

/-- The root is the only group with the first mark. -/
theorem place_ne_root (hfresh : p.Unmarked root) {c : Closing} (hc : c ∈ p.ends root) :
    (c.place != root) = true ↔ c.mark ≠ 0 := by
  have hmark := ((h.mem_ends hfresh).1 hc).1
  rw [bne_iff_ne, not_iff_not]
  constructor
  · intro hroot
    rw [hroot] at hmark
    exact (h.getElem?_capturing.1 hmark).2.symm.trans (h.getElem?_capturing.1 h.capturing_zero).2
  · intro hzero
    rw [hzero] at hmark
    exact Option.some.inj (hmark.symm.trans h.capturing_zero)

/-- The marks of the groups other than the root, in the order in which these end. -/
theorem endOrder_ends (hfresh : p.Unmarked root) : ∃ marks : List Nat,
    endOrder ((p.ends root).filter (·.place != root)) = marks.zipIdx ∧
      marks.Perm (List.range' 1 ((p.capturing root).length - 1)) ∧
      ∀ a ∈ marks.zipIdx, ∀ b ∈ marks.zipIdx, (a.2 < b.2 ↔ p.EndsBefore root a.1 b.1) := by
  have hsub : (((p.ends root).filter (·.place != root)).map Closing.mark).Sublist
      ((p.ends root).map Closing.mark) := List.filter_sublist.map _
  have hnodup := (h.ends_nodup hfresh).sublist hsub
  have hordered := (h.ends_pairwise hfresh).sublist hsub
  refine ⟨_, endOrder_eq hnodup, ?_, ?_⟩
  · refine (List.perm_ext_iff_of_nodup hnodup List.nodup_range').2 fun m => ?_
    rw [List.mem_range'_1, List.mem_map]
    constructor
    · rintro ⟨c, hc, rfl⟩
      obtain ⟨hc, hne⟩ := List.mem_filter.1 hc
      have hlt := (h.mem_ends_marks hfresh).1 (List.mem_map_of_mem hc)
      have hpos := (h.place_ne_root hfresh hc).1 hne
      omega
    · rintro ⟨hpos, hlt⟩
      have hm : m ∈ (p.ends root).map Closing.mark := (h.mem_ends_marks hfresh).2 (by omega)
      obtain ⟨c, hc, rfl⟩ := List.mem_map.1 hm
      exact ⟨c, List.mem_filter.2 ⟨hc, (h.place_ne_root hfresh hc).2 (by omega)⟩, rfl⟩
  · exact fun a ha b hb => h.lt_iff_endsBefore
      (fun m hm => (h.mem_ends_marks hfresh).1 (hsub.subset hm)) hordered ha hb

/-- The bits that are clear in the mask of a mark are those of the groups at and below its group. -/
theorem subMasks_ends (hfresh : p.Unmarked root) (hroom : (p.capturing root).length ≤ limits.marks)
    (hm : (p.capturing root)[m]? = some g) : ∃ mask,
      (subMasks limits.marks (p.ends root))[m]? = some mask ∧ ∀ k < 32,
        (mask.toNat.testBit k = false ↔ ∃ j, p.Reaches g j ∧ (p.capturing root)[k]? = some j) := by
  have hlt : ∀ {k j}, (p.capturing root)[k]? = some j → k < limits.marks := fun hk =>
    Nat.lt_of_lt_of_le (List.getElem?_eq_some_iff.1 hk).1 hroom
  have hg := (h.mem_capturing.1 (List.mem_of_getElem? hm)).1
  refine ⟨_, (getElem?_subMasks (h.ends_nodup hfresh) (hlt hm)).1 _ (h.closing_mem_ends hfresh hm) rfl,
    fun k hk => ?_⟩
  have hbound : ∀ j k, p.Reaches root j → (p.marked root).IsMarked k j → k < 32 := fun j k hj hk =>
    Nat.lt_of_lt_of_le (hlt ((h.isMarked_marked hfresh hj).1 hk)) (Nat.min_le_right _ _)
  rw [closings_mask h.toAcyclic hbound hg hk]
  exact exists_congr fun j => and_congr_right fun hj => h.isMarked_marked hfresh (hg.trans hj)

theorem subMasks_unused (hfresh : p.Unmarked root) (hm : m < limits.marks)
    (hunused : (p.capturing root).length ≤ m) :
    (subMasks limits.marks (p.ends root))[m]? = some allMarks :=
  (getElem?_subMasks (h.ends_nodup hfresh) hm).2 fun hmem =>
    absurd ((h.mem_ends_marks hfresh).1 hmem) (by omega)

/-! ## Steps -/

theorem assignMarks_marked (hroom : (p.capturing root).length ≤ limits.marks) : ∃ names,
    assignMarks limits.marks 0 [] (p.capturing root) p = .ok names (p.marked root) ∧
      p.NamesOf root names := by
  have hroom' : 0 + (p.capturing root).length ≤ limits.marks := by rwa [Nat.zero_add]
  obtain ⟨names, hok, hnames⟩ := assignMarks_ok [] (fun _ => h.lt_of_mem_capturing) hroom'
  refine ⟨names, hok, fun s m => ?_⟩
  rw [hnames]
  simp

/-- What the numbering answers if there are marks for all groups. -/
theorem number_of_room (hroom : p.HasRoom root indexAlternatives limits) : ∃ names, p.NamesOf root names ∧
    number root indexAlternatives limits p =
      match resolveReferences root (p.outline root).preorder names 0 (p.outline root).preorder
        (p.marked root) with
      | .error e q => .error e q
      | .ok mask q => .ok
          { groupCount := (p.capturing root).length + indexAlternatives.toNat
            names
            endOrder := endOrder ((p.ends root).filter (·.place != root))
            backrefMask := mask
            subMasks := subMasks limits.marks (p.ends root)
            alternativeMark := if indexAlternatives then some (p.capturing root).length else none } q := by
  have hle : (p.capturing root).length ≤ limits.marks := Nat.le_trans (Nat.le_add_right _ _) hroom
  obtain ⟨names, hok, hnames⟩ := h.assignMarks_marked hle
  have hcheck : (indexAlternatives && decide (limits.marks ≤ (p.capturing root).length)) = false := by
    cases indexAlternatives with
    | false => rfl
    | true =>
      rw [HasRoom, Bool.toNat_true] at hroom
      rw [Bool.true_and, decide_eq_false (by omega)]
  have hcount : (if indexAlternatives then (p.capturing root).length + 1 else (p.capturing root).length) =
      (p.capturing root).length + indexAlternatives.toNat := by
    cases indexAlternatives <;> rfl
  refine ⟨names, hnames, ?_⟩
  rw [number, bind_get, bind_get, bind_of_ok hok]
  simp only [hcheck, Bool.false_eq_true, if_false]
  rw [bind_get]
  cases hresolve : resolveReferences root (p.outline root).preorder names 0 (p.outline root).preorder
      (p.marked root) with
  | error e q => exact bind_of_error hresolve
  | ok mask q =>
    rw [bind_of_ok hresolve, hcount]
    rfl

end Tree

/-! ## Answers and failures -/

/-- Why the groups of a tree cannot be numbered. Of several backreferences that refer to no group the first
one is reported. -/
inductive NumberingFails (p : Pattern) (root : Nat) (indexAlternatives : Bool) (limits : Limits) :
    CompileError → Prop
  | tooManyGroups (hfull : limits.marks < (p.capturing root).length) :
    NumberingFails p root indexAlternatives limits (.tooManyGroups limits.marks)
  | noAlternativeMark (hindex : indexAlternatives = true)
      (hfull : (p.capturing root).length = limits.marks) :
    NumberingFails p root indexAlternatives limits (.noAlternativeMark (p.capturing root).length)
  | unknownBackreference {before after : List Nat} {i : Nat} {name : String}
      (hroom : p.HasRoom root indexAlternatives limits)
      (hplaces : (p.outline root).preorder = before ++ i :: after)
      (hresolves : ∀ j ∈ before, p.Resolves root j)
      (hkind : (p.node i).kind = .action (.backreference (.name name)))
      (hname : ∀ g ∈ p.capturing root, (p.node g).name ≠ some name) :
    NumberingFails p root indexAlternatives limits (.unknownBackreference name)
  | invalidBackreference {before after : List Nat} {i mark : Nat} {target : Reference}
      (hroom : p.HasRoom root indexAlternatives limits)
      (hplaces : (p.outline root).preorder = before ++ i :: after)
      (hresolves : ∀ j ∈ before, p.Resolves root j)
      (hkind : (p.node i).kind = .action (.backreference target)) (hmark : p.MarkOf root target mark)
      (hunused : mark = 0 ∨ (p.capturing root).length ≤ mark) :
    NumberingFails p root indexAlternatives limits (.invalidBackreference mark)

/-- What the numbering of the groups of a tree answers, and what it leaves of the tree. -/
structure Numbered (p : Pattern) (root : Nat) (indexAlternatives : Bool) (limits : Limits)
    (numbering : Numbering) (q : Pattern) : Prop where
  room : p.HasRoom root indexAlternatives limits
  /-- The groups have the marks from 0 on in the order of a walk, and no other node has a mark. -/
  mark : ∀ i, p.Reaches root i → ∀ k, (q.node i).mark = some k ↔ (p.capturing root)[k]? = some i
  groupCount : numbering.groupCount = (p.capturing root).length + indexAlternatives.toNat
  alternativeMark : numbering.alternativeMark =
    if indexAlternatives then some (p.capturing root).length else none
  names : p.NamesOf root numbering.names
  size_subMasks : numbering.subMasks.size = limits.marks
  /-- The mask of a mark clears the marks of the groups at and below its group. -/
  subMask : ∀ m g : Nat, (p.capturing root)[m]? = some g →
    ∃ mask : UInt32, numbering.subMasks[m]? = some mask ∧
      ∀ k < 32, (mask.toNat.testBit k = false ↔ ∃ j, p.Reaches g j ∧ (p.capturing root)[k]? = some j)
  subMask_unused : ∀ m : Nat, (p.capturing root).length ≤ m → m < limits.marks →
    numbering.subMasks[m]? = some allMarks
  /-- The groups but the root have places in the order in which they end. -/
  endOrder_marks : (numbering.endOrder.map Prod.fst).Perm (List.range' 1 ((p.capturing root).length - 1))
  endOrder_places : numbering.endOrder.map Prod.snd = List.range ((p.capturing root).length - 1)
  endOrder_lt : ∀ a ∈ numbering.endOrder, ∀ b ∈ numbering.endOrder,
    (a.2 < b.2 ↔ p.EndsBefore root a.1 b.1)
  /-- The backreferences refer to groups, and to their marks. -/
  resolves : ∀ i, p.Reaches root i → p.Resolves root i
  backreference : ∀ l, p.IsLink root l → (q.node l.place).kind = .action (.backreference (.mark l.mark))
  referenced : ∀ i, (q.node i).attributes.referenced = true ↔
    (p.node i).attributes.referenced = true ∨ ∃ l, p.IsLink root l ∧ l.group = i
  backrefMask : ∀ k < 32, numbering.backrefMask.toNat.testBit k = true ↔ ∃ l, p.IsLink root l ∧ l.mark = k
  /-- Nothing else has changed. -/
  kind : ∀ i, (∀ l, p.IsLink root l → l.place ≠ i) → (q.node i).kind = (p.node i).kind
  same_node : ∀ i, (q.node i).unnumbered = (p.node i).unnumbered
  same_pattern : q = { p with nodes := q.nodes }

theorem giveLinks_eq {links : List Link} :
    p.giveLinks links = { p with nodes := (p.giveLinks links).nodes } := by
  induction links generalizing p with
  | nil => rfl
  | cons l rest ih =>
    rw [giveLinks, List.foldl_cons, ← giveLinks, ih, giveLink, updateAttributes, update, update]

theorem hasRoom_of_not_fails (hnot : ∀ e, ¬ p.NumberingFails root indexAlternatives limits e) :
    p.HasRoom root indexAlternatives limits := by
  have hle : (p.capturing root).length ≤ limits.marks :=
    Nat.le_of_not_lt fun hfull => hnot _ (.tooManyGroups hfull)
  rw [HasRoom]
  cases indexAlternatives with
  | false => exact hle
  | true => exact Nat.lt_of_le_of_ne hle fun hfull => hnot _ (.noAlternativeMark rfl hfull)

namespace Tree

variable (h : p.Tree root)
include h

theorem number_error (hfresh : p.Unmarked root) {e : CompileError}
    (hfails : p.NumberingFails root indexAlternatives limits e) :
    ∃ q, number root indexAlternatives limits p = .error e q := by
  have hreach : ∀ {before after : List Nat} {i : Nat},
      (p.outline root).preorder = before ++ i :: after → ∀ j ∈ before, p.Reaches root j :=
    fun hplaces j hj => (h.mem_preorder .refl).1 (hplaces ▸ List.mem_append_left _ hj)
  have hresolving := h.resolving hfresh
  have hnodup := h.preorder_nodup .refl
  cases hfails with
  | tooManyGroups hfull =>
    have hfull' : limits.marks < 0 + (p.capturing root).length := by rwa [Nat.zero_add]
    obtain ⟨q, hq⟩ := assignMarks_error (p := p) [] (Nat.zero_le _) hfull'
    refine ⟨q, ?_⟩
    rw [number, bind_get, bind_get, bind_of_error hq]
  | noAlternativeMark hindex hfull =>
    obtain ⟨names, hok, -⟩ := h.assignMarks_marked (Nat.le_of_eq hfull)
    refine ⟨p.marked root, ?_⟩
    rw [number, bind_get, bind_get, bind_of_ok hok]
    simp only [hindex, hfull, Nat.le_refl, decide_true, Bool.and_self, if_true]
    exact bind_throw
  | unknownBackreference hroom hplaces hresolves hkind hname =>
    obtain ⟨names, hnames, hnumber⟩ := h.number_of_room hroom
    have hname' : ∀ m, ¬ p.MarkOf root (.name _) m := fun m hm => by
      obtain ⟨g, hg, hgroup⟩ := hm.1
      exact hname g (List.mem_of_getElem? hg) hgroup
    rw [hplaces] at hresolving hnodup
    obtain ⟨q, hq⟩ := resolveReferences_error_name 0 h.toAcyclic hnames
      hresolving (hreach hplaces) hnodup hresolves hkind hname'
    refine ⟨q, ?_⟩
    rw [hnumber, hplaces, hq]
  | invalidBackreference hroom hplaces hresolves hkind hmark hunused =>
    obtain ⟨names, hnames, hnumber⟩ := h.number_of_room hroom
    rw [hplaces] at hresolving hnodup
    obtain ⟨q, hq⟩ := resolveReferences_error_mark 0 h.toAcyclic hnames
      hresolving (hreach hplaces) hnodup hresolves hkind hmark hunused
    refine ⟨q, ?_⟩
    rw [hnumber, hplaces, hq]

/-- Unless the numbering fails, all backreferences refer to groups. -/
theorem resolves_of_not_fails (hroom : p.HasRoom root indexAlternatives limits)
    (hnot : ∀ e, ¬ p.NumberingFails root indexAlternatives limits e) (hi : p.Reaches root i) :
    p.Resolves root i := by
  classical
  by_contra hunresolved
  have hfind : ((p.outline root).preorder.find? fun i => decide (¬ p.Resolves root i)).isSome :=
    List.find?_isSome.2 ⟨i, (h.mem_preorder .refl).2 hi, decide_eq_true hunresolved⟩
  obtain ⟨j, hj⟩ := Option.isSome_iff_exists.1 hfind
  obtain ⟨hunresolved, before, after, hplaces, hbefore⟩ := List.find?_eq_some_iff_append.1 hj
  have hresolves : ∀ i ∈ before, p.Resolves root i := by simpa using hbefore
  have hreach : p.Reaches root j := (h.mem_preorder .refl).1 (hplaces ▸ by simp)
  rw [decide_eq_true_iff, Resolves, Classical.not_imp] at hunresolved
  obtain ⟨⟨target, hkind⟩, hnolink⟩ := hunresolved
  by_cases hmark : ∃ m, p.MarkOf root target m
  · obtain ⟨m, hm⟩ := hmark
    refine hnot _ (.invalidBackreference hroom hplaces hresolves hkind hm ?_)
    by_contra hused
    rw [not_or, Nat.not_le] at hused
    exact hnolink ⟨m, _, hreach, ⟨target, hkind, hm⟩, hused.1, List.getElem?_eq_getElem hused.2⟩
  · cases target with
    | mark mark => exact hmark ⟨mark, rfl⟩
    | name name =>
      refine hnot _ (.unknownBackreference hroom hplaces hresolves hkind fun g hg hname => hmark ?_)
      exact exists_lastNamed ⟨g, hg, hname⟩

theorem number_ok (hfresh : p.Unmarked root)
    (hnot : ∀ e, ¬ p.NumberingFails root indexAlternatives limits e) : ∃ numbering q,
      number root indexAlternatives limits p = .ok numbering q ∧
        p.Numbered root indexAlternatives limits numbering q := by
  have hroom := hasRoom_of_not_fails hnot
  have hresolves : ∀ i, p.Reaches root i → p.Resolves root i :=
    fun i hi => h.resolves_of_not_fails hroom hnot hi
  have hle : (p.capturing root).length ≤ limits.marks := Nat.le_trans (Nat.le_add_right _ _) hroom
  obtain ⟨names, hnames, hnumber⟩ := h.number_of_room hroom
  have hreach : ∀ i ∈ (p.outline root).preorder, p.Reaches root i := fun i => (h.mem_preorder .refl).1
  have hresolving : p.Resolving root (p.outline root).preorder ((p.outline root).preorder ++ [])
      (p.marked root) := by simpa using h.resolving hfresh
  have hnodup : ((p.outline root).preorder ++ []).Nodup := by simpa using h.preorder_nodup .refl
  obtain ⟨links, hlinks, -, hresolve⟩ := resolveReferences_append 0 h.toAcyclic hnames hresolving hreach
    hnodup fun i hi => hresolves i (hreach i hi)
  have hmem : ∀ l, l ∈ links ↔ p.IsLink root l := fun l =>
    (hlinks l).trans (and_iff_right_of_imp fun hl => (h.mem_preorder .refl).2 hl.reaches)
  rw [List.append_nil, resolveReferences] at hresolve
  rw [hresolve] at hnumber
  have hnoted : LinksNoted links (p.marked root) ((p.marked root).giveLinks links) := by
    refine linksNoted (fun l hl => ?_) fun l hl l' hl' => ((hmem l).1 hl).unique ((hmem l').1 hl')
    rw [marked, giveMarks, size_updateEach]
    exact ((hmem l).1 hl).lt h.toAcyclic
  obtain ⟨marks, hends, hperm, hlt⟩ := h.endOrder_ends hfresh
  have hfst : marks.zipIdx.map Prod.fst = marks := List.zipIdx_map_fst _ _
  have hbound : ∀ l ∈ links, l.mark < 32 := fun l hl =>
    Nat.lt_of_lt_of_le (List.getElem?_eq_some_iff.1 ((hmem l).1 hl).marked).1
      (Nat.le_trans hle (Nat.min_le_right _ _))
  refine ⟨_, _, hnumber, hroom, fun i hi k => ?_, rfl, rfl, hnames, size_subMasks,
    fun m g => h.subMasks_ends hfresh hle, fun m hunused hm => h.subMasks_unused hfresh hm hunused,
    ?_, ?_, ?_, hresolves, fun l hl => hnoted.linked l ((hmem l).2 hl), fun i => ?_, fun k hk => ?_,
    fun i hi => ?_, fun i => ?_, ?_⟩
  · have hsame : (((p.marked root).giveLinks links).node i).mark = ((p.marked root).node i).mark := by
      have hmark := congrArg Node.mark (hnoted.same i)
      exact hmark
    rw [hsame, h.mark_marked hfresh hi]
  · simp only [hends, hfst, hperm]
  · simp only [hends]
    rw [List.zipIdx_map_snd, hperm.length_eq, List.length_range', List.range_eq_range']
  · simpa only [hends] using hlt
  · rw [hnoted.referenced, h.node_marked]
    simp only [hmem]
  · rw [testBit_links hbound]
    simp [hmem]
  · rw [hnoted.other i fun l hl => hi l ((hmem l).1 hl), h.node_marked]
  · rw [Node.unnumbered, hnoted.same i, h.node_marked]
    rfl
  · rw [giveLinks_eq, marked, giveMarks, updateEach_eq]

end Tree

/-- The numbering of the groups of a tree fails for one of the given reasons, or it answers what the tree
says and notes it in the tree. -/
theorem number_spec (h : p.Tree root) (hfresh : p.Unmarked root) :
    (∀ e, (∃ q, number root indexAlternatives limits p = .error e q) ↔
      p.NumberingFails root indexAlternatives limits e) ∧
    ∀ numbering q, number root indexAlternatives limits p = .ok numbering q →
      p.Numbered root indexAlternatives limits numbering q := by
  by_cases hfails : ∃ e, p.NumberingFails root indexAlternatives limits e
  · obtain ⟨e, he⟩ := hfails
    obtain ⟨q, hq⟩ := h.number_error hfresh he
    refine ⟨fun e' => ⟨fun ⟨q', hq'⟩ => ?_, h.number_error hfresh⟩, fun numbering q' hok => ?_⟩
    · obtain ⟨rfl, -⟩ := EStateM.Result.error.inj (hq.symm.trans hq')
      exact he
    · cases hq.symm.trans hok
  · rw [not_exists] at hfails
    obtain ⟨numbering, q, hok, hnumbered⟩ := h.number_ok hfresh hfails
    refine ⟨fun e => ⟨fun ⟨q', hq'⟩ => ?_, fun he => absurd he (hfails e)⟩, fun numbering' q' hok' => ?_⟩
    · cases hok.symm.trans hq'
    · obtain ⟨rfl, rfl⟩ := EStateM.Result.ok.inj (hok.symm.trans hok')
      exact hnumbered

/-- A group that is nested in another one, a group that is not reported, and a reference to a name. -/
def nestedGroups : Pattern where
  nodes := #[
    { kind := .group, children := [1, 4, 6] },
    { kind := .group, children := [2], name := some "outer" },
    { kind := .group, children := [3] },
    { kind := .charClass 10 },
    { kind := .group, attributes := { uncaptured := true }, children := [5] },
    { kind := .charClass 11 },
    { kind := .action (.backreference (.name "outer")) }]
  root := some 0

/-- What is noted in `nestedGroups`: three marks and the group that is referred to. -/
def nestedGroupsNoted : Pattern :=
  (((nestedGroups.update 0 ({ · with mark := some 0 })).update 1 ({ · with mark := some 1 })).update 2
    ({ · with mark := some 2 })).giveLink ⟨6, 1, 1⟩

/-- What the numbering of `nestedGroups` answers. The nested group ends first. -/
def nestedGroupsNumbering : Numbering where
  groupCount := 4
  names := [("outer", 1)]
  endOrder := [(2, 0), (1, 1)]
  backrefMask := 2
  subMasks := #[0xFFFFFFF8, 0xFFFFFFF9, 0xFFFFFFFB, 0xFFFFFFFF]
  alternativeMark := some 3

theorem nestedGroups_tree : nestedGroups.Tree 0 :=
  tree_of_lt (by decide) rfl (by decide) (by decide) (by decide)

theorem nestedGroups_unmarked : nestedGroups.Unmarked 0 := nestedGroups_tree.unmarked (by decide)

/-- With four marks there is one for the alternatives, and with three marks there is none. -/
theorem number_spec_nestedGroups : nestedGroups.Tree 0 ∧ nestedGroups.Unmarked 0 ∧
    number 0 true { maxMarkPairs := 4 } nestedGroups = .ok nestedGroupsNumbering nestedGroupsNoted ∧
    nestedGroups.Numbered 0 true { maxMarkPairs := 4 } nestedGroupsNumbering nestedGroupsNoted ∧
    nestedGroups.NumberingFails 0 true { maxMarkPairs := 3 } (.noAlternativeMark 3) := by
  have hok : number 0 true { maxMarkPairs := 4 } nestedGroups =
      .ok nestedGroupsNumbering nestedGroupsNoted := by decide +kernel
  have hfull : number 0 true { maxMarkPairs := 3 } nestedGroups = .error (.noAlternativeMark 3)
      (nestedGroups.marked 0) := by decide +kernel
  exact ⟨nestedGroups_tree, nestedGroups_unmarked, hok,
    (number_spec nestedGroups_tree nestedGroups_unmarked).2 _ _ hok,
    ((number_spec nestedGroups_tree nestedGroups_unmarked).1 _).1 ⟨_, hfull⟩⟩

end Pattern
end ByteMatch
