import ByteMatch.Proofs.CharSet.Algebra

/-!
# ByteMatch.Proofs.CharSet.Equality

Equality of character sets.

* `Automaton.Correspondence.partner_of_reaches`: where comparable trees accept the same, each state
  has a partner that accepts the same.
* `Alignment.Comparable.same_of_accepts`, `Alignment.Comparable.accepts_of_same`: comparable trees
  accept the same if and only if they have the same shape.
* `CharSet.equals_iff`: equality of sets is equality of what they accept.
-/

namespace ByteMatch
namespace Automaton

variable {a b left right : Automaton} {R : Nat → Nat → Prop} {l r q : Nat} {w : List UInt8}

/-! ## Counting states -/

theorem all_states_iff {p : State × Nat → Bool} :
    a.toList.zipIdx.all p = true ↔ ∀ q, q < a.size → p (a.state q, q) = true := by
  rw [List.all_eq_true]
  constructor
  · intro h q hq
    refine h _ (List.mem_zipIdx_iff_getElem?.2 ?_)
    rw [Array.getElem?_toList, Array.getElem?_eq_getElem hq, state_of_lt hq]
  · rintro h ⟨s, q⟩ hmem
    rw [List.mem_zipIdx_iff_getElem?, Array.getElem?_toList] at hmem
    obtain ⟨hq, hs⟩ := Array.getElem?_eq_some_iff.1 hmem
    have := h q hq
    rwa [state_of_lt hq, hs] at this

/-- If one property implies another and as many elements have either, then they agree. -/
theorem countP_eq_imp {α : Type} {p p' : α → Bool} {xs : List α}
    (h : ∀ x ∈ xs, p x = true → p' x = true) (hcount : xs.countP p' = xs.countP p) :
    ∀ x ∈ xs, p' x = true → p x = true := by
  induction xs with
  | nil => simp
  | cons y xs ih =>
    have hle : xs.countP p ≤ xs.countP p' :=
      List.countP_mono_left fun x hx => h x (List.mem_cons_of_mem _ hx)
    have hy := h y (by simp)
    rw [List.countP_cons, List.countP_cons] at hcount
    have hboth : (p' y = true → p y = true) ∧ xs.countP p' = xs.countP p := by
      cases hp : p y <;> cases hp' : p' y <;> simp [hp, hp'] at hcount hy ⊢ <;> omega
    intro x hx
    rcases List.mem_cons.1 hx with rfl | hx
    · exact hboth.1
    · exact ih (fun x hx => h x (List.mem_cons_of_mem _ hx)) hboth.2 x hx

/-! ## States that accept the same -/

/-- Where comparable trees accept the same, each state has a partner, which accepts the same. -/
theorem Correspondence.partner_of_reaches (h : Correspondence left right R) (hl : left.Forest [0])
    (hprod : ∀ q, left.Reaches 0 q → left.Productive q)
    (hsettled : ∀ l r, R l r → Settled left right R l r)
    (hsame : ∀ w, left.accepts w = right.accepts w) (hpath : left.Reaches 0 l) :
    ∃ r, R l r ∧ ∀ w, left.acceptsFrom l w = right.acceptsFrom r w := by
  induction hpath with
  | refl => exact ⟨0, h.root, hsame⟩
  | @tail p l hpath hchild ih =>
    obtain ⟨r, hpr, hw⟩ := ih
    obtain ⟨c, he⟩ := hchild
    obtain ⟨x, hx⟩ := hl.label_nonempty _ _ _ he
    obtain ⟨next, hstep, hnext⟩ := hl.toProper.step_of_same hw (hl.step?_iff.2 ⟨c, hx, he⟩)
      (hprod l (hpath.tail ⟨c, he⟩))
    obtain ⟨c', hx', he'⟩ := Transitions.exists_of_step? hstep
    rcases hsettled p r hpr c l he c' next he' with ⟨-, hR⟩ | hdisj
    · exact ⟨next, hR, hnext⟩
    · exact absurd hx' (hdisj x hx)

end Automaton

namespace Alignment

open Automaton

variable {al : Alignment} {left₀ right₀ : Automaton} {l r : Nat}

/-- The partner of a right state that has one. -/
def partner (al : Alignment) (r : Nat) : Nat := (al.pairs.get? r).getD 0

theorem partner_eq (h : al.Paired l r) : al.partner r = l := by
  rw [Paired] at h
  rw [partner, h, Option.getD_some]

namespace Comparable

variable (h : Aligned left₀ right₀ al)
include h

theorem size_pairs : al.pairs.size = (List.range al.right.size).countP al.pairs.contains :=
  Matching.size_eq fun _ _ hlr => h.right.lt (h.corr.reached _ _ hlr).2

theorem nodup_partners (htotal : ∀ r, r < al.right.size → al.Paired (al.partner r) r) :
    ((List.range al.right.size).map al.partner).Nodup := by
  refine List.Nodup.map_on (fun r hr r' hr' heq => ?_) List.nodup_range
  have hpair := htotal r (List.mem_range.1 hr)
  have hpair' := htotal r' (List.mem_range.1 hr')
  rw [← heq] at hpair'
  exact h.corr.right_unique _ _ _ hpair hpair'

theorem partner_lt (htotal : ∀ r, r < al.right.size → al.Paired (al.partner r) r)
    (hr : r < al.right.size) : al.partner r < al.left.size :=
  h.left.lt (h.corr.reached _ _ (htotal r hr)).1

/-- Each state on either side has a partner on the other side. -/
structure Matched (al : Alignment) : Prop where
  total : ∀ r, r < al.right.size → al.Paired (al.partner r) r
  perm : ((List.range al.right.size).map al.partner).Perm (List.range al.left.size)

theorem matched_of_size (hsize : al.left.size = al.right.size)
    (htotal : ∀ r, r < al.right.size → al.Paired (al.partner r) r) : Matched al := by
  refine ⟨htotal, ?_⟩
  have hsub : (List.range al.right.size).map al.partner ⊆ List.range al.left.size := by
    intro l hl
    obtain ⟨r, hr, rfl⟩ := List.mem_map.1 hl
    exact List.mem_range.2 (h.partner_lt htotal (List.mem_range.1 hr))
  exact ((h.nodup_partners htotal).subperm hsub).perm_of_length_le (by simp [hsize])

theorem matched_of_partners (htotal : ∀ r, r < al.right.size → al.Paired (al.partner r) r)
    (honto : ∀ l, l < al.left.size → ∃ r, al.Paired l r) : Matched al := by
  refine ⟨htotal, (List.perm_ext_iff_of_nodup (h.nodup_partners htotal) List.nodup_range).2 ?_⟩
  intro l
  rw [List.mem_map, List.mem_range]
  constructor
  · rintro ⟨r, hr, rfl⟩
    exact h.partner_lt htotal (List.mem_range.1 hr)
  · intro hl
    obtain ⟨r, hlr⟩ := honto l hl
    exact ⟨r, List.mem_range.2 (h.right.lt (h.corr.reached l r hlr).2), partner_eq hlr⟩

omit h in
theorem Matched.onto (hm : Matched al) (hl : l < al.left.size) : ∃ r, r < al.right.size ∧ al.Paired l r := by
  obtain ⟨r, hr, heq⟩ := List.mem_map.1 (hm.perm.mem_iff.2 (List.mem_range.2 hl))
  rw [List.mem_range] at hr
  exact ⟨r, hr, heq ▸ hm.total r hr⟩

/-- Matched states have the same labels, which lead to matched states. -/
theorem Matched.edge_left (hm : Matched al) {c : ByteSet} {next : Nat} (he : al.right.Edge r c next) :
    ∃ l, al.left.Edge (al.partner r) c l ∧ al.Paired l next := by
  have hnext := hm.total next (h.right.forest.target_lt _ _ _ he)
  obtain ⟨p, he', hp⟩ := h.corr.swap.parent_of_edge h.right.forest hnext he
  rw [← partner_eq hp] at he'
  exact ⟨_, he', hnext⟩

theorem Matched.edge_right (hm : Matched al) {c : ByteSet} (hr : r < al.right.size)
    (he : al.left.Edge (al.partner r) c l) : ∃ next, al.right.Edge r c next ∧ al.Paired l next := by
  obtain ⟨next, -, hnext⟩ := hm.onto (h.left.forest.target_lt _ _ _ he)
  obtain ⟨p, he', hp⟩ := h.corr.parent_of_edge h.left.forest hnext he
  rw [h.corr.right_unique _ _ _ (hm.total r hr) hp]
  exact ⟨next, he', hnext⟩

theorem Matched.isEmpty_transitions (hm : Matched al) (hr : r < al.right.size) :
    (al.right.state r).transitions.isEmpty = (al.left.state (al.partner r)).transitions.isEmpty := by
  rw [Bool.eq_iff_iff, Transitions.isEmpty_iff, Transitions.isEmpty_iff, List.eq_nil_iff_forall_not_mem,
    List.eq_nil_iff_forall_not_mem]
  constructor
  · rintro hnone ⟨c, l⟩ he
    obtain ⟨next, he', -⟩ := hm.edge_right h hr he
    exact hnone _ he'
  · rintro hnone ⟨c, next⟩ he
    obtain ⟨l, he', -⟩ := hm.edge_left h he
    exact hnone _ he'

omit h in
/-- States of the left tree are counted through their partners. -/
theorem Matched.countP_left (hm : Matched al) (p : State → Bool) :
    al.left.countP p = (List.range al.right.size).countP fun r => p (al.left.state (al.partner r)) := by
  rw [countP_states, ← hm.perm.countP_eq, List.countP_map]
  rfl

omit h in
theorem same_iff : al.same = true ↔ al.left.size = al.right.size ∧
    al.left.countP (·.leaf.isSome) = al.right.countP (·.leaf.isSome) ∧
    al.left.countP (!·.transitions.isEmpty) = al.right.countP (!·.transitions.isEmpty) ∧
    al.right.size = al.pairs.size ∧ ∀ r, r < al.right.size → ∀ leaf, (al.right.state r).leaf = some leaf →
      ∃ l, al.Paired l r ∧ (al.left.state l).leaf = some leaf := by
  rw [same]
  simp only [Bool.and_eq_true, beq_iff_eq, all_states_iff, and_assoc]
  refine and_congr_right fun _ => and_congr_right fun _ => and_congr_right fun _ =>
    and_congr_right fun _ => forall_congr' fun r => imp_congr_right fun _ => ?_
  cases (al.right.state r).leaf with
  | none => simp
  | some leaf =>
    simp only [beq_iff_eq, Option.bind_eq_some_iff, Option.some.injEq, forall_eq']
    rfl

omit h in
theorem leaf_of_same (hsame : al.same = true) (hm : Matched al) (hr : r < al.right.size) :
    (al.right.state r).leaf = (al.left.state (al.partner r)).leaf := by
  obtain ⟨-, hleaves, -, -, hcheck⟩ := same_iff.1 hsame
  have hkept : ∀ r, r < al.right.size → ∀ leaf, (al.right.state r).leaf = some leaf →
      (al.left.state (al.partner r)).leaf = some leaf := by
    intro r hr leaf hleaf
    obtain ⟨l, hlr, hl⟩ := hcheck r hr leaf hleaf
    rwa [partner_eq hlr]
  cases hright : (al.right.state r).leaf with
  | some leaf => rw [hkept r hr leaf hright]
  | none =>
    -- there are as many leaves on the left, so there are no others
    rw [hm.countP_left, countP_states] at hleaves
    have hsome : ∀ r ∈ List.range al.right.size, (al.right.state r).leaf.isSome = true →
        (al.left.state (al.partner r)).leaf.isSome = true := by
      intro r hr hleaf
      obtain ⟨leaf, hleaf⟩ := Option.isSome_iff_exists.1 hleaf
      rw [hkept r (List.mem_range.1 hr) leaf hleaf]
      rfl
    have himp := countP_eq_imp hsome hleaves r (List.mem_range.2 hr)
    cases hleft : (al.left.state (al.partner r)).leaf with
    | none => rfl
    | some leaf => simp [hleft, hright] at himp

theorem accepts_of_same (hsame : al.same = true) (w : List UInt8) :
    al.left.accepts w = al.right.accepts w := by
  obtain ⟨hsize, -, -, hpairs, -⟩ := same_iff.1 hsame
  have htotal : ∀ r, r < al.right.size → al.Paired (al.partner r) r := by
    intro r hr
    rw [h.size_pairs] at hpairs
    have hall := List.countP_eq_length.1 (hpairs.symm.trans List.length_range.symm) r
      (List.mem_range.2 hr)
    obtain ⟨l, hlr⟩ := Matching.contains_iff.1 hall
    rwa [partner_eq hlr]
  have hm := h.matched_of_size hsize htotal
  have hcover : Covers al.partner al.right al.left (· < al.right.size) := by
    refine ⟨fun r hr => leaf_of_same hsame hm hr, fun r hr x => ?_,
      fun p c q _ he => h.right.forest.target_lt _ _ _ he⟩
    cases hright : (al.right.state r).transitions.step? x with
    | some next =>
      obtain ⟨c, hx, he⟩ := Transitions.exists_of_step? hright
      obtain ⟨l, he', hl⟩ := hm.edge_left h he
      rw [Option.map_some, partner_eq hl]
      exact h.left.forest.step?_iff.2 ⟨c, hx, he'⟩
    | none =>
      refine Transitions.step?_eq_none_iff.2 fun c n he hx => ?_
      obtain ⟨r', -, hnr⟩ := hm.onto (h.left.forest.target_lt _ _ _ he)
      rw [h.step?_of_paired (htotal r hr) he hx hnr] at hright
      cases hright
  have hroot : al.partner 0 = 0 := partner_eq h.corr.root
  rw [accepts, accepts, ← hcover.acceptsFrom_eq h.right.size_pos, hroot]

theorem same_of_accepts (hleft : ∀ l, al.left.Reaches 0 l → al.left.Productive l)
    (hright : ∀ r, al.right.Reaches 0 r → al.right.Productive r)
    (heq : ∀ w, al.left.accepts w = al.right.accepts w) : al.same = true := by
  have hpaired : ∀ r, r < al.right.size →
      al.Paired (al.partner r) r ∧ ∀ w, al.right.acceptsFrom r w = al.left.acceptsFrom (al.partner r) w := by
    intro r hr
    obtain ⟨l, hlr, hw⟩ := h.corr.swap.partner_of_reaches h.right.forest hright
      (fun r l hlr => (h.settled l r hlr).swap) (fun w => (heq w).symm) (h.right.full rfl r hr)
    have hp := partner_eq hlr
    rw [hp]
    exact ⟨hlr, hw⟩
  have hm := h.matched_of_partners (fun r hr => (hpaired r hr).1) fun l hl => by
    obtain ⟨r, hlr, -⟩ := h.corr.partner_of_reaches h.left.forest hleft h.settled heq
      (h.left.full rfl l hl)
    exact ⟨r, hlr⟩
  have hleaf : ∀ r, r < al.right.size →
      (al.right.state r).leaf = (al.left.state (al.partner r)).leaf := by
    intro r hr
    refine leaf_eq_of_completes h.right.forest.toProper h.left.forest.toProper fun x => ?_
    have := (hpaired r hr).2 [x]
    rwa [acceptsFrom_singleton, acceptsFrom_singleton] at this
  refine same_iff.2 ⟨?_, ?_, ?_, ?_, fun r hr leaf hr' => ⟨_, hm.total r hr, by rw [← hleaf r hr, hr']⟩⟩
  · simpa using hm.perm.length_eq.symm
  · rw [hm.countP_left, countP_states]
    refine List.countP_congr fun r hr => ?_
    rw [hleaf r (List.mem_range.1 hr)]
  · rw [hm.countP_left, countP_states]
    refine List.countP_congr fun r hr => ?_
    rw [hm.isEmpty_transitions h (List.mem_range.1 hr)]
  · rw [h.size_pairs, List.countP_eq_length.2, List.length_range]
    exact fun r hr => Matching.contains_iff.2 ⟨_, hm.total r (List.mem_range.1 hr)⟩

end Comparable
end Alignment

namespace CharSet

open Automaton

variable {a b : CharSet}

theorem equals_eq (he : a.encoding = b.encoding) : a.equals b = .ok (a.align b).same := by
  rw [equals, sameEncoding_of_eq he]
  rfl

theorem isEmpty_iff (ha : a.WellFormed) : a.isEmpty = true ↔ ∀ w, a.accepts w = false := by
  refine ⟨accepts_of_isEmpty, fun hnone => ?_⟩
  by_contra hne
  have hpos := size_pos_iff.2 (Bool.not_eq_true _ ▸ hne)
  obtain ⟨w, hw⟩ := ha.states.productive_iff.1 (ha.states.productive 0 hpos)
  rw [← Automaton.accepts, ← accepts, hnone] at hw
  cases hw

theorem isEmpty_toTree (ha : a.WellFormed) : a.toTree.states.isEmpty = a.isEmpty := by
  obtain ⟨-, -, -, hsize, -⟩ := toTree_spec ha
  have hiff : a.toTree.isEmpty = false ↔ a.isEmpty = false := by
    rw [← size_pos_iff, hsize, size_pos_iff]
  rw [← Bool.not_eq_true, ← Bool.not_eq_true] at hiff
  exact Bool.eq_iff_iff.2 (not_iff_not.1 hiff)

/-- An empty set has the same shape as an empty set only. -/
theorem same_align_of_isEmpty (ha : a.WellFormed) (hb : b.WellFormed)
    (hempty : a.isEmpty = true ∨ b.isEmpty = true) :
    (a.align b).same = true ↔ a.isEmpty = b.isEmpty := by
  rw [← isEmpty_toTree ha, ← isEmpty_toTree hb] at *
  have halign : a.align b = ⟨a.toTree.states, b.toTree.states, ∅, [], false, false⟩ := by
    rw [align, Automaton.align, if_pos]
    · rw [if_pos (by simpa using hempty)]
    · rcases hempty with hempty | hempty <;> simp [Array.isEmpty_iff.1 hempty]
  rw [halign]
  constructor
  · intro hsame
    have hsize := (Alignment.Comparable.same_iff.1 hsame).1
    rw [Bool.eq_iff_iff, Array.isEmpty_iff_size_eq_zero, Array.isEmpty_iff_size_eq_zero]
    exact iff_of_eq (congrArg (· = 0) hsize)
  · intro heq
    have hboth : a.toTree.states = #[] ∧ b.toTree.states = #[] := by
      rw [← Array.isEmpty_iff, ← Array.isEmpty_iff]
      rcases hempty with hempty | hempty
      · exact ⟨hempty, heq ▸ hempty⟩
      · exact ⟨heq ▸ hempty, hempty⟩
    rw [hboth.1, hboth.2]
    rfl

/-- A set that is not empty has the same shape as another such set, once they are aligned, if they
accept the same. -/
theorem same_align_iff (ha : a.WellFormed) (hb : b.WellFormed) (hapos : a.isEmpty = false)
    (hbpos : b.isEmpty = false) : (a.align b).same = true ↔ ∀ w, a.accepts w = b.accepts w := by
  obtain ⟨-, hawf, -, hasize, -⟩ := toTree_spec ha
  obtain ⟨-, hbwf, -, hbsize, -⟩ := toTree_spec hb
  obtain ⟨-, haligned⟩ := align_spec ha hb hapos hbpos
  have haccepts := accepts_align ha hb hapos hbpos
  have hiff : (∀ w, a.accepts w = b.accepts w) ↔
      ∀ w, (a.align b).left.accepts w = (a.align b).right.accepts w :=
    forall_congr' fun w => by rw [(haccepts w).1, (haccepts w).2]
  rw [hiff]
  exact ⟨fun hsame => haligned.accepts_of_same hsame, haligned.same_of_accepts
    (fun l => haligned.left.productive hawf (hasize.2 (size_pos_iff.2 hapos)))
    fun r => haligned.right.productive hbwf (hbsize.2 (size_pos_iff.2 hbpos))⟩

/-- Whether two well-formed sets with the same encoding are equal is answered, and they are equal if
and only if they accept the same. -/
theorem equals_iff (ha : a.WellFormed) (hb : b.WellFormed) (he : a.encoding = b.encoding) :
    ∃ same, a.equals b = .ok same ∧ (same = true ↔ ∀ w, a.accepts w = b.accepts w) ∧
      AlignEnds a b := by
  refine ⟨_, equals_eq he, ?_, alignEnds ha hb⟩
  cases hapos : a.isEmpty with
  | true =>
    have hnone := accepts_of_isEmpty hapos
    rw [same_align_of_isEmpty ha hb (.inl hapos), hapos, eq_comm, isEmpty_iff hb]
    exact forall_congr' fun w => by rw [hnone, eq_comm]
  | false =>
    cases hbpos : b.isEmpty with
    | true =>
      have hnone := accepts_of_isEmpty hbpos
      rw [same_align_of_isEmpty ha hb (.inr hbpos), hbpos, isEmpty_iff ha]
      exact forall_congr' fun w => by rw [hnone]
    | false => exact same_align_iff ha hb hapos hbpos

/-- The characters of `shortTree`, with a label and a leaf that are split differently. -/
def splitTree : CharSet where
  encoding := .utf8
  states := #[
    ⟨.ofList [(.interval 0xC5 0xC5, 1), (.interval 0xE0 0xE0, 3), (.interval 0xC3 0xC4, 2)],
      some (.interval 0x41 0x5A)⟩,
    ⟨∅, some (.interval 0x80 0xBF)⟩,
    ⟨∅, some (.interval 0x80 0xBF)⟩,
    ⟨.ofList [(.interval 0xA0 0xA7, 4), (.interval 0xA8 0xBF, 5)], none⟩,
    ⟨∅, some (.interval 0x80 0xBF)⟩,
    ⟨∅, some (.interval 0x80 0xBF)⟩]
  form := .tree

theorem wellFormed_splitTree : splitTree.WellFormed where
  states := .of_ascending (by decide +kernel) (by decide +kernel) (by decide +kernel)
    (by decide +kernel) (by decide +kernel)
  tree _ := WellFormed.isTree (.of_ascending (by decide +kernel) (by decide +kernel)
    (by decide +kernel) (by decide +kernel) (by decide +kernel)) (by decide +kernel)

theorem equals_iff_short :
    shortTree.WellFormed ∧ splitTree.WellFormed ∧ shortTree.encoding = splitTree.encoding ∧
    ∃ same, shortTree.equals splitTree = .ok same ∧
      (same = true ↔ ∀ w, shortTree.accepts w = splitTree.accepts w) ∧
      AlignEnds shortTree splitTree :=
  ⟨wellFormed_shortTree, wellFormed_splitTree, rfl,
    equals_iff wellFormed_shortTree wellFormed_splitTree rfl⟩

end CharSet
end ByteMatch
