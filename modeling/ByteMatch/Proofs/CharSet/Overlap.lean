import ByteMatch.CharSet.Algebra
import ByteMatch.Proofs.Automaton.Aligned

/-!
# ByteMatch.Proofs.CharSet.Overlap

Intersection and difference of two comparable trees: the left tree with other leaves.

* `Alignment.Comparable.acceptsFrom_of_completes`: if the leaves of corresponding states are combined
  byte by byte then so is what is accepted.
* `Alignment.Comparable.accepts_intersected`, `Alignment.Comparable.accepts_subtracted`.
-/

namespace ByteMatch
namespace Alignment

open Automaton

variable {al : Alignment} {left₀ right₀ : Automaton} {leftHoles rightHoles : Bool} {l r : Nat}
  {x : UInt8} {w : List UInt8}

/-! ## Steps of corresponding states -/

namespace Comparable

variable (h : Comparable left₀ right₀ leftHoles rightHoles al)
include h

/-- The destination of a transition has a partner only if the right state has a transition for the
same bytes, to that partner. -/
theorem step?_of_paired {c : ByteSet} {next r' : Nat} (hlr : al.Paired l r)
    (he : al.left.Edge l c next) (hx : x ∈ c) (hnext : al.Paired next r') :
    (al.right.state r).transitions.step? x = some r' := by
  obtain ⟨p', he', hp'⟩ := h.corr.parent_of_edge h.left.forest hnext he
  obtain rfl := h.corr.right_unique _ _ _ hlr hp'
  exact h.right.forest.step?_iff.2 ⟨c, hx, he'⟩

theorem step?_of_unpaired {c : ByteSet} {next : Nat} (hlr : al.Paired l r)
    (he : al.left.Edge l c next) (hx : x ∈ c) (hnext : ∀ r', ¬ al.Paired next r') :
    (al.right.state r).transitions.step? x = none := by
  refine Transitions.step?_eq_none_iff.2 fun c' next' he' hx' => ?_
  rcases h.settled l r hlr c next he c' next' he' with ⟨-, hR⟩ | hdisj
  · exact hnext next' hR
  · exact hdisj x hx hx'

theorem unpaired_of_edge {c : ByteSet} {next : Nat} (hl : ∀ r, ¬ al.Paired l r)
    (he : al.left.Edge l c next) (r : Nat) : ¬ al.Paired next r := by
  intro hnext
  obtain ⟨p', -, hp'⟩ := h.corr.parent_of_edge h.left.forest hnext he
  exact hl p' hp'

/-- The left tree with leaves that combine those of corresponding states accepts what the trees
accept, combined in the same way. -/
theorem acceptsFrom_of_completes {b : Automaton} (op : Bool → Bool → Bool)
    (hop : ∀ y, op false y = false)
    (hsteps : ∀ l, (b.state l).transitions = (al.left.state l).transitions)
    (hpaired : ∀ l r x, al.Paired l r →
      (b.state l).completes x = op ((al.left.state l).completes x) ((al.right.state r).completes x))
    (hunpaired : ∀ l x, (∀ r, ¬ al.Paired l r) →
      (b.state l).completes x = op ((al.left.state l).completes x) false) :
    (∀ r, al.Paired l r →
      b.acceptsFrom l w = op (al.left.acceptsFrom l w) (al.right.acceptsFrom r w)) ∧
    ((∀ r, ¬ al.Paired l r) → b.acceptsFrom l w = op (al.left.acceptsFrom l w) false) := by
  induction w generalizing l with
  | nil => simp [acceptsFrom, hop]
  | cons x w ih =>
    cases w with
    | nil =>
      simp only [acceptsFrom_singleton]
      exact ⟨fun r hlr => hpaired l r x hlr, fun hl => hunpaired l x hl⟩
    | cons y w =>
      simp only [acceptsFrom_cons (List.cons_ne_nil y w), hsteps l]
      cases hstep : (al.left.state l).transitions.step? x with
      | none => simp [hop]
      | some next =>
        obtain ⟨c, hx, he⟩ := Transitions.exists_of_step? hstep
        refine ⟨fun r hlr => ?_, fun hl => (ih (l := next)).2 (h.unpaired_of_edge hl he)⟩
        by_cases hnext : ∃ r', al.Paired next r'
        · obtain ⟨r', hr'⟩ := hnext
          rw [h.step?_of_paired hlr he hx hr']
          exact (ih (l := next)).1 r' hr'
        · have hnone : ∀ r', ¬ al.Paired next r' := fun r' hr' => hnext ⟨r', hr'⟩
          rw [h.step?_of_unpaired hlr he hx hnone]
          exact (ih (l := next)).2 hnone

end Comparable

/-! ## Leaves -/

/-- The leaf that two leaves have in common. -/
def meet (leafL leafR : Option ByteSet) : Option ByteSet :=
  match leafL, leafR with
  | some x, some y => if (x ∩ y).isEmpty then none else some (x ∩ y)
  | _, _ => none

/-- What is left of a leaf. -/
def minus (leafL leafR : Option ByteSet) : Option ByteSet :=
  match leafR with
  | some y => (leafL.map (· \ y)).filter (!·.isEmpty)
  | none => leafL

theorem any_contains_filter (leaf : ByteSet) :
    ((some leaf).filter (!·.isEmpty)).any (·.contains x) = leaf.contains x := by
  rw [Option.filter_some]
  split
  · rfl
  · rename_i hempty
    rw [Bool.not_eq_true', Bool.not_eq_false] at hempty
    have hx : leaf.contains x = false := by
      rw [← Bool.not_eq_true]
      exact ByteSet.isEmpty_iff.1 hempty x
    rw [hx]
    rfl

theorem nonempty_of_filter {o : Option ByteSet} {leaf : ByteSet}
    (h : o.filter (!·.isEmpty) = some leaf) : ∃ x, x ∈ leaf := by
  have := (Option.filter_eq_some_iff.1 h).2
  rwa [Bool.not_eq_true', ByteSet.isEmpty_eq_false_iff] at this

theorem meet_eq_filter (y z : ByteSet) :
    meet (some y) (some z) = (some (y ∩ z)).filter (!·.isEmpty) := by
  rw [Option.filter_some, meet]
  cases (y ∩ z).isEmpty <;> rfl

theorem any_contains_meet (leafL leafR : Option ByteSet) :
    (meet leafL leafR).any (·.contains x) =
      (leafL.any (·.contains x) && leafR.any (·.contains x)) := by
  cases leafL with
  | none => rfl
  | some y =>
    cases leafR with
    | none => simp [meet]
    | some z =>
      rw [meet_eq_filter, any_contains_filter, Option.any_some, Option.any_some, Bool.eq_iff_iff,
        Bool.and_eq_true]
      exact ByteSet.mem_inter

theorem any_contains_minus (leafL leafR : Option ByteSet) :
    (minus leafL leafR).any (·.contains x) =
      (leafL.any (·.contains x) && !leafR.any (·.contains x)) := by
  cases leafR with
  | none => simp [minus]
  | some z =>
    cases leafL with
    | none => rfl
    | some y =>
      rw [minus, Option.map_some, any_contains_filter, Option.any_some, Option.any_some,
        Bool.eq_iff_iff, Bool.and_eq_true, Bool.not_eq_true', ← Bool.not_eq_true]
      exact ByteSet.mem_sdiff

namespace Comparable

variable (h : Comparable left₀ right₀ leftHoles rightHoles al)
include h

/-- A value for each left state, some of which have changed: those of the states whose partners are
below `i`. -/
structure Visited (al : Alignment) (before : Nat → Option ByteSet)
    (after : Nat → Nat → Option ByteSet) (i : Nat) (value : Nat → Option ByteSet) : Prop where
  paired : ∀ l r, al.Paired l r → value l = if r < i then after l r else before l
  unpaired : ∀ l, (∀ r, ¬ al.Paired l r) → value l = before l

omit h in
theorem Visited.start {before : Nat → Option ByteSet} {after : Nat → Nat → Option ByteSet} :
    Visited al before after 0 before := ⟨fun _ _ _ => rfl, fun _ _ => rfl⟩

theorem visit {before value value' : Nat → Option ByteSet} {after : Nat → Nat → Option ByteSet}
    {q : Nat} (hv : Visited al before after q value)
    (hhere : ∀ l, al.Paired l q → value l = before l → value' l = after l q)
    (helse : ∀ l, ¬ al.Paired l q → value' l = value l) :
    Visited al before after (q + 1) value' := by
  refine ⟨fun l r hlr => ?_, fun l hl => ?_⟩
  · by_cases hlq : al.Paired l q
    · obtain rfl := h.corr.right_unique _ _ _ hlq hlr
      have hbefore := hv.paired l q hlq
      rw [if_neg (Nat.lt_irrefl q)] at hbefore
      rw [if_pos (Nat.lt_succ_self q), hhere l hlq hbefore]
    · have hrq : r ≠ q := fun heq => hlq (heq ▸ hlr)
      rw [helse l hlq, hv.paired l r hlr]
      by_cases hr : r < q
      · rw [if_pos hr, if_pos (by omega)]
      · rw [if_neg hr, if_neg (by omega)]
  · rw [helse l (hl q), hv.unpaired l hl]

theorem visited_all {before value : Nat → Option ByteSet} {after : Nat → Nat → Option ByteSet}
    (hv : Visited al before after al.right.size value) (hlr : al.Paired l r) :
    value l = after l r := by
  rw [hv.paired l r hlr, if_pos (h.right.lt (h.corr.reached l r hlr).2)]

/-! ## Intersection -/

omit h in
theorem shareLeaf_of_paired {leaves : Array (Option ByteSet)} {s : State} (hlr : al.Paired l r) :
    al.shareLeaf leaves s r = match meet (al.left.state l).leaf s.leaf with
      | some common => leaves.setIfInBounds l (some common)
      | none => leaves := by
  rw [Paired] at hlr
  rw [shareLeaf, hlr]
  cases s.leaf with
  | none => cases (al.left.state l).leaf <;> rfl
  | some leafR =>
    cases hleaf : (al.left.state l).leaf with
    | none => simp only [hleaf, meet]
    | some leafL =>
      simp only [hleaf, meet]
      cases (leafL ∩ leafR).isEmpty <;> rfl

omit h in
theorem shareLeaf_of_unpaired {leaves : Array (Option ByteSet)} {s : State}
    (hr : ∀ l, ¬ al.Paired l r) : al.shareLeaf leaves s r = leaves := by
  have hnone : al.pairs.get? r = none := Option.eq_none_iff_forall_ne_some.2 hr
  rw [shareLeaf, hnone]
  cases s.leaf <;> rfl

/-- The table of common leaves after the right states below `i` have been met. -/
def Sharing (al : Alignment) (i : Nat) (leaves : Array (Option ByteSet)) : Prop :=
  leaves.size = al.left.size ∧
    Visited al (fun _ => none) (fun l r => meet (al.left.state l).leaf (al.right.state r).leaf) i
      (fun l => leaves.getD l none)

theorem share {leaves : Array (Option ByteSet)} {q : Nat} (hs : Sharing al q leaves) :
    Sharing al (q + 1) (al.shareLeaf leaves (al.right.state q) q) := by
  obtain ⟨hsize, hv⟩ := hs
  by_cases hq : ∃ l, al.Paired l q
  · obtain ⟨l, hlq⟩ := hq
    have hl : l < leaves.size := by
      rw [hsize]
      exact h.left.lt (h.corr.reached l q hlq).1
    rw [shareLeaf_of_paired hlq]
    cases hm : meet (al.left.state l).leaf (al.right.state q).leaf with
    | none =>
      refine ⟨hsize, h.visit hv (fun x hx hbefore => ?_) fun _ _ => rfl⟩
      obtain rfl := h.corr.left_unique _ _ _ hx hlq
      rw [hbefore, hm]
    | some common =>
      refine ⟨by rw [Array.size_setIfInBounds, hsize], h.visit hv (fun x hx _ => ?_) fun x hx => ?_⟩
      · obtain rfl := h.corr.left_unique _ _ _ hx hlq
        rw [hm, Array.getD_eq_getD_getElem?, Array.getElem?_setIfInBounds, if_pos rfl, if_pos hl,
          Option.getD_some]
      · have hne : l ≠ x := fun heq => hx (heq ▸ hlq)
        rw [Array.getD_eq_getD_getElem?, Array.getElem?_setIfInBounds, if_neg hne,
          Array.getD_eq_getD_getElem?]
  · have hnone : ∀ l, ¬ al.Paired l q := fun l hl => hq ⟨l, hl⟩
    rw [shareLeaf_of_unpaired hnone]
    exact ⟨hsize, h.visit hv (fun x hx => absurd hx (hnone x)) fun _ _ => rfl⟩

theorem sharing_commonLeaves : Sharing al al.right.size al.commonLeaves := by
  have hinit : Sharing al 0 (Array.replicate al.left.size none) := by
    refine ⟨by simp, fun l r _ => ?_, fun l _ => ?_⟩ <;>
      simp only [Array.getD_eq_getD_getElem?, Array.getElem?_replicate] <;> split <;> rfl
  exact foldl_states (Sharing al) (fun q leaves _ hs => h.share hs) hinit

omit h in
theorem size_intersected : al.intersected.size = al.left.size := by
  rw [intersected, Array.size_mapIdx]

omit h in
theorem state_intersected : al.intersected.state l = if l < al.left.size then
    { al.left.state l with leaf := al.commonLeaves.getD l none } else State.hole := by
  split
  · rename_i hl
    rw [intersected, state_eq_getD, Array.getElem?_mapIdx, Array.getElem?_eq_getElem hl,
      state_of_lt hl]
    rfl
  · rename_i hl
    exact state_of_ge (by rw [size_intersected]; exact Nat.le_of_not_lt hl)

omit h in
theorem transitions_intersected :
    (al.intersected.state l).transitions = (al.left.state l).transitions := by
  rw [state_intersected]
  split
  · rfl
  · rename_i hl
    rw [state_of_ge (Nat.le_of_not_lt hl)]

theorem forest_intersected (hfull : ∀ q, q < al.left.size → al.left.Reaches 0 q) :
    al.intersected.Forest [0] ∧ ∀ q, q < al.intersected.size → al.intersected.Reaches 0 q := by
  obtain ⟨-, hv⟩ := h.sharing_commonLeaves
  refine h.left.forest.of_transitions hfull size_intersected (fun _ => transitions_intersected) ?_
  intro l leaf hleaf
  rw [state_intersected] at hleaf
  split at hleaf
  · by_cases hl : ∃ r, al.Paired l r
    · obtain ⟨r, hlr⟩ := hl
      replace hleaf : al.commonLeaves.getD l none = some leaf := hleaf
      rw [h.visited_all hv hlr] at hleaf
      cases hL : (al.left.state l).leaf with
      | none => simp [hL, meet] at hleaf
      | some y =>
        cases hR : (al.right.state r).leaf with
        | none => simp [hL, hR, meet] at hleaf
        | some z =>
          rw [hL, hR, meet_eq_filter] at hleaf
          exact nonempty_of_filter hleaf
    · have hnone := hv.unpaired l fun r hlr => hl ⟨r, hlr⟩
      replace hleaf : al.commonLeaves.getD l none = some leaf := hleaf
      rw [hnone] at hleaf
      cases hleaf
  · cases hleaf

theorem accepts_intersected (w : List UInt8) :
    al.intersected.accepts w = (al.left.accepts w && al.right.accepts w) := by
  obtain ⟨-, hv⟩ := h.sharing_commonLeaves
  refine (h.acceptsFrom_of_completes and (fun _ => rfl) (fun _ => transitions_intersected) ?_ ?_).1
    0 h.corr.root
  · intro l r x hlr
    rw [state_intersected, if_pos (h.left.lt (h.corr.reached l r hlr).1), State.completes,
      h.visited_all hv hlr, any_contains_meet]
    rfl
  · intro l x hl
    rw [state_intersected, Bool.and_false]
    split
    · rw [State.completes, hv.unpaired l hl]
      rfl
    · rfl

/-! ## Difference -/

/-- The left tree after the leaves of the right states below `i` have been taken away. -/
def Subtracting (al : Alignment) (i : Nat) (b : Automaton) : Prop :=
  b.size = al.left.size ∧ (∀ l, (b.state l).transitions = (al.left.state l).transitions) ∧
    Visited al (fun l => (al.left.state l).leaf)
      (fun l r => minus (al.left.state l).leaf (al.right.state r).leaf) i
      (fun l => (b.state l).leaf)

omit h in
theorem subtractLeaf_of_paired {b : Automaton} {s : State} (hlr : al.Paired l r)
    (hl : l < b.size) {x : Nat} : (subtractLeaf al.pairs b s r).state x =
      if x = l then { b.state l with leaf := minus (b.state l).leaf s.leaf } else b.state x := by
  rw [Paired] at hlr
  rw [subtractLeaf, hlr]
  by_cases hx : x = l
  · subst hx
    rw [if_pos rfl]
    cases s.leaf with
    | none => rfl
    | some leafR =>
      simp only [state_modify_self hl]
      rfl
  · rw [if_neg hx]
    cases s.leaf with
    | none => rfl
    | some leafR => simp only [state_modify_ne (Ne.symm hx)]

omit h in
theorem size_subtractLeaf {b : Automaton} {s : State} :
    (subtractLeaf al.pairs b s r).size = b.size := by
  rw [subtractLeaf]
  split
  · rw [Array.size_modify]
  · rfl

omit h in
theorem subtractLeaf_of_unpaired {b : Automaton} {s : State} (hr : ∀ l, ¬ al.Paired l r) :
    subtractLeaf al.pairs b s r = b := by
  have hnone : al.pairs.get? r = none := Option.eq_none_iff_forall_ne_some.2 hr
  rw [subtractLeaf, hnone]
  cases s.leaf <;> rfl

theorem subtract {b : Automaton} {q : Nat} (hs : Subtracting al q b) :
    Subtracting al (q + 1) (subtractLeaf al.pairs b (al.right.state q) q) := by
  obtain ⟨hsize, htrans, hv⟩ := hs
  by_cases hq : ∃ l, al.Paired l q
  · obtain ⟨l, hlq⟩ := hq
    have hl : l < b.size := by
      rw [hsize]
      exact h.left.lt (h.corr.reached l q hlq).1
    refine ⟨by rw [size_subtractLeaf, hsize], fun x => ?_, h.visit hv (fun x hx hbefore => ?_) fun x hx => ?_⟩
    · rw [subtractLeaf_of_paired hlq hl]
      split
      · rename_i hx
        rw [hx, htrans]
      · exact htrans x
    · obtain rfl := h.corr.left_unique _ _ _ hx hlq
      rw [subtractLeaf_of_paired hx hl, if_pos rfl, hbefore]
    · have hne : x ≠ l := fun heq => hx (heq ▸ hlq)
      rw [subtractLeaf_of_paired hlq hl, if_neg hne]
  · have hnone : ∀ l, ¬ al.Paired l q := fun l hl => hq ⟨l, hl⟩
    rw [subtractLeaf_of_unpaired hnone]
    exact ⟨hsize, htrans, h.visit hv (fun x hx => absurd hx (hnone x)) fun _ _ => rfl⟩

theorem subtracting_subtracted : Subtracting al al.right.size al.subtracted :=
  foldl_states (Subtracting al) (fun _ _ _ hs => h.subtract hs) ⟨rfl, fun _ => rfl, .start⟩

theorem forest_subtracted (hfull : ∀ q, q < al.left.size → al.left.Reaches 0 q) :
    al.subtracted.Forest [0] ∧ ∀ q, q < al.subtracted.size → al.subtracted.Reaches 0 q := by
  obtain ⟨hsize, htrans, hv⟩ := h.subtracting_subtracted
  refine h.left.forest.of_transitions hfull hsize htrans fun l leaf hleaf => ?_
  by_cases hl : ∃ r, al.Paired l r
  · obtain ⟨r, hlr⟩ := hl
    rw [h.visited_all hv hlr] at hleaf
    cases hR : (al.right.state r).leaf with
    | none =>
      rw [hR] at hleaf
      exact h.left.forest.leaf_nonempty l leaf hleaf
    | some z =>
      rw [hR] at hleaf
      exact nonempty_of_filter hleaf
  · rw [hv.unpaired l fun r hlr => hl ⟨r, hlr⟩] at hleaf
    exact h.left.forest.leaf_nonempty l leaf hleaf

theorem accepts_subtracted (w : List UInt8) :
    al.subtracted.accepts w = (al.left.accepts w && !al.right.accepts w) := by
  obtain ⟨-, htrans, hv⟩ := h.subtracting_subtracted
  refine (h.acceptsFrom_of_completes (fun x y => x && !y) (fun _ => rfl) htrans ?_ ?_).1 0
    h.corr.root
  · intro l r x hlr
    rw [State.completes, h.visited_all hv hlr, any_contains_minus]
    rfl
  · intro l x hl
    rw [State.completes, hv.unpaired l hl]
    simp [State.completes]

end Comparable
end Alignment
end ByteMatch
