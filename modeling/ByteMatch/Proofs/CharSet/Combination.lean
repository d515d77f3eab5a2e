import ByteMatch.Proofs.CharSet.Algebra
import ByteMatch.Proofs.CharSet.Build

/-!
# ByteMatch.Proofs.CharSet.Combination

Combining well-formed sets makes well-formed trees.

* `Alignment.forest_united`: the union of comparable trees is a tree. A transition that it gains leads
  to a fresh state, and each fresh state stands for a state of the right tree.
* `Automaton.wellFormed_compact_trim`: what is left of a tree without the states that reach no leaf.
* `CharSet.wellFormed_union`, `CharSet.wellFormed_intersect`, `CharSet.wellFormed_difference`.
* `CharSet.accepts_union`, `CharSet.accepts_intersect`, `CharSet.accepts_difference`.
* `CharSet.ofCased_induction`: the other cases of a character are added to it one by one.
-/

namespace ByteMatch
namespace Alignment

open Automaton

variable {al whole : Alignment} {left₀ right₀ : Automaton} {leftHoles rightHoles : Bool}
  {i l r n q : Nat} {c : ByteSet} {x : UInt8} {w : List UInt8} {u : Automaton}

/-! ## Unions -/

/-- Every fresh state is the partner of some state. -/
theorem adopt_onto (al : Alignment) : al.left.size ≤ al.adopt.left.size ∧
    ∀ q, al.left.size ≤ q → q < al.adopt.left.size → ∃ r, al.adopt.Paired q r := by
  refine foldl_states (a := al.right) (fun _ (whole : Alignment) => al.left.size ≤ whole.left.size ∧
    ∀ q, al.left.size ≤ q → q < whole.left.size → ∃ r, whole.Paired q r) ?_
    ⟨Nat.le_refl _, fun q hge hlt => by omega⟩
  intro i whole _ hinv
  obtain ⟨hsize, honto⟩ := hinv
  dsimp only
  rw [adoptState]
  split
  · exact ⟨hsize, honto⟩
  · rename_i hnew
    have hcontains : whole.pairs.contains i = false := by
      simp only [Bool.or_eq_true, not_or, Bool.not_eq_true] at hnew
      exact hnew.2
    refine ⟨by simp only [Array.size_push]; omega, fun q hge hlt => ?_⟩
    simp only [Array.size_push] at hlt
    by_cases hq : q = whole.left.size
    · exact ⟨i, by simp [Paired, Matching.get?_insert, hq]⟩
    · obtain ⟨r, hr⟩ := honto q hge (by omega)
      refine ⟨r, ?_⟩
      have hne : r ≠ i := by
        intro heq
        subst heq
        have := Matching.contains_iff.2 ⟨q, hr⟩
        rw [hcontains] at this
        cases this
      simp only [Paired, Matching.get?_insert, if_neg hne]
      exact hr

theorem leaf_graftTransition {pairs : Matching} {old next : Nat} {left : Automaton} :
    ((graftTransition pairs old l left c next).state q).leaf = (left.state q).leaf := by
  rw [graftTransition]
  split
  · split
    · exact leaf_addTransition
    · rfl
  · rfl

/-- Grafting only adds bytes to leaves. -/
theorem leaf_united (hleft : ∀ q leaf, (al.adopt.left.state q).leaf = some leaf → ∃ x, x ∈ leaf)
    (hright : ∀ q leaf, (al.adopt.right.state q).leaf = some leaf → ∃ x, x ∈ leaf) :
    ∀ q leaf, (al.united.state q).leaf = some leaf → ∃ x, x ∈ leaf := by
  refine foldl_states (a := al.adopt.right)
    (fun _ (u : Automaton) => ∀ q leaf, (u.state q).leaf = some leaf → ∃ x, x ∈ leaf) ?_ hleft
  intro i u hi hinv
  dsimp only
  rw [graft]
  cases hpair : al.adopt.pairs.get? i with
  | none => exact hinv
  | some l =>
    have htransitions : ∀ q leaf, (((al.adopt.right.state i).transitions.entries.foldl
        (fun left e => graftTransition al.adopt.pairs al.left.size l left e.1 e.2) u).state q).leaf =
          some leaf → ∃ x, x ∈ leaf := by
      generalize (al.adopt.right.state i).transitions.entries = entries
      induction entries generalizing u with
      | nil => exact hinv
      | cons e entries ih =>
        refine ih _ fun q leaf hleaf => hinv q leaf ?_
        rw [← hleaf]
        exact leaf_graftTransition.symm
    cases hleaf : (al.adopt.right.state i).leaf with
    | none => exact htransitions
    | some leaf => exact fun q leaf' => leaf_addLeaf (hright i leaf hleaf) htransitions

section United

variable (h : Comparable left₀ right₀ leftHoles rightHoles al)
  (ha : Adopting al al.right.size al.adopt)
include h ha

/-- A transition that is new leads to a fresh state. -/
theorem edge_united_iff : al.united.Edge l c n ↔ al.left.Edge l c n ∨
    (al.left.size ≤ n ∧ ∃ r next, al.adopt.Paired l r ∧ al.right.Edge r c next ∧
      al.adopt.Paired n next) := by
  rw [edge_united h ha]
  refine or_congr_right ?_
  constructor
  · intro hnew
    obtain ⟨r, next, hlr, he, hn, hfresh⟩ := hnew
    refine ⟨?_, r, next, hlr, he, hn⟩
    by_contra hlt
    -- the partner of an old state has a parent with an old partner
    have hR := paired_of_lt ha hn (Nat.lt_of_not_le hlt)
    obtain ⟨p, hold, hp⟩ := h.corr.swap.parent_of_edge h.right.forest hR he
    obtain rfl := left_unique hlr (ha.old p r hp)
    have := lt_of_edge hold
    omega
  · intro hnew
    obtain ⟨hfresh, r, next, hlr, he, hn⟩ := hnew
    exact ⟨r, next, hlr, he, hn, .inr hfresh⟩

theorem size_united : al.united.size = al.adopt.left.size := (united_spec h ha).size

theorem parent_unique_united {p p' : Nat} {c' : ByteSet} (he : al.united.Edge p c q)
    (he' : al.united.Edge p' c' q) : p = p' ∧ c = c' := by
  cases (edge_united_iff h ha).1 he with
  | inl he =>
    cases (edge_united_iff h ha).1 he' with
    | inl he' => exact h.left.forest.parent_unique p c p' c' q he he'
    | inr he' => exact absurd (h.left.forest.target_lt p c q he) (Nat.not_lt_of_le he'.1)
  | inr he =>
    cases (edge_united_iff h ha).1 he' with
    | inl he' => exact absurd (h.left.forest.target_lt p' c' q he') (Nat.not_lt_of_le he.1)
    | inr he' =>
      obtain ⟨-, r, next, hp, hr, hq⟩ := he
      obtain ⟨-, r', next', hp', hr', hq'⟩ := he'
      obtain rfl := ha.right_unique q next next' hq hq'
      obtain ⟨rfl, rfl⟩ := h.right.forest.parent_unique r c r' c' next hr hr'
      exact ⟨left_unique hp hp', rfl⟩

/-- A fresh state stands for a state of the right tree. -/
theorem exists_partner (hge : al.left.size ≤ q) (hlt : q < al.adopt.left.size) :
    ∃ r, r < al.right.size ∧ al.adopt.Paired q r := by
  obtain ⟨r, hr⟩ := (adopt_onto al).2 q hge hlt
  cases ha.fresh q r hr with
  | inl hold => exact absurd (h.left.lt (h.corr.reached q r hold).1) (Nat.not_lt_of_le hge)
  | inr hfresh => exact ⟨r, hfresh.2.2.1, hr⟩

variable (hleft : ∀ q, q < al.left.size → al.left.Reaches 0 q)
include hleft

theorem reaches_united_of_left (hq : q < al.left.size) : al.united.Reaches 0 q :=
  (hleft q hq).mono_edge fun _ _ _ he => (edge_united_iff h ha).2 (.inl he)

/-- Each partner of a right state is reached on the path on which the right state is reached. -/
theorem reaches_united_of_paired (hlr : al.adopt.Paired l r) (hr : al.right.Reaches 0 r) :
    al.united.Reaches 0 l := by
  induction hr generalizing l with
  | refl =>
    obtain rfl := left_unique hlr (ha.old 0 0 h.corr.root)
    exact .refl
  | @tail p r hpath hchild ih =>
    obtain ⟨c, he⟩ := hchild
    obtain ⟨l', hl'⟩ := ha.total p (lt_of_edge he)
    by_cases hold : l < al.left.size
    · exact reaches_united_of_left h ha hleft hold
    · exact (ih hl').tail ⟨c, (edge_united_iff h ha).2
        (.inr ⟨Nat.le_of_not_lt hold, p, r, hl', he, hlr⟩)⟩

variable (hright : ∀ r, r < al.right.size → al.right.Reaches 0 r)
include hright

/-- The union of two trees is a tree. -/
theorem forest_united : al.united.Forest [0] where
  target_lt p c q he := by
    rw [size_united h ha]
    cases (edge_united_iff h ha).1 he with
    | inl he => exact Nat.lt_of_lt_of_le (h.left.forest.target_lt p c q he) ha.size_le
    | inr he =>
      obtain ⟨-, r, next, -, -, hq⟩ := he
      exact ha.lt_of_paired h hq
  label_nonempty p c q he := by
    cases (edge_united_iff h ha).1 he with
    | inl he => exact h.left.forest.label_nonempty p c q he
    | inr he =>
      obtain ⟨-, r, next, -, hr, -⟩ := he
      exact h.right.forest.label_nonempty r c next hr
  labels_disjoint p := labels_disjoint_united h ha
  leaf_nonempty := by
    refine leaf_united (fun q leaf hleaf => ?_) fun q leaf hleaf => ?_
    · rw [ha.state] at hleaf
      exact h.left.forest.leaf_nonempty q leaf hleaf
    · rw [ha.right] at hleaf
      exact h.right.forest.leaf_nonempty q leaf hleaf
  parent_unique p c p' c' q := parent_unique_united h ha
  root_orphan r hr p hchild := by
    obtain ⟨c, he⟩ := hchild
    rw [List.mem_singleton.1 hr] at he
    cases (edge_united_iff h ha).1 he with
    | inl he => exact h.left.forest.root_orphan 0 (by simp) p ⟨c, he⟩
    | inr he => exact absurd h.left.size_pos (Nat.not_lt_of_le he.1)
  root_lt r hr := by
    rw [List.mem_singleton.1 hr, size_united h ha]
    exact Nat.lt_of_lt_of_le h.left.size_pos ha.size_le
  live q hq _ := by
    refine ⟨0, by simp, ?_⟩
    rw [size_united h ha] at hq
    by_cases hold : q < al.left.size
    · exact reaches_united_of_left h ha hleft hold
    · obtain ⟨r, hr, hqr⟩ := exists_partner h ha (Nat.le_of_not_lt hold) hq
      exact reaches_united_of_paired h ha hleft hqr (hright r hr)

/-- Where the right tree leads to leaves, their union does, if each left state does so too or has a
partner. -/
theorem productive_united
    (hprod : ∀ q, q < al.left.size → al.left.Productive q ∨ ∃ r, al.Paired q r)
    (hprod' : ∀ r, r < al.right.size → al.right.Productive r) (hq : q < al.united.size) :
    al.united.Productive q := by
  rw [(forest_united h ha hleft hright).toProper.productive_iff]
  rw [size_united h ha] at hq
  have hpaired : ∀ r, r < al.right.size → al.adopt.Paired q r →
      ∃ w, al.united.acceptsFrom q w = true := by
    intro r hr hqr
    obtain ⟨w, hw⟩ := h.right.forest.toProper.productive_iff.1 (hprod' r hr)
    exact ⟨w, by rw [(acceptsFrom_united h ha).1 r hqr, hw, Bool.or_true]⟩
  by_cases hold : q < al.left.size
  · cases hprod q hold with
    | inl hleaf =>
      obtain ⟨w, hw⟩ := h.left.forest.toProper.productive_iff.1 hleaf
      refine ⟨w, ?_⟩
      by_cases hpair : ∃ r, al.adopt.Paired q r
      · obtain ⟨r, hr⟩ := hpair
        rw [(acceptsFrom_united h ha).1 r hr, hw, Bool.true_or]
      · rw [(acceptsFrom_united h ha).2 fun r hr => hpair ⟨r, hr⟩, hw]
    | inr hpair =>
      obtain ⟨r, hr⟩ := hpair
      exact hpaired r (h.right.lt (h.corr.reached q r hr).2) (ha.old q r hr)
  · obtain ⟨r, hr, hqr⟩ := exists_partner h ha (Nat.le_of_not_lt hold) hq
    exact hpaired r hr hqr

end United
end Alignment

/-! ## Trimmed trees -/

namespace Automaton

variable {a tree : Automaton} {p q : Nat}

theorem Trimming.forest (h : Trimming tree a) (hf : tree.Forest [0])
    (hfull : ∀ q, q < tree.size → tree.Reaches 0 q) : a.Forest [0] where
  target_lt p c q he := by
    rw [h.size]
    exact hf.target_lt p c q (h.edge p c q he)
  label_nonempty p c q he := hf.label_nonempty p c q (h.edge p c q he)
  labels_disjoint q e he e' he' :=
    hf.labels_disjoint q e (h.edge q e.1 e.2 he) e' (h.edge q e'.1 e'.2 he')
  leaf_nonempty q leaf hleaf := hf.leaf_nonempty q leaf (by rw [← h.leaf]; exact hleaf)
  parent_unique p c p' c' q he he' := hf.parent_unique p c p' c' q (h.edge p c q he) (h.edge p' c' q he')
  root_orphan r hr p hchild := hf.root_orphan r hr p (hchild.imp fun c => h.edge p c r)
  root_lt r hr := by
    rw [h.size]
    exact hf.root_lt r hr
  live q hq hlive := ⟨0, by simp, h.reaches hlive (hfull q (h.size ▸ hq))⟩

/-- A tree without the states that reach no leaf, and without the holes. -/
theorem wellFormed_compact_trim (hf : tree.dropEmptyLeaves.Forest [0])
    (hfull : ∀ q, q < tree.dropEmptyLeaves.size → tree.dropEmptyLeaves.Reaches 0 q) :
    tree.trim.compact.1.WellFormed ∧ tree.trim.compact.1.IsTree := by
  obtain ⟨-, h⟩ := trim_spec hf.treeWithHoles
  obtain ⟨⟨τ, hn⟩, -, hroot⟩ := compact_spec tree.trim fun p c q he => h.not_hole hf.treeWithHoles he
  have hforest := h.toTrimming.forest hf hfull
  have hreach : ∀ q, (tree.trim.state q).isHole = false → tree.trim.Reaches 0 q := fun q hq =>
    h.reaches hq (hfull q (h.size ▸ lt_of_not_isHole hq))
  cases hhole : (tree.trim.state 0).isHole with
  | true =>
    -- every path starts at the root, so that there are no other states
    refine wellFormed_of_size_zero (Nat.eq_zero_of_not_pos fun hpos => ?_)
    have hlive := hn.on_back 0 hpos
    cases (hreach (τ 0) hlive).cases_head with
    | inl heq =>
      rw [← heq, hhole] at hlive
      cases hlive
    | inr hstep =>
      obtain ⟨p, ⟨c, he⟩, -⟩ := hstep
      rw [not_isHole_of_edge he] at hhole
      cases hhole
  | false =>
    have hlive : (fun q => (tree.trim.state q).isHole = false) = tree.trim.Reaches 0 := by
      funext q
      refine propext ⟨hreach q, fun hq => ?_⟩
      cases hq.cases_tail with
      | inl heq => rw [heq, hhole]
      | inr hstep =>
        obtain ⟨p, -, c, he⟩ := hstep
        exact h.not_hole hf.treeWithHoles he
    rw [hlive] at hn
    have hforest' := hn.forest hforest (hroot hhole)
    have hprod : ∀ q, q < tree.trim.compact.1.size → tree.trim.compact.1.Productive q := by
      intro q hq
      have hτ := hn.on_back q hq
      refine hn.covers_back.productive hforest'.toProper hforest.toProper hq ?_
      exact productive_of_live hforest.acyclic hforest.target_lt (hforest.root_lt 0 (by simp))
        (fun q hq => by rw [← hlive] at hq; exact hq) hτ
    exact ⟨hforest'.wellFormed hprod, hforest'.isTree hprod⟩

end Automaton

namespace CharSet

open Automaton

variable {a b c : CharSet}

/-! ## Operations -/

theorem wellFormed_ofTrimmed {tree : Automaton} (hf : tree.Forest [0])
    (hfull : ∀ q, q < tree.size → tree.Reaches 0 q) : (a.ofTrimmed tree).WellFormed := by
  have hsame := dropEmptyLeaves_eq_self hf.leaf_nonempty
  obtain ⟨hwf, htree⟩ := wellFormed_compact_trim (hsame.symm ▸ hf) (hsame.symm ▸ hfull)
  exact ⟨hwf, fun _ => htree⟩

/-- Sets are combined only if they have the same encoding. -/
theorem encoding_of_ok {f : Unit → Except CharSetError CharSet}
    (h : (sameEncoding a b >>= f) = .ok c) : a.encoding = b.encoding := by
  rw [sameEncoding] at h
  split at h
  · assumption
  · cases h

variable (ha : a.WellFormed) (hb : b.WellFormed)
include ha hb

theorem wellFormed_united (hapos : a.isEmpty = false) (hbpos : b.isEmpty = false) :
    (a.align b).united.WellFormed ∧ (a.align b).united.IsTree := by
  obtain ⟨-, haligned⟩ := align_spec ha hb hapos hbpos
  obtain ⟨-, hawf, -, hasize, -⟩ := toTree_spec ha
  obtain ⟨-, hbwf, -, hbsize, -⟩ := toTree_spec hb
  have hadopt := Alignment.adopt_spec haligned (live_align ha hb hapos hbpos)
  have hleft := haligned.left.full rfl
  have hright := haligned.right.full rfl
  have hforest := Alignment.forest_united haligned hadopt hleft hright
  have hprod : ∀ q, q < (a.align b).united.size → (a.align b).united.Productive q := by
    intro q hq
    refine Alignment.productive_united haligned hadopt hleft hright (fun q hq => .inl ?_) (fun r hr => ?_) hq
    · exact haligned.left.productive hawf (hasize.2 (size_pos_iff.2 hapos)) (hleft q hq)
    · exact haligned.right.productive hbwf (hbsize.2 (size_pos_iff.2 hbpos)) (hright r hr)
  exact ⟨hforest.wellFormed hprod, hforest.isTree hprod⟩

theorem wellFormed_union (h : a.union b = .ok c) : c.WellFormed := by
  rw [union_eq (encoding_of_ok h)] at h
  cases h
  cases hapos : a.isEmpty with
  | true => exact hb
  | false =>
    cases hbpos : b.isEmpty with
    | true => exact ha
    | false =>
      obtain ⟨hwf, htree⟩ := wellFormed_united ha hb hapos hbpos
      exact ⟨hwf, fun _ => htree⟩

theorem wellFormed_intersect (h : a.intersect b = .ok c) : c.WellFormed := by
  have hempty := wellFormed_empty a.encoding
  rw [intersect_eq (encoding_of_ok h)] at h
  cases h
  cases hapos : a.isEmpty with
  | true => exact hempty
  | false =>
    cases hbpos : b.isEmpty with
    | true => exact hempty
    | false =>
      obtain ⟨-, haligned⟩ := align_spec ha hb hapos hbpos
      obtain ⟨hforest, hfull⟩ := haligned.forest_intersected (haligned.left.full rfl)
      exact wellFormed_ofTrimmed hforest hfull

theorem wellFormed_difference (h : a.difference b = .ok c) : c.WellFormed := by
  rw [difference_eq (encoding_of_ok h)] at h
  cases h
  cases hapos : a.isEmpty with
  | true => exact ha
  | false =>
    cases hbpos : b.isEmpty with
    | true => exact ha
    | false =>
      obtain ⟨-, haligned⟩ := align_spec ha hb hapos hbpos
      obtain ⟨hforest, hfull⟩ := haligned.forest_subtracted (haligned.left.full rfl)
      exact wellFormed_ofTrimmed hforest hfull

/-! ## What combinations accept -/

theorem accepts_union (h : a.union b = .ok c) (w : List UInt8) :
    c.accepts w = (a.accepts w || b.accepts w) := by
  rw [union_eq (encoding_of_ok h)] at h
  cases h
  cases hapos : a.isEmpty with
  | true => exact (congrArg (· || b.accepts w) (accepts_of_isEmpty hapos w)).symm
  | false =>
    cases hbpos : b.isEmpty with
    | true => rw [accepts_of_isEmpty hbpos, Bool.or_false]; rfl
    | false => exact (accepts_combined ha hb hapos hbpos w).1

theorem accepts_intersect (h : a.intersect b = .ok c) (w : List UInt8) :
    c.accepts w = (a.accepts w && b.accepts w) := by
  have hnone := accepts_empty a.encoding w
  rw [intersect_eq (encoding_of_ok h)] at h
  cases h
  cases hapos : a.isEmpty with
  | true => rw [accepts_of_isEmpty hapos]; exact hnone
  | false =>
    cases hbpos : b.isEmpty with
    | true => rw [accepts_of_isEmpty hbpos, Bool.and_false]; exact hnone
    | false => exact (accepts_combined ha hb hapos hbpos w).2.1

theorem accepts_difference (h : a.difference b = .ok c) (w : List UInt8) :
    c.accepts w = (a.accepts w && !b.accepts w) := by
  rw [difference_eq (encoding_of_ok h)] at h
  cases h
  cases hapos : a.isEmpty with
  | true => rw [accepts_of_isEmpty hapos]; exact accepts_of_isEmpty hapos w
  | false =>
    cases hbpos : b.isEmpty with
    | true => rw [accepts_of_isEmpty hbpos, Bool.not_false, Bool.and_true]; rfl
    | false => exact (accepts_combined ha hb hapos hbpos w).2.2

omit ha hb

theorem encoding_union (h : a.union b = .ok c) : c.encoding = a.encoding := by
  have he := encoding_of_ok h
  rw [union_eq he] at h
  cases h
  split
  · exact he.symm
  · split <;> rfl

theorem encoding_intersect (h : a.intersect b = .ok c) : c.encoding = a.encoding := by
  rw [intersect_eq (encoding_of_ok h)] at h
  cases h
  split <;> rfl

theorem encoding_difference (h : a.difference b = .ok c) : c.encoding = a.encoding := by
  rw [difference_eq (encoding_of_ok h)] at h
  cases h
  split <;> rfl

/-! ## Cases of a character -/

/-- What holds of the set of a character and is kept when a code point is added holds of the character
with its other cases. -/
theorem ofCased_induction {motive : CharSet → Prop} {e : Encoding} {s : String} {f : CaseFolding}
    {ignoreCase : Bool} (hone : motive (ofString e s))
    (hunion : ∀ total ch next, motive total →
      total.union (ofString e (String.singleton ch)) = .ok next → motive next)
    (h : ofCased e s f ignoreCase = .ok c) : motive c := by
  unfold ofCased at h
  split at h
  · exact Loop.foldlM_spec motive hunion hone h
  · cases h
    exact hone

theorem wellFormed_ofCased {e : Encoding} {s : String} {f : CaseFolding} {ignoreCase : Bool}
    (h : ofCased e s f ignoreCase = .ok c) : c.WellFormed :=
  ofCased_induction (wellFormed_ofString e s)
    (fun _ ch _ htotal => wellFormed_union htotal (wellFormed_ofString e (String.singleton ch))) h

end CharSet
end ByteMatch
