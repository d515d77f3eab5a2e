import ByteMatch.Proofs.CharSet.Overlap

/-!
# ByteMatch.Proofs.CharSet.Union

Union of two comparable trees: the left tree with the labels and leaves of the right one.

* `Alignment.Adopting`: fresh states for the right states that have no partner.
* `Alignment.Grafting`: the transitions and leaves that the left tree gains, and `Alignment.GraftRow` for those
  of one state.
* `Alignment.accepts_united`: the result accepts what either tree accepts.
-/

namespace ByteMatch
namespace Alignment

open Automaton

variable {al whole : Alignment} {left₀ right₀ : Automaton} {leftHoles rightHoles : Bool}
  {i l r n : Nat} {c c₀ : ByteSet} {x : UInt8} {w : List UInt8} {u : Automaton}

/-! ## Fresh states -/

/-- The right states below `i` have partners, old ones or fresh ones. -/
structure Adopting (al : Alignment) (i : Nat) (whole : Alignment) : Prop where
  right : whole.right = al.right
  size_le : al.left.size ≤ whole.left.size
  state : ∀ q, whole.left.state q = al.left.state q
  old : ∀ l r, al.Paired l r → whole.Paired l r
  fresh : ∀ l r, whole.Paired l r → al.Paired l r ∨
    (al.left.size ≤ l ∧ l < whole.left.size ∧ r < i ∧ ∀ l', ¬ al.Paired l' r)
  right_unique : ∀ l r r', whole.Paired l r → whole.Paired l r' → r = r'
  total : ∀ r, r < i → ∃ l, whole.Paired l r

theorem Adopting.start (h : Comparable left₀ right₀ leftHoles rightHoles al) : Adopting al 0 al where
  right := rfl
  size_le := Nat.le_refl _
  state _ := rfl
  old _ _ hlr := hlr
  fresh _ _ hlr := .inl hlr
  right_unique := h.corr.right_unique
  total r hr := absurd hr (Nat.not_lt_zero r)

theorem Adopting.lt_of_paired (h : Adopting al i whole)
    (hc : Comparable left₀ right₀ leftHoles rightHoles al) (hlr : whole.Paired l r) :
    l < whole.left.size := by
  rcases h.fresh l r hlr with hlr | ⟨-, hl, -⟩
  · have := hc.left.lt (hc.corr.reached l r hlr).1
    have := h.size_le
    omega
  · exact hl

theorem adoptState_of_contains {s : State} (h : al.pairs.contains i = true) :
    al.adoptState s i = al := by
  rw [adoptState, if_pos (by simp [h])]

theorem Adopting.skip (h : Adopting al i whole) (hi : whole.pairs.contains i = true) :
    Adopting al (i + 1) whole where
  right := h.right
  size_le := h.size_le
  state := h.state
  old := h.old
  fresh l r hlr := (h.fresh l r hlr).imp_right fun ⟨hl, hl', hr, hnone⟩ =>
    ⟨hl, hl', by omega, hnone⟩
  right_unique := h.right_unique
  total r hr := by
    rcases Nat.lt_or_eq_of_le (Nat.lt_succ_iff.1 hr) with hr | rfl
    · exact h.total r hr
    · exact Matching.contains_iff.1 hi

section Fresh

variable {s : State} (hs : s.isHole = false) (hi : ¬ al.pairs.contains i = true)
include hs hi

theorem left_adoptState : (al.adoptState s i).left = al.left.push State.hole := by
  rw [adoptState, if_neg (by simp [hs, hi])]

theorem right_adoptState : (al.adoptState s i).right = al.right := by
  rw [adoptState, if_neg (by simp [hs, hi])]

theorem paired_adoptState_self : (al.adoptState s i).Paired l i ↔ l = al.left.size := by
  rw [Paired, adoptState, if_neg (by simp [hs, hi])]
  simp [Matching.get?_insert, eq_comm]

theorem paired_adoptState_ne (hr : r ≠ i) : (al.adoptState s i).Paired l r ↔ al.Paired l r := by
  rw [Paired, adoptState, if_neg (by simp [hs, hi])]
  simp [Matching.get?_insert, hr, Paired]

end Fresh

theorem Adopting.adoptState {s : State} (h : Adopting al i whole)
    (hc : Comparable left₀ right₀ leftHoles rightHoles al) (hs : s.isHole = false)
    (hi : ¬ whole.pairs.contains i = true) : Adopting al (i + 1) (whole.adoptState s i) := by
  have hleft : (whole.adoptState s i).left = whole.left.push State.hole := left_adoptState hs hi
  have hself : ∀ {l}, (whole.adoptState s i).Paired l i ↔ l = whole.left.size :=
    paired_adoptState_self hs hi
  have hne : ∀ {l r}, r ≠ i → ((whole.adoptState s i).Paired l r ↔ whole.Paired l r) :=
    paired_adoptState_ne hs hi
  have hnone : ∀ l, ¬ whole.Paired l i := fun l hl => hi (Matching.contains_iff.2 ⟨l, hl⟩)
  have hold : ∀ l r, al.Paired l r → r ≠ i := by
    rintro l r hlr rfl
    exact hnone l (h.old l r hlr)
  refine ⟨by rw [right_adoptState hs hi, h.right], ?_, ?_, ?_, ?_, ?_, ?_⟩
  · rw [hleft, Array.size_push]
    exact Nat.le_succ_of_le h.size_le
  · intro q
    rw [hleft, state_push_hole, h.state]
  · intro l r hlr
    exact (hne (hold l r hlr)).2 (h.old l r hlr)
  · intro l r hlr
    rw [hleft, Array.size_push]
    by_cases hr : r = i
    · subst hr
      obtain rfl := hself.1 hlr
      exact .inr ⟨h.size_le, by omega, by omega, fun l hl => hold l r hl rfl⟩
    · exact (h.fresh l r ((hne hr).1 hlr)).imp_right fun ⟨hl, hl', hlt, hnone⟩ =>
        ⟨hl, by omega, by omega, hnone⟩
  · -- a fresh state is the partner of `i` alone
    have hunique : ∀ l r, (whole.adoptState s i).Paired l i →
        (whole.adoptState s i).Paired l r → r = i := by
      intro l r hl hlr
      by_contra hr
      have := h.lt_of_paired hc ((hne hr).1 hlr)
      have := hself.1 hl
      omega
    intro l r r' hlr hlr'
    by_cases hr : r = i
    · subst hr
      exact (hunique l r' hlr hlr').symm
    by_cases hr' : r' = i
    · subst hr'
      exact hunique l r hlr' hlr
    · exact h.right_unique l r r' ((hne hr).1 hlr) ((hne hr').1 hlr')
  · intro r hr
    by_cases hri : r = i
    · subst hri
      exact ⟨whole.left.size, hself.2 rfl⟩
    · obtain ⟨l, hl⟩ := h.total r (by omega)
      exact ⟨l, (hne hri).2 hl⟩

theorem Adopting.step (h : Adopting al i whole)
    (hc : Comparable left₀ right₀ leftHoles rightHoles al)
    (hlive : (al.right.state i).isHole = false) :
    Adopting al (i + 1) (whole.adoptState (al.right.state i) i) := by
  by_cases hi : whole.pairs.contains i = true
  · rw [adoptState_of_contains hi]
    exact h.skip hi
  · exact h.adoptState hc hlive hi

theorem adopt_spec (h : Comparable left₀ right₀ leftHoles rightHoles al)
    (hlive : ∀ r, r < al.right.size → (al.right.state r).isHole = false) :
    Adopting al al.right.size al.adopt :=
  foldl_states (Adopting al) (fun r _ hr hs => hs.step h (hlive r hr)) (.start h)

/-! ## New transitions and leaves -/

/-- A transition of the right tree that the left tree lacks, between the partners. -/
def Grafted (al whole : Alignment) (met : Nat → ByteSet → Nat → Prop) (l : Nat) (c : ByteSet) (n : Nat) :
    Prop :=
  ∃ r next, met r c next ∧ whole.Paired l r ∧ al.right.Edge r c next ∧ whole.Paired n next ∧
    (al.left.size ≤ l ∨ al.left.size ≤ n)

/-- The left tree with the transitions of the right tree in `met`, and with the leaves of the right
states below `i`. -/
structure Grafting (al whole : Alignment) (met : Nat → ByteSet → Nat → Prop) (i : Nat)
    (u : Automaton) : Prop where
  size : u.size = whole.left.size
  edge : ∀ l c n, u.Edge l c n ↔ al.left.Edge l c n ∨ Grafted al whole met l c n
  completes : ∀ l x, (u.state l).completes x = true ↔ (al.left.state l).completes x = true ∨
    ∃ r, r < i ∧ whole.Paired l r ∧ (al.right.state r).completes x = true

/-- The trees while the transitions of the right state `i` are grafted: those in `es` are left. -/
structure GraftRow (al whole : Alignment) (i : Nat) (u : Automaton) (es : List (ByteSet × Nat)) : Prop where
  edges : ∀ e ∈ es, al.right.Edge i e.1 e.2
  nodup : es.Nodup
  grafting : Grafting al whole (fun r c n => r < i ∨ (r = i ∧ (c, n) ∉ es)) i u

theorem left_unique (hlr : whole.Paired l r) {l' : Nat} (hlr' : whole.Paired l' r) : l = l' := by
  rw [Paired] at hlr hlr'
  rw [hlr] at hlr'
  exact Option.some.inj hlr'

/-- A transition that has been met is the first of those that were left or was met before. -/
theorem grafted_cons_iff {es : List (ByteSet × Nat)} {next : Nat} (hlr : whole.Paired l i)
    (he : al.right.Edge i c₀ next) (hn : whole.Paired n next) (hmem : (c₀, next) ∉ es) {p d : Nat} :
    Grafted al whole (fun r c n => r < i ∨ (r = i ∧ (c, n) ∉ es)) p c d ↔
      Grafted al whole (fun r c n => r < i ∨ (r = i ∧ (c, n) ∉ (c₀, next) :: es)) p c d ∨
        (p = l ∧ c = c₀ ∧ d = n ∧ (al.left.size ≤ l ∨ al.left.size ≤ n)) := by
  constructor
  · rintro ⟨r, next', hr, hp, he', hd, hnew⟩
    by_cases hthis : r = i ∧ (c, next') = (c₀, next)
    · obtain ⟨rfl, heq⟩ := hthis
      obtain ⟨rfl, rfl⟩ := Prod.mk.inj heq
      obtain rfl := left_unique hp hlr
      obtain rfl := left_unique hd hn
      exact .inr ⟨rfl, rfl, rfl, hnew⟩
    · refine .inl ⟨r, next', hr.imp_right fun ⟨hr, hes⟩ => ⟨hr, ?_⟩, hp, he', hd, hnew⟩
      exact List.not_mem_cons_of_ne_of_not_mem (fun heq => hthis ⟨hr, heq⟩) hes
  · rintro (⟨r, next', hr, hrest⟩ | ⟨rfl, rfl, rfl, hnew⟩)
    · exact ⟨r, next', hr.imp_right fun ⟨hr, hes⟩ =>
        ⟨hr, fun hmem => hes (List.mem_cons_of_mem _ hmem)⟩, hrest⟩
    · exact ⟨i, next, .inr ⟨rfl, hmem⟩, hlr, he, hn, hnew⟩

theorem completes_addLeaf (hl : l < u.size) {leaf : ByteSet} {p : Nat} :
    (state (u.modify l (·.addLeaf leaf)) p).completes x = true ↔
      (u.state p).completes x = true ∨ (p = l ∧ x ∈ leaf) := by
  by_cases hp : l = p
  · subst hp
    simp only [state_modify_self hl, State.completes, State.addLeaf, Option.any_some, true_and]
    rw [ByteSet.contains_iff, ByteSet.mem_union]
    cases (u.state l).leaf with
    | none => simp [ByteSet.not_mem_empty]
    | some leaf' => rfl
  · rw [state_modify_ne hp]
    simp [Ne.symm hp]

section Graft

variable (h : Comparable left₀ right₀ leftHoles rightHoles al)
  (ha : Adopting al al.right.size whole)
include h ha

/-- A label of a right state leads to the partner of its destination, if the left state has it. -/
theorem Grafting.dest_unique {met : Nat → ByteSet → Nat → Prop} {next d : Nat}
    (hg : Grafting al whole met i u) (hlr : whole.Paired l r) (he : al.right.Edge r c next)
    (hn : whole.Paired n next) (hd : u.Edge l c d) : d = n := by
  rcases (hg.edge l c d).1 hd with hold | ⟨r', next', -, hlr', he', hd', -⟩
  · have hl : al.Paired l r := by
      rcases ha.fresh l r hlr with hlr | ⟨hl, -⟩
      · exact hlr
      · exact absurd (lt_of_edge hold) (Nat.not_lt_of_le hl)
    obtain ⟨y, hy⟩ := h.right.forest.label_nonempty _ _ _ he
    rcases h.settled l r hl c d hold c next he with ⟨-, hR⟩ | hdisj
    · exact left_unique (ha.old _ _ hR) hn
    · exact absurd hy (hdisj y hy)
  · obtain rfl := ha.right_unique _ _ _ hlr hlr'
    obtain rfl := Transitions.dest_unique he he'
    exact left_unique hd' hn

theorem Grafting.transition {es : List (ByteSet × Nat)} {next : Nat}
    (hg : Grafting al whole (fun r c n => r < i ∨ (r = i ∧ (c, n) ∉ (c₀, next) :: es)) i u)
    (hlr : whole.Paired l i) (hl : l < u.size) (he : al.right.Edge i c₀ next)
    (hn : whole.Paired n next) (hmem : (c₀, next) ∉ es) :
    Grafting al whole (fun r c n => r < i ∨ (r = i ∧ (c, n) ∉ es)) i
      (graftTransition whole.pairs al.left.size l u c₀ next) := by
  have hget : whole.pairs.get? next = some n := hn
  rw [graftTransition, hget]
  simp only [Bool.or_eq_true, decide_eq_true_eq]
  by_cases hnew : al.left.size ≤ l ∨ al.left.size ≤ n
  · rw [if_pos hnew]
    refine ⟨by rw [Array.size_modify, hg.size], fun p c d => ?_, fun p y => ?_⟩
    · rw [edge_addTransition hl, grafted_cons_iff hlr he hn hmem, ← or_assoc, ← hg.edge]
      constructor
      · rintro (⟨rfl, rfl, rfl⟩ | ⟨hu, -⟩)
        · exact .inr ⟨rfl, rfl, rfl, hnew⟩
        · exact .inl hu
      · rintro (hu | ⟨rfl, rfl, rfl, -⟩)
        · by_cases hthis : p = l ∧ c = c₀
          · obtain ⟨rfl, rfl⟩ := hthis
            exact .inl ⟨rfl, rfl, hg.dest_unique h ha hlr he hn hu⟩
          · exact .inr ⟨hu, hthis⟩
        · exact .inl ⟨rfl, rfl, rfl⟩
    · rw [← hg.completes, State.completes, leaf_addTransition, State.completes]
  · rw [if_neg hnew]
    refine ⟨hg.size, fun p c d => ?_, hg.completes⟩
    rw [grafted_cons_iff hlr he hn hmem, hg.edge]
    simp [hnew]

omit h ha in
theorem GraftRow.start (hg : Grafting al whole (fun r _ _ => r < i) i u) :
    GraftRow al whole i u (al.right.state i).transitions.entries := by
  refine ⟨fun e he => he, Transitions.nodup_entries, hg.size, fun x c d => ?_, hg.completes⟩
  rw [hg.edge]
  refine or_congr_right ⟨?_, ?_⟩
  · rintro ⟨r, next, hr, hrest⟩
    exact ⟨r, next, .inl hr, hrest⟩
  · rintro ⟨r, next, hr, hx, he, hrest⟩
    refine ⟨r, next, hr.resolve_right ?_, hx, he, hrest⟩
    rintro ⟨rfl, hmem⟩
    exact hmem he

theorem GraftRow.step {e : ByteSet × Nat} {es : List (ByteSet × Nat)} (hlr : whole.Paired l i)
    (hrow : GraftRow al whole i u (e :: es)) :
    GraftRow al whole i (graftTransition whole.pairs al.left.size l u e.1 e.2) es := by
  obtain ⟨hedges, hnodup, hg⟩ := hrow
  have he := hedges e List.mem_cons_self
  obtain ⟨n, hn⟩ := ha.total e.2 (h.right.forest.target_lt _ _ _ he)
  have hl : l < u.size := by
    rw [hg.size]
    exact ha.lt_of_paired h hlr
  exact ⟨fun x hx => hedges x (List.mem_cons_of_mem _ hx), (List.nodup_cons.1 hnodup).2,
    hg.transition h ha hlr hl he hn (List.nodup_cons.1 hnodup).1⟩

theorem Grafting.transitions (hlr : whole.Paired l i) (hg : Grafting al whole (fun r _ _ => r < i) i u) :
    Grafting al whole (fun r _ _ => r < i + 1) i
      ((al.right.state i).transitions.entries.foldl (fun left e =>
        graftTransition whole.pairs al.left.size l left e.1 e.2) u) := by
  obtain ⟨-, -, hend⟩ := Loop.foldl_spec (GraftRow al whole i) (fun _ _ _ hrow => hrow.step h ha hlr)
    (GraftRow.start hg)
  refine ⟨hend.size, fun x c d => ?_, hend.completes⟩
  rw [hend.edge]
  refine or_congr_right (exists_congr fun r => exists_congr fun next => and_congr_left fun _ => ?_)
  simp only [List.not_mem_nil, not_false_eq_true, and_true]
  omega

omit h ha in
/-- The tree has gained the leaf of the right state `i`. -/
theorem Grafting.leaf {met : Nat → ByteSet → Nat → Prop} {v : Automaton}
    (hg : Grafting al whole met i u) (hlr : whole.Paired l i) (hsize : v.size = u.size)
    (hedge : ∀ p c d, v.Edge p c d ↔ u.Edge p c d)
    (hcompletes : ∀ p x, (v.state p).completes x = true ↔ (u.state p).completes x = true ∨
      (p = l ∧ (al.right.state i).completes x = true)) : Grafting al whole met (i + 1) v := by
  refine ⟨by rw [hsize, hg.size], fun p c d => by rw [hedge, hg.edge], fun p x => ?_⟩
  rw [hcompletes, hg.completes, or_assoc]
  refine or_congr_right ⟨?_, ?_⟩
  · rintro (⟨r, hr, hrest⟩ | ⟨rfl, hx⟩)
    · exact ⟨r, by omega, hrest⟩
    · exact ⟨i, Nat.lt_succ_self i, hlr, hx⟩
  · rintro ⟨r, hr, hpr, hx⟩
    rcases Nat.lt_or_eq_of_le (Nat.lt_succ_iff.1 hr) with hr | rfl
    · exact .inl ⟨r, hr, hpr, hx⟩
    · exact .inr ⟨left_unique hpr hlr, hx⟩

theorem Grafting.step (hi : i < al.right.size) (hg : Grafting al whole (fun r _ _ => r < i) i u) :
    Grafting al whole (fun r _ _ => r < i + 1) (i + 1)
      (graft whole.pairs al.left.size u (al.right.state i) i) := by
  obtain ⟨l, hl⟩ := ha.total i hi
  have hget : whole.pairs.get? i = some l := hl
  have hg' := hg.transitions h ha hl
  cases hleaf : (al.right.state i).leaf with
  | none =>
    simp only [graft, hget, hleaf]
    exact hg'.leaf hl rfl (fun _ _ _ => Iff.rfl) fun p x => by simp [State.completes, hleaf]
  | some leaf =>
    simp only [graft, hget, hleaf]
    have hlt := ha.lt_of_paired h hl
    rw [← hg'.size] at hlt
    refine hg'.leaf hl (Array.size_modify ..) (fun p c d => ?_) fun p x => ?_
    · rw [Edge, transitions_addLeaf, Edge]
    · rw [completes_addLeaf hlt, State.completes, State.completes, hleaf, Option.any_some,
        ByteSet.contains_iff]

omit h in
theorem Grafting.start : Grafting al whole (fun r _ _ => r < 0) 0 whole.left := by
  refine ⟨rfl, fun l c n => ?_, fun l x => ?_⟩
  · rw [Edge, ha.state]
    refine ⟨.inl, fun he => he.resolve_right ?_⟩
    rintro ⟨r, next, hr, -⟩
    exact Nat.not_lt_zero r hr
  · rw [ha.state]
    refine ⟨.inl, fun hx => hx.resolve_right ?_⟩
    rintro ⟨r, hr, -⟩
    exact Nat.not_lt_zero r hr

end Graft

/-! ## Acceptance -/

theorem united_spec (h : Comparable left₀ right₀ leftHoles rightHoles al)
    (ha : Adopting al al.right.size al.adopt) :
    Grafting al al.adopt (fun r _ _ => r < al.right.size) al.right.size al.united := by
  have hright := ha.right
  rw [united, hright]
  exact foldl_states (fun i u => Grafting al al.adopt (fun r _ _ => r < i) i u)
    (fun i u hi hg => hg.step h ha hi) (.start ha)

section Accept

variable (h : Comparable left₀ right₀ leftHoles rightHoles al)
  (ha : Adopting al al.right.size al.adopt)
include h ha

/-- A transition of the result that the left tree lacks leads to a fresh state, unless it leaves
one. -/
theorem edge_united : al.united.Edge l c n ↔ al.left.Edge l c n ∨
    ∃ r next, al.adopt.Paired l r ∧ al.right.Edge r c next ∧ al.adopt.Paired n next ∧
      (al.left.size ≤ l ∨ al.left.size ≤ n) := by
  rw [(united_spec h ha).edge]
  refine or_congr_right (exists_congr fun r => exists_congr fun next => ?_)
  exact and_iff_right_of_imp fun ⟨_, he, _⟩ => lt_of_edge he

theorem completes_united : (al.united.state l).completes x = true ↔
    (al.left.state l).completes x = true ∨
      ∃ r, al.adopt.Paired l r ∧ (al.right.state r).completes x = true := by
  rw [(united_spec h ha).completes]
  refine or_congr_right (exists_congr fun r => and_iff_right_of_imp fun ⟨_, hx⟩ => ?_)
  by_contra hr
  rw [state_of_ge (Nat.le_of_not_lt hr)] at hx
  simp [State.completes, State.hole] at hx

omit h in
theorem paired_of_lt (hlr : al.adopt.Paired l r) (hl : l < al.left.size) : al.Paired l r := by
  rcases ha.fresh l r hlr with hlr | ⟨hge, -⟩
  · exact hlr
  · omega

theorem labels_disjoint_united : (al.united.state l).transitions.Disjoint := by
  rintro ⟨c, n⟩ he ⟨c', n'⟩ he' x hx hx'
  -- a label of the left state overlaps none that has been added to it
  have hmixed : ∀ {c c' n n'}, al.left.Edge l c n → (∃ r next, al.adopt.Paired l r ∧
      al.right.Edge r c' next ∧ al.adopt.Paired n' next ∧ (al.left.size ≤ l ∨ al.left.size ≤ n')) →
      x ∈ c → x ∉ c' := by
    rintro c c' n n' hold ⟨r, next, hlr, hnew, hn', hfresh⟩ hx
    have hl := lt_of_edge hold
    rcases h.settled l r (paired_of_lt ha hlr hl) c n hold c' next hnew with ⟨-, hR⟩ | hdisj
    · have hn := (h.left.lt (h.corr.reached _ _ hR).1)
      obtain rfl := left_unique (ha.old _ _ hR) hn'
      omega
    · exact hdisj x hx
  rcases (edge_united h ha).1 he with hold | hnew
  · rcases (edge_united h ha).1 he' with hold' | hnew'
    · exact (h.left.forest.edge_unique hold hold' hx hx').1
    · exact absurd hx' (hmixed hold hnew' hx)
  · rcases (edge_united h ha).1 he' with hold' | hnew'
    · exact absurd hx (hmixed hold' hnew hx')
    · obtain ⟨r, next, hlr, hr, -⟩ := hnew
      obtain ⟨r', next', hlr', hr', -⟩ := hnew'
      obtain rfl := ha.right_unique _ _ _ hlr hlr'
      exact (h.right.forest.edge_unique hr hr' hx hx').1

theorem step?_united : (al.united.state l).transitions.step? x = some n ↔ ∃ c, x ∈ c ∧
    (al.left.Edge l c n ∨ ∃ r next, al.adopt.Paired l r ∧ al.right.Edge r c next ∧
      al.adopt.Paired n next ∧ (al.left.size ≤ l ∨ al.left.size ≤ n)) := by
  rw [Transitions.step?_eq_some_iff (labels_disjoint_united h ha)]
  exact exists_congr fun c => and_congr_right fun _ => edge_united h ha

theorem step?_united_of_left {c : ByteSet} (he : al.left.Edge l c n) (hx : x ∈ c) :
    (al.united.state l).transitions.step? x = some n :=
  (step?_united h ha).2 ⟨c, hx, .inl he⟩

/-- Where only the right tree has a transition, the result leads to a fresh state. -/
theorem step?_united_of_right {next : Nat} (hleft : (al.left.state l).transitions.step? x = none)
    (hlr : al.adopt.Paired l r) (hright : (al.right.state r).transitions.step? x = some next) :
    ∃ n, al.adopt.Paired n next ∧ al.left.size ≤ n ∧
      (al.united.state l).transitions.step? x = some n := by
  obtain ⟨c, hx, he⟩ := Transitions.exists_of_step? hright
  obtain ⟨n, hn⟩ := ha.total next (h.right.forest.target_lt _ _ _ he)
  have hfresh : al.left.size ≤ n := by
    by_contra hlt
    have hR := paired_of_lt ha hn (Nat.lt_of_not_le hlt)
    obtain ⟨p, hold, hp⟩ := h.corr.swap.parent_of_edge h.right.forest hR he
    obtain rfl := left_unique hlr (ha.old _ _ hp)
    exact Transitions.step?_eq_none_iff.1 hleft c n hold hx
  exact ⟨n, hn, hfresh, (step?_united h ha).2 ⟨c, hx, .inr ⟨r, next, hlr, he, hn, .inr hfresh⟩⟩⟩

theorem step?_united_of_none (hleft : (al.left.state l).transitions.step? x = none)
    (hright : ∀ r, al.adopt.Paired l r → (al.right.state r).transitions.step? x = none) :
    (al.united.state l).transitions.step? x = none := by
  refine Option.eq_none_iff_forall_ne_some.2 fun n hn => ?_
  obtain ⟨c, hx, hold | ⟨r, next, hlr, he, -⟩⟩ := (step?_united h ha).1 hn
  · exact Transitions.step?_eq_none_iff.1 hleft c n hold hx
  · exact Transitions.step?_eq_none_iff.1 (hright r hlr) c next he hx

/-- From a state with a partner, the result accepts what either tree accepts. From a left state
without partner it accepts what the left tree does. -/
theorem acceptsFrom_united :
    (∀ r, al.adopt.Paired l r →
      al.united.acceptsFrom l w = (al.left.acceptsFrom l w || al.right.acceptsFrom r w)) ∧
    ((∀ r, ¬ al.adopt.Paired l r) → al.united.acceptsFrom l w = al.left.acceptsFrom l w) := by
  induction w generalizing l with
  | nil => simp [acceptsFrom]
  | cons x w ih =>
    cases w with
    | nil =>
      simp only [acceptsFrom_singleton]
      refine ⟨fun r hlr => ?_, fun hl => ?_⟩
      · rw [Bool.eq_iff_iff, completes_united h ha, Bool.or_eq_true]
        refine or_congr_right ⟨?_, fun hx => ⟨r, hlr, hx⟩⟩
        rintro ⟨r', hlr', hx⟩
        rwa [ha.right_unique _ _ _ hlr hlr']
      · rw [Bool.eq_iff_iff, completes_united h ha]
        exact or_iff_left (not_exists.2 fun r hr => hl r hr.1)
    | cons y w =>
      simp only [acceptsFrom_cons (List.cons_ne_nil y w)]
      cases hleft : (al.left.state l).transitions.step? x with
      | some n =>
        obtain ⟨c, hx, he⟩ := Transitions.exists_of_step? hleft
        have hn : n < al.left.size := h.left.forest.target_lt _ _ _ he
        rw [step?_united_of_left h ha he hx]
        refine ⟨fun r hlr => ?_, fun hl => (ih (l := n)).2 fun r' hr' => ?_⟩
        · have hR := paired_of_lt ha hlr (lt_of_edge he)
          by_cases hnext : ∃ r', al.Paired n r'
          · obtain ⟨r', hr'⟩ := hnext
            rw [h.step?_of_paired hR he hx hr']
            exact (ih (l := n)).1 r' (ha.old _ _ hr')
          · have hnone : ∀ r', ¬ al.Paired n r' := fun r' hr' => hnext ⟨r', hr'⟩
            rw [h.step?_of_unpaired hR he hx hnone, Bool.or_false]
            exact (ih (l := n)).2 fun r' hr' => hnone r' (paired_of_lt ha hr' hn)
        · exact h.unpaired_of_edge (fun r hr => hl r (ha.old _ _ hr)) he r'
            (paired_of_lt ha hr' hn)
      | none =>
        refine ⟨fun r hlr => ?_, fun hl => ?_⟩
        · cases hright : (al.right.state r).transitions.step? x with
          | some next =>
            obtain ⟨n, hn, hfresh, hstep⟩ := step?_united_of_right h ha hleft hlr hright
            have hnothing : al.left.acceptsFrom n (y :: w) = false := by
              refine acceptsFrom_of_isHole ?_
              rw [state_of_ge hfresh, State.isHole_hole]
            rw [hstep, Bool.false_or]
            have := (ih (l := n)).1 next hn
            rwa [hnothing, Bool.false_or] at this
          | none =>
            rw [step?_united_of_none h ha hleft]
            · rfl
            · intro r' hlr'
              rwa [ha.right_unique _ _ _ hlr' hlr]
        · rw [step?_united_of_none h ha hleft fun r hlr => absurd hlr (hl r)]

theorem accepts_united (w : List UInt8) :
    al.united.accepts w = (al.left.accepts w || al.right.accepts w) :=
  (acceptsFrom_united h ha).1 0 (ha.old _ _ h.corr.root)

end Accept
end Alignment
end ByteMatch
