import ByteMatch.Automaton.Subtree
import ByteMatch.Proofs.Automaton.Forest

/-!
# ByteMatch.Proofs.Automaton.Subtree

Erasing and copying the subtrees of a forest.

* `Automaton.Erasing`, `Automaton.EraseLoop`: what the loop that erases a subtree keeps.
* `Automaton.eraseSubtree_spec`: the states of the subtree become holes, and no others.
* `Automaton.Copying`: what a copy of a subtree is. New states are taken to the states that they are
  copies of, label by label.
* `Automaton.CopyLoop`, `Automaton.copySubtree_spec`: the loop ends with a copy.
-/

namespace ByteMatch
namespace Automaton

variable {a b : Automaton} {p p' q : Nat} {c : ByteSet} {roots : List Nat}

/-! ## Erasing -/

/-- The states that have been visited are holes, and the others are as they were. -/
structure Erasing (a : Automaton) (done : List Nat) (b : Automaton) : Prop where
  size : b.size = a.size
  erased : ∀ p ∈ done, b.state p = State.hole
  kept : ∀ p, p ∉ done → b.state p = a.state p

theorem Erasing.visit {done : List Nat} (h : Erasing a done b) :
    Erasing a (q :: done) (b.setIfInBounds q State.hole) where
  size := by rw [Array.size_setIfInBounds, h.size]
  erased p hp := by
    rw [state_setIfInBounds]
    split
    · rfl
    · rename_i hne
      rcases List.mem_cons.1 hp with rfl | hp
      · exact state_of_ge (Nat.le_of_not_lt fun hlt => hne ⟨rfl, hlt⟩)
      · exact h.erased p hp
  kept p hp := by
    rw [List.mem_cons, not_or] at hp
    rw [state_setIfInBounds, if_neg fun hq => hp.1 hq.1.symm]
    exact h.kept p hp.2

/-- The loop that erases a subtree: `n` states have not been visited, those on the stack among them. -/
def EraseLoop (a : Automaton) (q n : Nat) (s : List Nat × Automaton) : Prop :=
  ∃ done, a.Walk q done s.1 ∧ n + done.length = a.size ∧ Erasing a done s.2

/-- The stack is empty, and the states below `q` have been erased. -/
def Erased (a : Automaton) (q : Nat) (s : List Nat × Automaton) : Prop :=
  s.1 = [] ∧ ∃ done, a.Walk q done [] ∧ Erasing a done s.2

theorem EraseLoop.start : EraseLoop a q a.size ([q], a) :=
  ⟨[], .single, rfl, rfl, by simp, fun _ _ => rfl⟩

theorem EraseLoop.step (h : a.Forest roots) (hq : q < a.size) {n : Nat} {s : List Nat × Automaton}
    (hs : EraseLoop a q n s) : Loop.Advances eraseStep (EraseLoop a q) (Erased a q) n s := by
  obtain ⟨work, b⟩ := s
  obtain ⟨done, hwalk, hn, herase⟩ := hs
  cases work with
  | nil => exact .inl ⟨([], b), rfl, rfl, done, hwalk, herase⟩
  | cons x rest =>
    -- a state on the stack has not been visited, so it is as it was
    have hx : x ∉ done := fun hx => (List.nodup_append.1 hwalk.nodup).2.2 x hx x (by simp) rfl
    have hlen := hwalk.length_le h hq
    simp only [List.length_cons] at hlen
    refine .inr ⟨n - 1, _, by omega, rfl, x :: done, ?_, by simp only [List.length_cons]; omega,
      herase.visit⟩
    simp only [herase.kept x hx]
    exact hwalk.visit h (.refl _)

/-- The states of the subtree become holes, and the others stay as they are. -/
theorem eraseSubtree_spec (h : a.Forest roots) (hq : q < a.size) :
    Loop.Ends eraseStep ([q], a) ([], a.eraseSubtree q) ∧ (a.eraseSubtree q).size = a.size ∧
      (∀ p, a.Reaches q p → (a.eraseSubtree q).state p = State.hole) ∧
      ∀ p, ¬ a.Reaches q p → (a.eraseSubtree q).state p = a.state p := by
  obtain ⟨hends, hwork, done, hwalk, herase⟩ :=
    Loop.ends_run (fun _ _ hs => hs.step h hq) EraseLoop.start (Nat.lt_succ_self _)
  exact ⟨hends.of_fst_nil hwork, herase.size, fun p hp => herase.erased p (hwalk.mem_done_iff.2 hp),
    fun p hp => herase.kept p fun hmem => hp (hwalk.mem_done_iff.1 hmem)⟩

/-- What is below another root than the erased one stays, and so do the paths to it. -/
theorem Forest.reaches_erase {r : Nat} (h : a.Forest (q :: roots)) (hroots : q ∉ roots)
    (hr : r ∈ roots) (hpath : a.Reaches r p) :
    (a.eraseSubtree q).state p = a.state p ∧ (a.eraseSubtree q).Reaches r p := by
  obtain ⟨-, -, -, hkept⟩ := eraseSubtree_spec h (h.root_lt q (by simp))
  have hstate : ∀ {x}, a.Reaches r x → (a.eraseSubtree q).state x = a.state x := by
    intro x hx
    refine hkept x fun hx' => hroots ?_
    rwa [h.root_unique (by simp) (List.mem_cons_of_mem _ hr) hx' hx]
  refine ⟨hstate hpath, ?_⟩
  induction hpath with
  | refl => exact .refl
  | tail hpath hchild ih =>
    obtain ⟨c, hedge⟩ := hchild
    refine ih.tail ⟨c, ?_⟩
    rw [Edge, hstate hpath]
    exact hedge

section Holes

variable (hstate : ∀ p, b.state p = State.hole ∨ b.state p = a.state p)
include hstate

theorem edge_of_holes (hedge : b.Edge p c p') : a.Edge p c p' := by
  rcases hstate p with hp | hp
  · rw [Edge, hp] at hedge
    simp [State.hole] at hedge
  · rwa [Edge, hp] at hedge

/-- States can become holes without harm to the others. -/
theorem Proper.holes (h : a.Proper) (hsize : b.size = a.size) : b.Proper where
  target_lt p c p' he := by
    rw [hsize]
    exact h.target_lt _ _ _ (edge_of_holes hstate he)
  label_nonempty p c p' he := h.label_nonempty _ _ _ (edge_of_holes hstate he)
  labels_disjoint p e he e' he' :=
    h.labels_disjoint p e (edge_of_holes hstate he) e' (edge_of_holes hstate he')
  leaf_nonempty p leaf hleaf := by
    rcases hstate p with hp | hp
    · rw [hp] at hleaf
      simp [State.hole] at hleaf
    · rw [hp] at hleaf
      exact h.leaf_nonempty p leaf hleaf

end Holes

/-- A tree that has been erased is no longer part of the forest. -/
theorem Forest.erase (h : a.Forest (q :: roots)) (hroots : q ∉ roots) :
    (a.eraseSubtree q).Forest roots := by
  obtain ⟨-, hsize, herased, hkept⟩ := eraseSubtree_spec h (h.root_lt q (by simp))
  have hstate : ∀ p, (a.eraseSubtree q).state p = State.hole ∨
      (a.eraseSubtree q).state p = a.state p := by
    intro p
    by_cases hp : a.Reaches q p
    · exact .inl (herased p hp)
    · exact .inr (hkept p hp)
  refine
    { toProper := h.toProper.holes hstate hsize
      parent_unique := fun p c p' c' x he he' =>
        h.parent_unique _ _ _ _ _ (edge_of_holes hstate he) (edge_of_holes hstate he')
      root_orphan := fun r hr p hchild =>
        h.root_orphan r (List.mem_cons_of_mem _ hr) p (hchild.imp fun c => edge_of_holes hstate)
      root_lt := fun r hr => by
        rw [hsize]
        exact h.root_lt r (List.mem_cons_of_mem _ hr)
      live := fun p hp hhole => ?_ }
  have hnot : ¬ a.Reaches q p := by
    intro hreach
    rw [herased p hreach, State.isHole_hole] at hhole
    exact absurd hhole (by simp)
  rw [hsize] at hp
  rw [hkept p hnot] at hhole
  obtain ⟨r, hr, hreach⟩ := h.live p hp hhole
  have hr' : r ∈ roots := (List.mem_cons.1 hr).resolve_left (by rintro rfl; exact hnot hreach)
  exact ⟨r, hr', (h.reaches_erase hroots hr' hreach).2⟩

/-! ## Copying -/

/-- A copy of the subtree below `source` on the way to completion. `f` takes each new state to the
state it is a copy of. The pairs of `work` are sources and the targets that still lack their
transitions and leaf. -/
structure Copying (a : Automaton) (source : Nat) (work : List (Nat × Nat)) (b : Automaton)
    (f : Nat → Nat) : Prop where
  size_lt : a.size < b.size
  old : ∀ q, q < a.size → b.state q = a.state q
  map_old : ∀ q, q < a.size → f q = q
  root : f a.size = source
  below : ∀ q, a.size ≤ q → q < b.size → a.Reaches source (f q)
  pending : ∀ s t, (s, t) ∈ work → a.size ≤ t ∧ t < b.size ∧ f t = s ∧ b.state t = State.hole
  targets_nodup : (work.map (·.2)).Nodup
  copied : ∀ q, a.size ≤ q → q < b.size → q ∉ work.map (·.2) →
    a.state (f q) = (b.state q).mapDest f
  target : ∀ p c q, a.size ≤ p → b.Edge p c q → a.size < q ∧ q < b.size
  parent_unique : ∀ p c p' c' q, a.size ≤ q → b.Edge p c q → b.Edge p' c' q → p = p' ∧ c = c'
  reached : ∀ q, a.size ≤ q → q < b.size → b.Reaches a.size q

namespace Copying

variable {source s t : Nat} {work rest : List (Nat × Nat)} {f : Nat → Nat}

theorem start (ha : a.Proper) :
    Copying a source [(source, a.size)] (a.push State.hole)
      (fun q => if q < a.size then q else source) where
  size_lt := by simp
  old q _ := state_push_hole
  map_old q hq := if_pos hq
  root := if_neg (Nat.lt_irrefl _)
  below q hq _ := by
    simp only [if_neg (Nat.not_lt_of_le hq)]
    exact .refl
  pending s t hmem := by
    obtain ⟨rfl, rfl⟩ : s = source ∧ t = a.size := by simpa using hmem
    exact ⟨Nat.le_refl _, by simp, by simp, by rw [state_push_hole, state_of_ge (Nat.le_refl _)]⟩
  targets_nodup := by simp
  copied q hq hq' hmem := by
    simp only [List.map_cons, List.map_nil, List.mem_singleton] at hmem
    rw [Array.size_push] at hq'
    omega
  target p c q hp hedge := by
    rw [Edge, state_push_hole, state_of_ge hp] at hedge
    simp [State.hole] at hedge
  parent_unique p c p' c' q hq hedge _ := by
    rw [Edge, state_push_hole] at hedge
    exact absurd (ha.target_lt p c q hedge) (Nat.not_lt_of_le hq)
  reached q hq hq' := by
    obtain rfl : q = a.size := by
      rw [Array.size_push] at hq'
      omega
    exact .refl

/-- The automaton after the state on top of the stack has been copied. -/
def fill (b : Automaton) (s : State) (t : Nat) : Automaton :=
  b.setIfInBounds t { s with transitions := s.transitions.consecutive b.size } ++
    Array.replicate s.transitions.dests.length State.hole

theorem size_fill {s : State} : (fill b s t).size = b.size + s.transitions.dests.length := by
  simp [fill]

theorem state_fill {s : State} (ht : t < b.size) :
    (fill b s t).state q =
      if t = q then { s with transitions := s.transitions.consecutive b.size } else b.state q := by
  rw [fill, state_append_holes, state_setIfInBounds]
  by_cases htq : t = q
  · rw [if_pos ⟨htq, htq ▸ ht⟩, if_pos htq]
  · rw [if_neg fun h => htq h.1, if_neg htq]

theorem edge_fill_self {s : State} (ht : t < b.size) {c : ByteSet} :
    (fill b s t).Edge t c q ↔ ∃ i, ∃ h : i < s.transitions.entries.length,
      c = s.transitions.entries[i].1 ∧ q = b.size + i := by
  rw [Edge, state_fill ht, if_pos rfl]
  simp only [Transitions.mem_consecutive, Prod.mk.injEq]

theorem edge_fill_ne {s : State} (ht : t < b.size) (hp : t ≠ p) {c : ByteSet} :
    (fill b s t).Edge p c q ↔ b.Edge p c q := by
  rw [Edge, state_fill ht, if_neg hp, Edge]

/-- The sources of the new states are the children of the state that has been copied. -/
def extend (f : Nat → Nat) (n : Nat) (children : List Nat) (q : Nat) : Nat :=
  if q < n then f q else children.getD (q - n) 0

theorem extend_of_lt {n : Nat} {children : List Nat} (h : q < n) : extend f n children q = f q :=
  if_pos h

theorem extend_add {n i : Nat} {children : List Nat} (h : i < children.length) :
    extend f n children (n + i) = children[i] := by
  rw [extend, if_neg (by omega), Nat.add_sub_cancel_left, List.getD_eq_getElem?_getD,
    List.getElem?_eq_getElem h, Option.getD_some]

section Step

variable {c : ByteSet} (h : Copying a source ((s, t) :: rest) b f)
include h

theorem lt_of_head : t < b.size := (h.pending s t (by simp)).2.1

theorem nodup_rest : t ∉ rest.map (·.2) ∧ (rest.map (·.2)).Nodup :=
  List.nodup_cons.1 h.targets_nodup

theorem edge_fill_of_edge (hedge : b.Edge p c q) : (fill b (a.state s) t).Edge p c q := by
  refine (edge_fill_ne h.lt_of_head ?_).2 hedge
  rintro rfl
  rw [Edge, (h.pending s t (by simp)).2.2.2] at hedge
  simp [State.hole] at hedge

/-- A state that has been copied only leads to states that were there before. -/
theorem lt_of_edge_fill (ha : a.Proper) (hp : t ≠ p) (hedge : (fill b (a.state s) t).Edge p c q) :
    q < b.size := by
  rw [edge_fill_ne h.lt_of_head hp] at hedge
  by_cases hpa : p < a.size
  · rw [Edge, h.old p hpa] at hedge
    exact Nat.lt_trans (ha.target_lt _ _ _ hedge) h.size_lt
  · exact (h.target p c q (Nat.le_of_not_lt hpa) hedge).2

theorem ne_of_edge_fill (hq : q < b.size) (hedge : (fill b (a.state s) t).Edge p c q) : t ≠ p := by
  rintro rfl
  obtain ⟨i, hi, -, rfl⟩ := (edge_fill_self h.lt_of_head).1 hedge
  omega

omit h in
/-- The states that are new are the children. -/
theorem exists_child (hq : ¬ q < b.size) (hq' : q < (fill b (a.state s) t).size) :
    ∃ i, ∃ _ : i < (a.state s).transitions.dests.length, q = b.size + i := by
  rw [size_fill] at hq'
  exact ⟨q - b.size, by omega, by omega⟩

theorem below_fill (hq : a.size ≤ q) (hq' : q < (fill b (a.state s) t).size) :
    a.Reaches source (extend f b.size (a.state s).transitions.dests q) := by
  obtain ⟨htge, htlt, hft, -⟩ := h.pending s t (by simp)
  by_cases hqb : q < b.size
  · rw [extend_of_lt hqb]
    exact h.below q hq hqb
  · obtain ⟨i, hi, rfl⟩ := exists_child hqb hq'
    have hs : a.Reaches source s := hft ▸ h.below t htge htlt
    rw [extend_add hi]
    exact hs.tail (mem_dests_iff.1 (List.getElem_mem hi))

theorem pending_fill {e : Nat × Nat}
    (hmem : e ∈ ((a.state s).transitions.dests.zipIdx b.size).reverse ++ rest) :
    a.size ≤ e.2 ∧ e.2 < (fill b (a.state s) t).size ∧
      extend f b.size (a.state s).transitions.dests e.2 = e.1 ∧
      (fill b (a.state s) t).state e.2 = State.hole := by
  obtain ⟨s', t'⟩ := e
  have hsize := h.size_lt
  have htlt := h.lt_of_head
  rw [size_fill]
  rw [List.mem_append, List.mem_reverse] at hmem
  rcases hmem with hmem | hmem
  · obtain ⟨i, hi, heq⟩ := List.getElem_of_mem hmem
    rw [List.length_zipIdx] at hi
    rw [List.getElem_zipIdx] at heq
    obtain ⟨rfl, rfl⟩ := Prod.mk.inj heq
    refine ⟨by omega, by omega, extend_add hi, ?_⟩
    rw [state_fill htlt, if_neg (by omega), state_of_ge (by omega)]
  · obtain ⟨hge, hlt, hsource, hhole⟩ := h.pending s' t' (List.mem_cons_of_mem _ hmem)
    refine ⟨hge, by omega, by rw [extend_of_lt hlt, hsource], ?_⟩
    rw [state_fill htlt, if_neg, hhole]
    rintro rfl
    exact h.nodup_rest.1 (List.mem_map_of_mem (f := (·.2)) hmem)

theorem nodup_fill :
    ((((a.state s).transitions.dests.zipIdx b.size).reverse ++ rest).map (·.2)).Nodup := by
  rw [List.map_append, List.map_reverse, List.zipIdx_map_snd, List.nodup_append]
  refine ⟨List.nodup_reverse.2 List.nodup_range', h.nodup_rest.2, ?_⟩
  rintro x hx y hy rfl
  rw [List.mem_reverse, List.mem_range'_1] at hx
  obtain ⟨⟨s', t'⟩, hmem, rfl⟩ := List.mem_map.1 hy
  have := (h.pending s' t' (List.mem_cons_of_mem _ hmem)).2.1
  omega

theorem copied_fill (hq : a.size ≤ q) (hq' : q < (fill b (a.state s) t).size)
    (hmem : q ∉ (((a.state s).transitions.dests.zipIdx b.size).reverse ++ rest).map (·.2)) :
    a.state (extend f b.size (a.state s).transitions.dests q) =
      ((fill b (a.state s) t).state q).mapDest
        (extend f b.size (a.state s).transitions.dests) := by
  rw [List.map_append, List.map_reverse, List.zipIdx_map_snd, List.mem_append, not_or,
    List.mem_reverse, List.mem_range'_1] at hmem
  have hqb : q < b.size := by
    rw [size_fill] at hq'
    omega
  rw [extend_of_lt hqb, state_fill h.lt_of_head]
  by_cases htq : t = q
  · rw [if_pos htq, ← htq, (h.pending s t (by simp)).2.2.1, State.mapDest]
    simp only [Transitions.mapDest_consecutive fun i hi => extend_add hi]
  · have hmem' : q ∉ ((s, t) :: rest).map (·.2) := by
      rw [List.map_cons, List.mem_cons, not_or]
      exact ⟨fun heq => htq heq.symm, hmem.2⟩
    rw [if_neg htq, h.copied q hq hqb hmem', State.mapDest, State.mapDest]
    congr 1
    refine Transitions.mapDest_congr fun c d hedge => ?_
    rw [extend_of_lt (h.target q c d hq hedge).2]

theorem target_fill (hp : a.size ≤ p) (hedge : (fill b (a.state s) t).Edge p c q) :
    a.size < q ∧ q < (fill b (a.state s) t).size := by
  have hsize := h.size_lt
  have hlen : (a.state s).transitions.dests.length = (a.state s).transitions.entries.length := by
    simp [Transitions.dests]
  rw [size_fill]
  by_cases htp : t = p
  · rw [← htp] at hedge
    obtain ⟨i, hi, -, rfl⟩ := (edge_fill_self h.lt_of_head).1 hedge
    omega
  · have := h.target p c q hp ((edge_fill_ne h.lt_of_head htp).1 hedge)
    omega

theorem parent_unique_fill (ha : a.Proper) {p' : Nat} {c' : ByteSet} (hq : a.size ≤ q)
    (hedge : (fill b (a.state s) t).Edge p c q) (hedge' : (fill b (a.state s) t).Edge p' c' q) :
    p = p' ∧ c = c' := by
  have htlt := h.lt_of_head
  by_cases hqb : q < b.size
  · exact h.parent_unique p c p' c' q hq ((edge_fill_ne htlt (h.ne_of_edge_fill hqb hedge)).1 hedge)
      ((edge_fill_ne htlt (h.ne_of_edge_fill hqb hedge')).1 hedge')
  · have heq : ∀ p c, (fill b (a.state s) t).Edge p c q → t = p := by
      intro p c hedge
      by_contra htp
      exact hqb (h.lt_of_edge_fill ha htp hedge)
    obtain rfl := heq p c hedge
    obtain rfl := heq p' c' hedge'
    obtain ⟨i, hi, rfl, rfl⟩ := (edge_fill_self htlt).1 hedge
    obtain ⟨j, hj, rfl, hij⟩ := (edge_fill_self htlt).1 hedge'
    obtain rfl : i = j := by omega
    exact ⟨rfl, rfl⟩

theorem reached_fill (hq : a.size ≤ q) (hq' : q < (fill b (a.state s) t).size) :
    (fill b (a.state s) t).Reaches a.size q := by
  have hreach : ∀ q, b.Reaches a.size q → (fill b (a.state s) t).Reaches a.size q :=
    fun _ => Reaches.mono_edge fun _ _ _ => h.edge_fill_of_edge
  by_cases hqb : q < b.size
  · exact hreach q (h.reached q hq hqb)
  · obtain ⟨htge, htlt, -, -⟩ := h.pending s t (by simp)
    obtain ⟨i, hi, rfl⟩ := exists_child hqb hq'
    rw [Transitions.dests, List.length_map] at hi
    exact (hreach t (h.reached t htge htlt)).tail ⟨_, (edge_fill_self htlt).2 ⟨i, hi, rfl, rfl⟩⟩

/-- Copying one state keeps the invariant. -/
theorem step (ha : a.Proper) :
    Copying a source (((a.state s).transitions.dests.zipIdx b.size).reverse ++ rest)
      (fill b (a.state s) t) (extend f b.size (a.state s).transitions.dests) := by
  have hsize := h.size_lt
  refine
    { size_lt := by
        rw [size_fill]
        omega
      old := fun q hq => ?_
      map_old := fun q hq => by rw [extend_of_lt (by omega), h.map_old q hq]
      root := by rw [extend_of_lt hsize, h.root]
      below := fun q => h.below_fill
      pending := fun s' t' hmem => h.pending_fill hmem
      targets_nodup := h.nodup_fill
      copied := fun q => h.copied_fill
      target := fun p c q => h.target_fill
      parent_unique := fun p c p' c' q => h.parent_unique_fill ha
      reached := fun q => h.reached_fill }
  have hge := (h.pending s t (by simp)).1
  rw [state_fill h.lt_of_head, if_neg (by omega), h.old q hq]

end Step

end Copying

/-- The loop that copies a subtree: `n` states have not been copied, those on the stack among them. -/
def CopyLoop (a : Automaton) (source n : Nat) (s : List (Nat × Nat) × Automaton) : Prop :=
  ∃ done f, a.Walk source done (s.1.map (·.1)) ∧ n + done.length = a.size ∧ Copying a source s.1 s.2 f

/-- The stack is empty, and there is a copy of what is below `source`. -/
def Copied (a : Automaton) (source : Nat) (s : List (Nat × Nat) × Automaton) : Prop :=
  s.1 = [] ∧ ∃ f, Copying a source [] s.2 f

section CopyLoop

variable {source : Nat} (h : a.Forest roots)
include h

theorem CopyLoop.start : CopyLoop a source a.size (a.copyStart source) :=
  ⟨[], _, .single, rfl, .start h.toProper⟩

theorem CopyLoop.step (hsource : source < a.size) {n : Nat} {s : List (Nat × Nat) × Automaton}
    (hs : CopyLoop a source n s) :
    Loop.Advances copyStep (CopyLoop a source) (Copied a source) n s := by
  obtain ⟨work, b⟩ := s
  obtain ⟨done, f, hwalk, hn, hcopy⟩ := hs
  cases work with
  | nil => exact .inl ⟨([], b), rfl, rfl, f, hcopy⟩
  | cons pair rest =>
    obtain ⟨s, t⟩ := pair
    have hlen := hwalk.length_le h hsource
    simp only [List.map_cons, List.length_cons] at hlen
    have hs : s < a.size := (hwalk.reached s (by simp)).lt h.target_lt hsource
    refine .inr ⟨n - 1, _, by omega, rfl, s :: done,
      Copying.extend f b.size (a.state s).transitions.dests, ?_,
      by simp only [List.length_cons]; omega, ?_⟩
    · simp only [hcopy.old s hs, List.map_append, List.map_reverse, List.zipIdx_map_fst]
      exact hwalk.visit h (List.reverse_perm _)
    · simp only [hcopy.old s hs]
      exact hcopy.step h.toProper

theorem copySubtree_spec (hsource : source < a.size) :
    Loop.Ends copyStep (a.copyStart source) ([], a.copySubtree source) ∧
      ∃ f, Copying a source [] (a.copySubtree source) f := by
  obtain ⟨hends, hwork, hcopy⟩ :=
    Loop.ends_run (fun _ _ hs => hs.step h hsource) (CopyLoop.start h) (Nat.lt_succ_self _)
  exact ⟨hends.of_fst_nil hwork, hcopy⟩

end CopyLoop
end Automaton
end ByteMatch
