import ByteMatch.Automaton.Unfold
import ByteMatch.Proofs.Automaton.Subtree

/-!
# ByteMatch.Proofs.Automaton.Unfold

The tree of the paths of a graph.

* `Automaton.Unfolded`: a tree whose states stand for those of a graph, label by label.
* `Automaton.Expanding`: the invariant of the loop, by levels of the tree.
* `Automaton.UnfoldLoop`, `Automaton.unfold_spec`: unfolding a graph without cycles ends, with such a tree.
* `Automaton.Unfolded.wellFormed`, `Automaton.Unfolded.accepts_eq`: the tree is well-formed and
  accepts the same.
-/

namespace ByteMatch
namespace Automaton

variable {graph b : Automaton} {f : Nat → Nat} {p q t k : Nat} {c : ByteSet} {u : Unfolding}
  {todo rest : List (Nat × Nat)}

/-- The states of a tree stand for states of a graph. -/
structure Unfolded (graph tree : Automaton) (f : Nat → Nat) : Prop where
  forest : tree.Forest [0]
  full : ∀ q, q < tree.size → tree.Reaches 0 q
  root : f 0 = 0
  exact : ∀ q, q < tree.size → graph.state (f q) = (tree.state q).mapDest f

/-! ## The children of one state -/

/-- The tree after a state has got its children, which have only their leaves yet. -/
def sprout (graph b : Automaton) (children : Transitions) (t : Nat) : Automaton :=
  b.modify t (fun s => { s with transitions := children.consecutive b.size }) ++
    (children.dests.map fun d => (⟨∅, (graph.state d).leaf⟩ : State)).toArray

/-- The children that have children themselves, with the states that stand for them. -/
def openChildren (graph : Automaton) (children : List Nat) (base : Nat) : List (Nat × Nat) :=
  (children.zipIdx base).filter fun e => !(graph.state e.1).transitions.isEmpty

theorem foldl_unfoldChild (children : List Nat) (u : Unfolding) :
    children.foldl (unfoldChild graph) u =
      ⟨u.tree ++ (children.map fun d => (⟨∅, (graph.state d).leaf⟩ : State)).toArray,
        u.next ++ (graph.openChildren children u.tree.size).toArray⟩ := by
  induction children generalizing u with
  | nil => simp [openChildren]
  | cons d ds ih =>
    rw [List.foldl_cons, ih, unfoldChild]
    by_cases hd : (graph.state d).transitions.isEmpty = true <;>
      simp [openChildren, hd]

theorem unfoldState_eq (s t : Nat) : graph.unfoldState u (s, t) =
    ⟨graph.sprout u.tree (graph.state s).transitions t,
      u.next ++ (graph.openChildren (graph.state s).transitions.dests u.tree.size).toArray⟩ := by
  rw [unfoldState, foldl_unfoldChild, sprout]
  simp only [Array.size_modify]

section Sprout

variable {children : Transitions}

theorem size_sprout : (graph.sprout b children t).size = b.size + children.dests.length := by
  simp [sprout]

theorem state_sprout (h : q < b.size) : (graph.sprout b children t).state q =
    if t = q then { b.state q with transitions := children.consecutive b.size } else b.state q := by
  rw [sprout, state_eq_getD, Array.getElem?_append, if_pos (by simpa using h), ← state_eq_getD,
    state_modify]
  by_cases ht : t = q <;> simp [ht, h]

theorem state_sprout_child {i : Nat} (h : i < children.dests.length) :
    (graph.sprout b children t).state (b.size + i) = ⟨∅, (graph.state children.dests[i]).leaf⟩ := by
  rw [sprout, state_eq_getD, Array.getElem?_append, if_neg (by simp), Array.size_modify,
    Nat.add_sub_cancel_left, List.getElem?_toArray, List.getElem?_map, List.getElem?_eq_getElem h]
  rfl

theorem edge_sprout_self (ht : t < b.size) : (graph.sprout b children t).Edge t c q ↔
    ∃ i, ∃ h : i < children.entries.length, c = children.entries[i].1 ∧ q = b.size + i := by
  rw [Edge, state_sprout ht, if_pos rfl]
  simp only [Transitions.mem_consecutive, Prod.mk.injEq]

theorem edge_sprout_ne (hp : t ≠ p) :
    (graph.sprout b children t).Edge p c q ↔ b.Edge p c q := by
  by_cases hpb : p < b.size
  · rw [Edge, state_sprout hpb, if_neg hp, Edge]
  · have hleft : ¬ b.Edge p c q := fun he => hpb (lt_of_edge he)
    refine iff_of_false (fun he => ?_) hleft
    have hlt := lt_of_edge he
    rw [size_sprout] at hlt
    obtain ⟨i, rfl⟩ : ∃ i, p = b.size + i := ⟨p - b.size, by omega⟩
    rw [Edge, state_sprout_child (by omega)] at he
    simp at he

end Sprout

/-! ## The invariant -/

/-- The tree while the states of `todo` on level `k`, and those found so far on the next level, lack
children. -/
structure Expanding (graph : Automaton) (k : Nat) (todo : List (Nat × Nat)) (u : Unfolding)
    (f : Nat → Nat) : Prop where
  size_pos : 0 < u.tree.size
  root : f 0 = 0
  leaf : ∀ q, q < u.tree.size → (u.tree.state q).leaf = (graph.state (f q)).leaf
  pending : ∀ s t, (s, t) ∈ todo ++ u.next.toList →
    t < u.tree.size ∧ f t = s ∧ (u.tree.state t).transitions = ∅
  nodup : ((todo ++ u.next.toList).map (·.2)).Nodup
  exact : ∀ q, q < u.tree.size → q ∉ (todo ++ u.next.toList).map (·.2) →
    graph.state (f q) = (u.tree.state q).mapDest f
  target : ∀ p c q, u.tree.Edge p c q → 0 < q ∧ q < u.tree.size
  parent_unique : ∀ p c p' c' q, u.tree.Edge p c q → u.tree.Edge p' c' q → p = p' ∧ c = c'
  reached : ∀ q, q < u.tree.size → u.tree.Reaches 0 q
  todo_depth : ∀ s t, (s, t) ∈ todo → graph.Path 0 k s
  next_depth : ∀ s t, (s, t) ∈ u.next.toList → graph.Path 0 (k + 1) s

namespace Expanding

open Copying (extend extend_of_lt extend_add)

theorem start (graph : Automaton) :
    Expanding graph 0 [(0, 0)] { graph.unfoldStart with next := #[] } fun _ => 0 := by
  have hstate : ∀ p, (state (#[⟨∅, (graph.state 0).leaf⟩] : Automaton) p).transitions = ∅ := by
    intro p
    cases p with
    | zero => rfl
    | succ p => rfl
  have hedge : ∀ p c q, ¬ Edge (#[⟨∅, (graph.state 0).leaf⟩] : Automaton) p c q := by
    intro p c q he
    rw [Edge, hstate] at he
    simp at he
  refine ⟨Nat.one_pos, rfl, ?_, ?_, by simp, ?_, ?_, ?_, ?_, ?_, by simp⟩
  · intro q hq
    obtain rfl : q = 0 := Nat.lt_one_iff.1 hq
    rfl
  · intro s t hmem
    obtain ⟨rfl, rfl⟩ : s = 0 ∧ t = 0 := by simpa using hmem
    exact ⟨Nat.one_pos, rfl, hstate 0⟩
  · intro q hq hmem
    exact absurd (Nat.lt_one_iff.1 hq) (by simpa using hmem)
  · exact fun p c q he => absurd he (hedge p c q)
  · exact fun p c p' c' q he => absurd he (hedge p c q)
  · intro q hq
    obtain rfl : q = 0 := Nat.lt_one_iff.1 hq
    exact .refl
  · intro s t hmem
    obtain ⟨rfl, rfl⟩ : s = 0 ∧ t = 0 := by simpa using hmem
    exact .nil

/-- The states that lack children after one of them has got its own. -/
theorem mem_next {children : List Nat} {base : Nat} {next : Array (Nat × Nat)} {e : Nat × Nat} :
    e ∈ (next ++ (graph.openChildren children base).toArray).toList ↔ e ∈ next.toList ∨
      ∃ i, ∃ h : i < children.length, e = (children[i], base + i) ∧
        (graph.state children[i]).transitions.isEmpty = false := by
  rw [Array.toList_append, List.mem_append, openChildren, List.mem_filter]
  refine or_congr_right ⟨?_, ?_⟩
  · rintro ⟨hmem, hopen⟩
    obtain ⟨i, hi, rfl⟩ := List.getElem_of_mem hmem
    rw [List.length_zipIdx] at hi
    rw [List.getElem_zipIdx] at hopen ⊢
    exact ⟨i, hi, rfl, by simpa using hopen⟩
  · rintro ⟨i, hi, rfl, hopen⟩
    refine ⟨List.mem_iff_getElem.2 ⟨i, by rwa [List.length_zipIdx], ?_⟩, by simpa using hopen⟩
    rw [List.getElem_zipIdx]

section Step

variable {s : Nat} (h : Expanding graph k ((s, t) :: rest) u f)
include h

theorem lt_of_head : t < u.tree.size := (h.pending s t (by simp)).1

theorem nodup_rest : t ∉ (rest ++ u.next.toList).map (·.2) ∧
    ((rest ++ u.next.toList).map (·.2)).Nodup := List.nodup_cons.1 h.nodup

theorem edge_sprout_of_edge (he : u.tree.Edge p c q) :
    (graph.sprout u.tree (graph.state s).transitions t).Edge p c q := by
  refine (edge_sprout_ne ?_).2 he
  rintro rfl
  rw [Edge, (h.pending s t (by simp)).2.2] at he
  simp at he

theorem target_of_ne (hp : t ≠ p)
    (he : (graph.sprout u.tree (graph.state s).transitions t).Edge p c q) :
    0 < q ∧ q < u.tree.size := h.target p c q ((edge_sprout_ne hp).1 he)

theorem ne_of_edge_sprout (hq : q < u.tree.size)
    (he : (graph.sprout u.tree (graph.state s).transitions t).Edge p c q) : t ≠ p := by
  rintro rfl
  obtain ⟨i, hi, -, rfl⟩ := (edge_sprout_self h.lt_of_head).1 he
  omega

omit h in
/-- The states that are new are the children. -/
theorem exists_child (hq : ¬ q < u.tree.size)
    (hq' : q < (graph.sprout u.tree (graph.state s).transitions t).size) :
    ∃ i, ∃ _ : i < (graph.state s).transitions.dests.length, q = u.tree.size + i := by
  rw [size_sprout] at hq'
  exact ⟨q - u.tree.size, by omega, by omega⟩

theorem leaf_sprout (hq : q < (graph.sprout u.tree (graph.state s).transitions t).size) :
    ((graph.sprout u.tree (graph.state s).transitions t).state q).leaf =
      (graph.state (extend f u.tree.size (graph.state s).transitions.dests q)).leaf := by
  by_cases hqb : q < u.tree.size
  · rw [state_sprout hqb, extend_of_lt hqb, ← h.leaf q hqb]
    split <;> rfl
  · obtain ⟨i, hi, rfl⟩ := exists_child hqb hq
    rw [extend_add hi, state_sprout_child hi]

theorem pending_sprout {e : Nat × Nat}
    (hmem : e ∈ rest ++ (u.next ++
      (graph.openChildren (graph.state s).transitions.dests u.tree.size).toArray).toList) :
    e.2 < (graph.sprout u.tree (graph.state s).transitions t).size ∧
      extend f u.tree.size (graph.state s).transitions.dests e.2 = e.1 ∧
      ((graph.sprout u.tree (graph.state s).transitions t).state e.2).transitions = ∅ := by
  obtain ⟨s', t'⟩ := e
  rw [size_sprout]
  rw [List.mem_append, mem_next, ← or_assoc, ← List.mem_append] at hmem
  rcases hmem with hmem | ⟨i, hi, heq, -⟩
  · obtain ⟨ht', hft', htrans'⟩ := h.pending s' t' (List.mem_cons_of_mem _ hmem)
    refine ⟨by omega, by rw [extend_of_lt ht', hft'], ?_⟩
    rw [state_sprout ht', if_neg, htrans']
    rintro rfl
    exact h.nodup_rest.1 (List.mem_map_of_mem (f := (·.2)) hmem)
  · obtain ⟨rfl, rfl⟩ := Prod.mk.inj heq
    exact ⟨by omega, extend_add hi, by rw [state_sprout_child hi]⟩

theorem nodup_sprout : ((rest ++ (u.next ++
    (graph.openChildren (graph.state s).transitions.dests u.tree.size).toArray).toList).map
      (·.2)).Nodup := by
  rw [Array.toList_append, ← List.append_assoc, List.map_append, List.nodup_append]
  refine ⟨h.nodup_rest.2, ?_, ?_⟩
  · refine List.Nodup.sublist (List.filter_sublist.map _) ?_
    rw [List.zipIdx_map_snd]
    exact List.nodup_range'
  · rintro x hx y hy rfl
    obtain ⟨⟨s', t'⟩, hmem, rfl⟩ := List.mem_map.1 hx
    obtain ⟨e, he, heq⟩ := List.mem_map.1 hy
    have hlt := (h.pending s' t' (List.mem_cons_of_mem _ hmem)).1
    have hle := List.le_snd_of_mem_zipIdx (List.mem_of_mem_filter he)
    rw [heq] at hle
    omega

/-- The state that gets its children is finished. -/
theorem exact_sprout_self :
    graph.state (extend f u.tree.size (graph.state s).transitions.dests t) =
      ((graph.sprout u.tree (graph.state s).transitions t).state t).mapDest
        (extend f u.tree.size (graph.state s).transitions.dests) := by
  obtain ⟨htlt, hft, -⟩ := h.pending s t (by simp)
  rw [state_sprout htlt, if_pos rfl, extend_of_lt htlt, hft, State.mapDest]
  simp only [Transitions.mapDest_consecutive fun i hi => extend_add hi, h.leaf _ htlt, hft]

theorem exact_sprout_old (hq : q < u.tree.size) (ht : t ≠ q)
    (hmem : q ∉ (rest ++ u.next.toList).map (·.2)) :
    graph.state (extend f u.tree.size (graph.state s).transitions.dests q) =
      ((graph.sprout u.tree (graph.state s).transitions t).state q).mapDest
        (extend f u.tree.size (graph.state s).transitions.dests) := by
  have hne : q ∉ ((s, t) :: rest ++ u.next.toList).map (·.2) := by
    rw [List.cons_append, List.map_cons, List.mem_cons, not_or]
    exact ⟨fun heq => ht heq.symm, hmem⟩
  rw [state_sprout hq, if_neg ht, extend_of_lt hq, h.exact q hq hne, State.mapDest, State.mapDest]
  congr 1
  refine Transitions.mapDest_congr fun c d he => ?_
  rw [extend_of_lt (h.target q c d he).2]

omit h in
/-- A child that does not lack children has none. -/
theorem exact_sprout_child {i : Nat} (hi : i < (graph.state s).transitions.dests.length)
    (hclosed : (graph.state (graph.state s).transitions.dests[i]).transitions.isEmpty = true) :
    graph.state (extend f u.tree.size (graph.state s).transitions.dests (u.tree.size + i)) =
      ((graph.sprout u.tree (graph.state s).transitions t).state (u.tree.size + i)).mapDest
        (extend f u.tree.size (graph.state s).transitions.dests) := by
  rw [extend_add hi, state_sprout_child hi]
  cases hstate : graph.state (graph.state s).transitions.dests[i] with
  | mk transitions leaf =>
    rw [hstate] at hclosed
    obtain rfl := Transitions.eq_empty_of_isEmpty hclosed
    rfl

theorem exact_sprout (hq : q < (graph.sprout u.tree (graph.state s).transitions t).size)
    (hmem : q ∉ (rest ++ (u.next ++
      (graph.openChildren (graph.state s).transitions.dests u.tree.size).toArray).toList).map
        (·.2)) :
    graph.state (extend f u.tree.size (graph.state s).transitions.dests q) =
      ((graph.sprout u.tree (graph.state s).transitions t).state q).mapDest
        (extend f u.tree.size (graph.state s).transitions.dests) := by
  by_cases hqb : q < u.tree.size
  · have hold : q ∉ (rest ++ u.next.toList).map (·.2) := by
      intro hq'
      obtain ⟨e, he, rfl⟩ := List.mem_map.1 hq'
      refine hmem (List.mem_map.2 ⟨e, ?_, rfl⟩)
      rw [List.mem_append] at he ⊢
      exact he.imp_right fun he => mem_next.2 (.inl he)
    by_cases htq : t = q
    · rw [← htq]
      exact h.exact_sprout_self
    · exact h.exact_sprout_old hqb htq hold
  · obtain ⟨i, hi, rfl⟩ := exists_child hqb hq
    refine exact_sprout_child hi ?_
    by_contra hopen
    refine hmem (List.mem_map.2 ⟨((graph.state s).transitions.dests[i], u.tree.size + i), ?_, rfl⟩)
    exact List.mem_append_right _ (mem_next.2 (.inr ⟨i, hi, rfl, by simpa using hopen⟩))

theorem target_sprout (he : (graph.sprout u.tree (graph.state s).transitions t).Edge p c q) :
    0 < q ∧ q < (graph.sprout u.tree (graph.state s).transitions t).size := by
  have hlen : (graph.state s).transitions.dests.length =
      (graph.state s).transitions.entries.length := by
    simp [Transitions.dests]
  have hpos := h.size_pos
  rw [size_sprout]
  by_cases htp : t = p
  · rw [← htp] at he
    obtain ⟨i, hi, -, rfl⟩ := (edge_sprout_self h.lt_of_head).1 he
    omega
  · have := h.target_of_ne htp he
    omega

theorem parent_unique_sprout {p' : Nat} {c' : ByteSet}
    (he : (graph.sprout u.tree (graph.state s).transitions t).Edge p c q)
    (he' : (graph.sprout u.tree (graph.state s).transitions t).Edge p' c' q) : p = p' ∧ c = c' := by
  by_cases hqb : q < u.tree.size
  · exact h.parent_unique p c p' c' q ((edge_sprout_ne (h.ne_of_edge_sprout hqb he)).1 he)
      ((edge_sprout_ne (h.ne_of_edge_sprout hqb he')).1 he')
  · have heq : ∀ p c, (graph.sprout u.tree (graph.state s).transitions t).Edge p c q → t = p := by
      intro p c he
      by_contra htp
      exact hqb (h.target_of_ne htp he).2
    obtain rfl := heq p c he
    obtain rfl := heq p' c' he'
    obtain ⟨i, hi, rfl, rfl⟩ := (edge_sprout_self h.lt_of_head).1 he
    obtain ⟨j, hj, rfl, hij⟩ := (edge_sprout_self h.lt_of_head).1 he'
    obtain rfl : i = j := by omega
    exact ⟨rfl, rfl⟩

theorem reached_sprout (hq : q < (graph.sprout u.tree (graph.state s).transitions t).size) :
    (graph.sprout u.tree (graph.state s).transitions t).Reaches 0 q := by
  have hreach : ∀ q, u.tree.Reaches 0 q →
      (graph.sprout u.tree (graph.state s).transitions t).Reaches 0 q :=
    fun _ => Reaches.mono_edge fun _ _ _ => h.edge_sprout_of_edge
  by_cases hqb : q < u.tree.size
  · exact hreach q (h.reached q hqb)
  · obtain ⟨i, hi, rfl⟩ := exists_child hqb hq
    rw [Transitions.dests, List.length_map] at hi
    exact (hreach t (h.reached t h.lt_of_head)).tail
      ⟨_, (edge_sprout_self h.lt_of_head).2 ⟨i, hi, rfl, rfl⟩⟩

/-- Giving a state its children keeps the invariant. -/
theorem step : ∃ g, Expanding graph k rest (graph.unfoldState u (s, t)) g := by
  rw [unfoldState_eq]
  refine ⟨extend f u.tree.size (graph.state s).transitions.dests,
    { size_pos := ?_
      root := ?_
      leaf := fun q => h.leaf_sprout
      pending := fun s' t' hmem => h.pending_sprout hmem
      nodup := h.nodup_sprout
      exact := fun q => h.exact_sprout
      target := fun p c q => h.target_sprout
      parent_unique := fun p c p' c' q => h.parent_unique_sprout
      reached := fun q => h.reached_sprout
      todo_depth := fun s' t' hmem => h.todo_depth s' t' (List.mem_cons_of_mem _ hmem)
      next_depth := ?_ }⟩
  · have hpos := h.size_pos
    rw [size_sprout]
    omega
  · rw [extend_of_lt h.size_pos, h.root]
  · intro s' t' hmem
    rcases mem_next.1 hmem with hmem | ⟨i, hi, heq, -⟩
    · exact h.next_depth s' t' hmem
    · obtain ⟨rfl, -⟩ := Prod.mk.inj heq
      exact (h.todo_depth s t (by simp)).snoc (mem_dests_iff.1 (List.getElem_mem hi))

end Step

theorem level (h : Expanding graph k todo u f) :
    ∃ g, Expanding graph k [] (todo.foldl graph.unfoldState u) g :=
  Loop.foldl_spec (fun u todo => ∃ f, Expanding graph k todo u f) (fun _ _ _ ⟨_, h⟩ => h.step) ⟨f, h⟩

theorem turn (h : Expanding graph k [] u f) :
    Expanding graph (k + 1) u.next.toList { u with next := #[] } f where
  size_pos := h.size_pos
  root := h.root
  leaf := h.leaf
  pending := by simpa using h.pending
  nodup := by simpa using h.nodup
  exact := by simpa using h.exact
  target := h.target
  parent_unique := h.parent_unique
  reached := h.reached
  todo_depth := h.next_depth
  next_depth := by simp

theorem unfolded (h : Expanding graph k [] u f) (hnext : u.next.toList = []) (hg : graph.Proper) :
    Unfolded graph u.tree f := by
  have hexact : ∀ q, q < u.tree.size → graph.state (f q) = (u.tree.state q).mapDest f :=
    fun q hq => h.exact q hq (by simp [hnext])
  have hedge : ∀ p c q, u.tree.Edge p c q → graph.Edge (f p) c (f q) := by
    intro p c q he
    rw [Edge, hexact p (lt_of_edge he)]
    exact Transitions.mem_mapDest.2 ⟨q, he, rfl⟩
  refine ⟨⟨⟨?_, ?_, ?_, ?_⟩, h.parent_unique, ?_, ?_, ?_⟩, h.reached, h.root, hexact⟩
  · exact fun p c q he => (h.target p c q he).2
  · exact fun p c q he => hg.label_nonempty _ _ _ (hedge p c q he)
  · exact fun p e he e' he' x hx hx' => hg.labels_disjoint (f p) (e.1, f e.2) (hedge _ _ _ he)
      (e'.1, f e'.2) (hedge _ _ _ he') x hx hx'
  · intro q leaf hleaf
    by_cases hq : q < u.tree.size
    · rw [h.leaf q hq] at hleaf
      exact hg.leaf_nonempty _ _ hleaf
    · rw [state_of_ge (Nat.le_of_not_lt hq)] at hleaf
      simp [State.hole] at hleaf
  · rintro r hr p ⟨c, he⟩
    have := (h.target p c r he).1
    rw [List.mem_singleton] at hr
    omega
  · intro r hr
    rw [List.mem_singleton.1 hr]
    exact h.size_pos
  · exact fun q hq _ => ⟨0, by simp, h.reached q hq⟩

end Expanding

/-- The tree has got to a level, with `n` more to come at most: the states of a level are at its depth in
the graph. -/
def UnfoldLoop (graph : Automaton) (n : Nat) (u : Unfolding) : Prop :=
  ∃ k f, n + k = graph.size ∧ Expanding graph k u.next.toList { u with next := #[] } f

section UnfoldLoop

variable (h : graph.Proper) (hacyc : graph.Acyclic) (hpos : 0 < graph.size)
include h hacyc hpos

theorem UnfoldLoop.step {n : Nat} (hu : UnfoldLoop graph n u) :
    Loop.Advances graph.unfoldStep (UnfoldLoop graph) (fun u => ∃ f, Unfolded graph u.tree f) n u := by
  obtain ⟨k, f, hn, hu⟩ := hu
  rw [Loop.Advances, unfoldStep]
  by_cases hnext : u.next.isEmpty = true
  · rw [if_pos hnext]
    have hnil : u.next.toList = [] := by
      rw [Array.isEmpty_iff.1 hnext]
    rw [hnil] at hu
    exact .inl ⟨u, rfl, f, hu.unfolded rfl h⟩
  · rw [if_neg hnext]
    have hk : k < graph.size := by
      obtain ⟨⟨s, t⟩, hmem⟩ : ∃ e, e ∈ u.next.toList := by
        refine List.exists_mem_of_ne_nil _ fun hnil => hnext ?_
        rw [Array.isEmpty_iff, ← Array.toList_eq_nil_iff, hnil]
      exact path_length_lt hacyc h.target_lt (hu.todo_depth s t hmem) hpos
    obtain ⟨g, hlevel⟩ := hu.level
    exact .inr ⟨n - 1, _, by omega, rfl, k + 1, g, by omega, hlevel.turn⟩

/-- Unfolding a graph without cycles ends. -/
theorem unfold_spec :
    (∃ u, Loop.Ends graph.unfoldStep graph.unfoldStart u ∧ graph.unfold = u.tree) ∧
      ∃ f, Unfolded graph graph.unfold f := by
  have hinit : UnfoldLoop graph graph.size graph.unfoldStart := ⟨0, _, rfl, .start graph⟩
  obtain ⟨hends, f, hf⟩ :=
    Loop.ends_run (fun _ _ hu => hu.step h hacyc hpos) hinit (Nat.lt_succ_self _)
  exact ⟨⟨_, hends, rfl⟩, f, hf⟩

end UnfoldLoop

namespace Unfolded

variable {tree : Automaton} (h : Unfolded graph tree f)
include h

theorem covers : Covers f tree graph (· < tree.size) :=
  .of_mapDest h.exact fun p c q _ he => h.forest.target_lt p c q he

theorem accepts_eq (w : List UInt8) : tree.accepts w = graph.accepts w := by
  rw [accepts, accepts, ← h.covers.acceptsFrom_eq (h.forest.root_lt 0 (by simp)), h.root]

/-- Each state of the tree leads to a leaf, as the state of the graph does that it stands for. -/
theorem productive (hg : graph.WellFormed) (hpos : 0 < graph.size) (hq : q < tree.size) :
    tree.Productive q := by
  refine h.covers.productive h.forest.toProper hg.toProper hq (hg.productive _ ?_)
  have hpath := h.covers.reaches h.forest.toProper (h.forest.root_lt 0 (by simp)) (h.full q hq)
  rw [h.root] at hpath
  exact hpath.lt hg.target_lt hpos

theorem wellFormed (hg : graph.WellFormed) (hpos : 0 < graph.size) : tree.WellFormed :=
  h.forest.wellFormed fun _ hq => h.productive hg hpos hq

theorem isTree (hg : graph.WellFormed) (hpos : 0 < graph.size) : tree.IsTree :=
  h.forest.isTree fun _ hq => h.productive hg hpos hq

end Unfolded
end Automaton
end ByteMatch
