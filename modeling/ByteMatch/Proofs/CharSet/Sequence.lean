import ByteMatch.Proofs.CharSet.Combination

/-!
# ByteMatch.Proofs.CharSet.Sequence

Characters of one set, each followed by a character of another one.

* `Automaton.Unambiguous`: no byte both ends a character in a state and leads on from there.
* `Automaton.Unambiguous.eq_nil`, `Automaton.unambiguous_of_prefix_free`: that is to say, no character
  starts with another one, so that it depends only on what is accepted.
* `Automaton.wellFormed_joined`: the graphs of both sets, the leaves of the first one leading to the
  second one.
* `CharSet.wellFormed_sequence`.
-/

namespace ByteMatch
namespace Automaton

variable {a b left right : Automaton} {p q r base : Nat} {c : ByteSet} {x : UInt8} {u v w : List UInt8}

/-! ## Unambiguous automata -/

/-- No byte of a leaf is in a label that leaves the state. -/
def Unambiguous (a : Automaton) : Prop :=
  ∀ p c q leaf, a.Edge p c q → (a.state p).leaf = some leaf → ∀ x, x ∈ c → x ∉ leaf

/-- What is accepted from a state does not start with something else that is accepted from it. -/
theorem Unambiguous.eq_nil (h : a.Unambiguous) (hu : a.acceptsFrom q u = true)
    (huv : a.acceptsFrom q (u ++ v) = true) : v = [] := by
  induction u generalizing q with
  | nil => simp [acceptsFrom] at hu
  | cons x u ih =>
    cases u with
    | nil =>
      cases v with
      | nil => rfl
      | cons y v =>
        rw [acceptsFrom_singleton, completes_iff] at hu
        obtain ⟨leaf, hleaf, hx⟩ := hu
        rw [List.singleton_append, acceptsFrom_cons (by simp)] at huv
        cases hstep : (a.state q).transitions.step? x with
        | none => simp [hstep] at huv
        | some next =>
          obtain ⟨c, hxc, he⟩ := Transitions.exists_of_step? hstep
          exact absurd hx (h q c next leaf he hleaf x hxc)
    | cons y u =>
      rw [List.cons_append, acceptsFrom_cons (by simp)] at huv
      rw [acceptsFrom_cons (by simp)] at hu
      cases hstep : (a.state q).transitions.step? x with
      | none => simp [hstep] at hu
      | some next =>
        rw [hstep] at hu huv
        exact ih hu huv

/-- The bytes on a path lead to its end. -/
theorem exists_word (h : a.Proper) (hpath : a.Reaches p q) :
    ∃ u, ∀ w, w ≠ [] → a.acceptsFrom p (u ++ w) = a.acceptsFrom q w := by
  induction hpath with
  | refl => exact ⟨[], fun w _ => rfl⟩
  | @tail q r _ hchild ih =>
    obtain ⟨u, hu⟩ := ih
    obtain ⟨c, he⟩ := hchild
    obtain ⟨x, hx⟩ := h.label_nonempty q c r he
    refine ⟨u ++ [x], fun w hw => ?_⟩
    rw [List.append_assoc, hu _ (by simp), List.singleton_append,
      acceptsFrom_of_step (h.step?_iff.2 ⟨c, hx, he⟩) hw]

/-- If no string that is accepted starts with another one, then no byte both ends a character in a state
and leads on from there. -/
theorem unambiguous_of_prefix_free (h : a.WellFormed)
    (hfree : ∀ u v, a.accepts u = true → a.accepts (u ++ v) = true → v = []) : a.Unambiguous := by
  -- otherwise the bytes of some character would be the start of another one
  intro p c q leaf he hleaf x hx hx'
  obtain ⟨u, hu⟩ := exists_word h.toProper (h.reachable p (lt_of_edge he))
  obtain ⟨v, hv⟩ := h.productive_iff.1 (h.productive q (h.target_lt p c q he))
  have hshort : a.accepts (u ++ [x]) = true := by
    rw [accepts, hu _ (by simp), acceptsFrom_singleton, completes_iff]
    exact ⟨leaf, hleaf, hx'⟩
  have hlong : a.accepts (u ++ [x] ++ v) = true := by
    rw [accepts, List.append_assoc, hu _ (by simp), List.singleton_append,
      acceptsFrom_of_step (h.step?_iff.2 ⟨c, hx, he⟩) (ne_nil_of_acceptsFrom hv), hv]
  exact ne_nil_of_acceptsFrom hv (hfree _ _ hshort hlong)

theorem Unambiguous.of_same (h : a.Unambiguous) (hb : b.WellFormed)
    (hsame : ∀ w, b.accepts w = a.accepts w) : b.Unambiguous :=
  unambiguous_of_prefix_free hb fun u v hu huv =>
    h.eq_nil (by rwa [hsame] at hu) (by rwa [hsame] at huv)

/-! ## Two automata, one after the other -/

/-- A state whose leaf leads on to state `base`. -/
def openLeaf (base : Nat) (s : State) : State :=
  match s.leaf with
  | some leaf => { s.addTransition leaf base with leaf := none }
  | none => s

/-- Both automata, with the second one after the first one. -/
def joined (left right : Automaton) : Automaton :=
  left.map (openLeaf left.size) ++ right.map (·.mapDest (· + left.size))

theorem size_joined : (joined left right).size = left.size + right.size := by
  rw [joined, Array.size_append, Array.size_map, Array.size_map]

theorem state_joined_left (hq : q < left.size) :
    (joined left right).state q = openLeaf left.size (left.state q) := by
  rw [state_eq_getD, joined, Array.getElem?_append_left (by rwa [Array.size_map]), Array.getElem?_map,
    Array.getElem?_eq_getElem hq, Option.map_some, Option.getD_some, state_of_lt hq]

theorem state_joined_right :
    (joined left right).state (left.size + q) = (right.state q).mapDest (· + left.size) := by
  have hindex : left.size + q - (left.map (openLeaf left.size)).size = q := by
    rw [Array.size_map]
    omega
  rw [← state_map (a := right) State.mapDest_hole, state_eq_getD, joined,
    Array.getElem?_append_right (by rw [Array.size_map]; omega), hindex, state_eq_getD]

theorem leaf_openLeaf {s : State} : (openLeaf base s).leaf = none := by
  rw [openLeaf]
  split
  · rfl
  · assumption

theorem edge_joined_right : (joined left right).Edge (left.size + p) c r ↔
    ∃ q, r = left.size + q ∧ right.Edge p c q := by
  rw [Edge, state_joined_right, State.mapDest, Transitions.mem_mapDest]
  constructor
  · intro h
    obtain ⟨q, he, rfl⟩ := h
    exact ⟨q, Nat.add_comm q left.size, he⟩
  · intro h
    obtain ⟨q, rfl, he⟩ := h
    exact ⟨q, he, Nat.add_comm q left.size⟩

theorem reaches_joined_right (h : right.Reaches p q) :
    (joined left right).Reaches (left.size + p) (left.size + q) :=
  h.lift (left.size + ·) fun _ q hchild => hchild.imp fun _ he => edge_joined_right.2 ⟨q, rfl, he⟩

section Joined

variable (hl : left.WellFormed) (hclear : left.Unambiguous)
include hl hclear

theorem edge_joined_left (hp : p < left.size) : (joined left right).Edge p c r ↔
    left.Edge p c r ∨ ((left.state p).leaf = some c ∧ r = left.size) := by
  rw [Edge, state_joined_left hp, openLeaf]
  cases hleaf : (left.state p).leaf with
  | none => simp [Edge]
  | some leaf =>
    simp only [State.addTransition, Transitions.mem_insert, Prod.mk.injEq, Option.some.injEq]
    constructor
    · intro h
      cases h with
      | inl h => exact .inr ⟨h.1.symm, h.2⟩
      | inr h => exact .inl h.1
    · intro h
      cases h with
      | inl he =>
        -- the leaf replaces no label, as it has no byte in common with them
        refine .inr ⟨he, fun heq => ?_⟩
        obtain ⟨x, hx⟩ := hl.label_nonempty p c r he
        exact hclear p c r leaf he hleaf x hx (heq ▸ hx)
      | inr h => exact .inl ⟨h.1.symm, h.2⟩

theorem reaches_joined_left (h : left.Reaches p q) : (joined left right).Reaches p q :=
  h.mono_edge fun _ _ _ he => (edge_joined_left hl hclear (lt_of_edge he)).2 (.inl he)

theorem reaches_joined_root (hp : p < left.size) : (joined left right).Reaches p left.size := by
  obtain ⟨t, leaf, hpath, hleaf⟩ := hl.productive p hp
  exact (reaches_joined_left hl hclear hpath).tail
    ⟨leaf, (edge_joined_left hl hclear (lt_of_leaf hleaf)).2 (.inr ⟨hleaf, rfl⟩)⟩

theorem edge_joined (he : (joined left right).Edge p c r) :
    (p < left.size ∧ (left.Edge p c r ∨ ((left.state p).leaf = some c ∧ r = left.size))) ∨
      ∃ p' r', p = left.size + p' ∧ r = left.size + r' ∧ right.Edge p' c r' := by
  by_cases hp : p < left.size
  · exact .inl ⟨hp, (edge_joined_left hl hclear hp).1 he⟩
  · obtain ⟨p', rfl⟩ : ∃ p', p = left.size + p' := ⟨p - left.size, by omega⟩
    obtain ⟨r', hr', he'⟩ := edge_joined_right.1 he
    exact .inr ⟨p', r', rfl, hr', he'⟩

variable (hr : right.WellFormed)
include hr

theorem proper_joined (hpos : 0 < right.size) : (joined left right).Proper where
  target_lt p c r he := by
    rw [size_joined]
    cases edge_joined hl hclear he with
    | inl he =>
      cases he.2 with
      | inl he => exact Nat.lt_of_lt_of_le (hl.target_lt p c r he) (Nat.le_add_right _ _)
      | inr he => omega
    | inr he =>
      obtain ⟨p', r', -, rfl, hedge⟩ := he
      have := hr.target_lt p' c r' hedge
      omega
  label_nonempty p c r he := by
    cases edge_joined hl hclear he with
    | inl he =>
      cases he.2 with
      | inl he => exact hl.label_nonempty p c r he
      | inr he => exact hl.leaf_nonempty p c he.1
    | inr he =>
      obtain ⟨p', r', -, -, he⟩ := he
      exact hr.label_nonempty p' c r' he
  labels_disjoint p := by
    intro e he e' he' x hx hx'
    by_cases hp : p < left.size
    · cases (edge_joined_left hl hclear hp).1 he with
      | inl hold =>
        cases (edge_joined_left hl hclear hp).1 he' with
        | inl hold' => exact hl.labels_disjoint p e hold e' hold' x hx hx'
        | inr hleaf => exact absurd hx' (hclear p e.1 e.2 e'.1 hold hleaf.1 x hx)
      | inr hleaf =>
        cases (edge_joined_left hl hclear hp).1 he' with
        | inl hold' => exact absurd hx (hclear p e'.1 e'.2 e.1 hold' hleaf.1 x hx')
        | inr hleaf' =>
          have heq := hleaf.1.symm.trans hleaf'.1
          exact Option.some.inj heq
    · obtain ⟨p', rfl⟩ : ∃ p', p = left.size + p' := ⟨p - left.size, by omega⟩
      obtain ⟨q, -, hold⟩ := edge_joined_right.1 he
      obtain ⟨q', -, hold'⟩ := edge_joined_right.1 he'
      exact hr.labels_disjoint p' (e.1, q) hold (e'.1, q') hold' x hx hx'
  leaf_nonempty p leaf hleaf := by
    by_cases hp : p < left.size
    · rw [state_joined_left hp, leaf_openLeaf] at hleaf
      cases hleaf
    · obtain ⟨p', rfl⟩ : ∃ p', p = left.size + p' := ⟨p - left.size, by omega⟩
      rw [state_joined_right] at hleaf
      exact hr.leaf_nonempty p' leaf hleaf

theorem acyclic_joined : (joined left right).Acyclic := by
  -- no path leads back from the second automaton, so that a cycle would be in one of them
  have hpath : ∀ {p r}, Relation.TransGen (joined left right).Child p r →
      (r < left.size → Relation.TransGen left.Child p r) ∧
      ∀ p', p = left.size + p' → ∃ r', r = left.size + r' ∧ Relation.TransGen right.Child p' r' := by
    intro p r hpath
    induction hpath with
    | single hchild =>
      obtain ⟨c, he⟩ := hchild
      cases edge_joined hl hclear he with
      | inl he =>
        refine ⟨fun hlt => ?_, fun p' hp' => by omega⟩
        cases he.2 with
        | inl he => exact .single ⟨c, he⟩
        | inr he => omega
      | inr he =>
        obtain ⟨p', r', rfl, rfl, hedge⟩ := he
        refine ⟨fun hlt => by omega, fun p'' hp'' => ⟨r', rfl, ?_⟩⟩
        obtain rfl : p' = p'' := by omega
        exact .single ⟨c, hedge⟩
    | tail _ hchild ih =>
      obtain ⟨c, he⟩ := hchild
      cases edge_joined hl hclear he with
      | inl he =>
        refine ⟨fun hlt => ?_, fun p' hp' => ?_⟩
        · cases he.2 with
          | inl hold => exact (ih.1 he.1).tail ⟨c, hold⟩
          | inr hleaf => omega
        · obtain ⟨r', hr', -⟩ := ih.2 p' hp'
          omega
      | inr he =>
        obtain ⟨q', r', rfl, rfl, hedge⟩ := he
        refine ⟨fun hlt => by omega, fun p' hp' => ⟨r', rfl, ?_⟩⟩
        obtain ⟨q'', hq'', hrest⟩ := ih.2 p' hp'
        obtain rfl : q' = q'' := by omega
        exact hrest.tail ⟨c, hedge⟩
  intro q hcycle
  by_cases hq : q < left.size
  · exact hl.acyclic q ((hpath hcycle).1 hq)
  · obtain ⟨q', rfl⟩ : ∃ q', q = left.size + q' := ⟨q - left.size, by omega⟩
    obtain ⟨r', hr', hback⟩ := (hpath hcycle).2 q' rfl
    obtain rfl : q' = r' := by omega
    exact hr.acyclic q' hback

theorem wellFormed_joined (hlpos : 0 < left.size) (hrpos : 0 < right.size) :
    (joined left right).WellFormed where
  toProper := proper_joined hl hclear hr hrpos
  acyclic := acyclic_joined hl hclear hr
  reachable q hq := by
    by_cases hq' : q < left.size
    · exact reaches_joined_left hl hclear (hl.reachable q hq')
    · obtain ⟨q', rfl⟩ : ∃ q', q = left.size + q' := ⟨q - left.size, by omega⟩
      rw [size_joined] at hq
      exact (reaches_joined_root hl hclear hlpos).trans
        (reaches_joined_right (hr.reachable q' (by omega)))
  productive q hq := by
    have hright : ∀ p, p < right.size → (joined left right).Productive (left.size + p) := by
      intro p hp
      obtain ⟨t, leaf, hpath, hleaf⟩ := hr.productive p hp
      exact ⟨left.size + t, leaf, reaches_joined_right hpath, by rw [state_joined_right]; exact hleaf⟩
    by_cases hq' : q < left.size
    · obtain ⟨t, leaf, hpath, hleaf⟩ := hright 0 hrpos
      exact ⟨t, leaf, (reaches_joined_root hl hclear hq').trans hpath, hleaf⟩
    · obtain ⟨q', rfl⟩ : ∃ q', q = left.size + q' := ⟨q - left.size, by omega⟩
      rw [size_joined] at hq
      exact hright q' (by omega)

end Joined
end Automaton

namespace CharSet

open Automaton

variable {a b c : CharSet}

theorem size_toGraph_pos (h : c.WellFormed) (hne : c.isEmpty = false) : 0 < c.toGraph.states.size := by
  obtain ⟨w, hw⟩ := h.states.productive_iff.1 (h.states.productive 0 (size_pos_iff.2 hne))
  refine size_pos_of_accepts (w := w) ?_
  rw [(wellFormed_toGraph h).2]
  exact hw

theorem sequence_eq (he : a.encoding = b.encoding) (ha : a.isEmpty = false) (hb : b.isEmpty = false) :
    a.sequence b = .ok { a with
      states := joined a.toGraph.states b.toGraph.states
      form := if (joined a.toGraph.states b.toGraph.states).size < 2 then .tree else .graph } := by
  rw [sequence, hb, if_neg (by simp), sameEncoding_of_eq he]
  show (if a.isEmpty = true then _ else _) = _
  rw [ha, if_neg (by simp)]
  rfl

/-- The sequence of two sets is well-formed if no byte both ends a character of the first set and leads
on from there. -/
theorem wellFormed_sequence (ha : a.WellFormed) (hb : b.WellFormed) (hclear : a.states.Unambiguous)
    (h : a.sequence b = .ok c) : c.WellFormed := by
  cases hbempty : b.isEmpty with
  | true =>
    rw [sequence, hbempty, if_pos rfl] at h
    cases h
    exact ha
  | false =>
    have he : a.encoding = b.encoding := by
      rw [sequence, hbempty, if_neg (by simp)] at h
      exact encoding_of_ok h
    cases haempty : a.isEmpty with
    | true =>
      rw [sequence, hbempty, if_neg (by simp), sameEncoding_of_eq he] at h
      have h : (if a.isEmpty = true then .ok b.toGraph else _) = Except.ok c := h
      rw [haempty, if_pos rfl] at h
      cases h
      exact (wellFormed_toGraph hb).1
    | false =>
      obtain ⟨hawf, hasame⟩ := wellFormed_toGraph ha
      have hwf := wellFormed_joined hawf.states (hclear.of_same hawf.states hasame)
        (wellFormed_toGraph hb).1.states (size_toGraph_pos ha haempty) (size_toGraph_pos hb hbempty)
      rw [sequence_eq he haempty hbempty] at h
      cases h
      refine ⟨hwf, fun hform => ?_⟩
      by_cases hsize : (joined a.toGraph.states b.toGraph.states).size < 2
      · exact isTree_of_size_lt hsize
      · simp only [hsize, if_false] at hform
        cases hform

end CharSet
end ByteMatch
