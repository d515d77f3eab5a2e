import Mathlib.Data.List.Perm.Subperm
import Mathlib.Logic.Relation
import ByteMatch.Automaton
import ByteMatch.Loop
import ByteMatch.Proofs.Automaton.Transitions

/-!
# ByteMatch.Proofs.Automaton.Paths

The states of an automaton and the paths between them.

* `Automaton.state_modify`, `Automaton.state_push`, …: the states of a changed automaton. A number
  without a state stands for a hole, so holes at the end make no difference.
* `Automaton.Edge`, `Automaton.Reaches`, `Automaton.Path`: transitions and paths.
* `Automaton.path_length_lt`: without cycles, a path is shorter than the number of states.
-/

namespace ByteMatch

theorem State.isHole_iff {s : State} : s.isHole = true ↔ s = State.hole := by
  obtain ⟨t, leaf⟩ := s
  simp only [State.isHole, State.hole, Bool.and_eq_true, Option.isNone_iff_eq_none, State.mk.injEq]
  constructor
  · rintro ⟨ht, hl⟩
    exact ⟨Transitions.eq_empty_of_isEmpty ht, hl⟩
  · rintro ⟨rfl, rfl⟩
    exact ⟨rfl, rfl⟩

@[simp] theorem State.isHole_hole : State.hole.isHole = true := rfl

@[simp] theorem State.mapDest_hole {f : Nat → Nat} : State.hole.mapDest f = State.hole := rfl

namespace Automaton

variable {a b : Automaton} {p q r : Nat} {c c' : ByteSet}

/-! ## States -/

theorem state_eq_getD : a.state q = (a[q]?).getD State.hole := by
  rw [state, Array.getD_eq_getD_getElem?]

theorem state_of_lt (h : q < a.size) : a.state q = a[q] := by
  rw [state_eq_getD, Array.getElem?_eq_getElem h, Option.getD_some]

theorem state_of_ge (h : a.size ≤ q) : a.state q = State.hole := by
  rw [state_eq_getD, Array.getElem?_eq_none h, Option.getD_none]

theorem lt_of_not_isHole (h : (a.state q).isHole = false) : q < a.size := by
  by_contra hq
  rw [state_of_ge (Nat.le_of_not_lt hq)] at h
  simp at h

theorem ext_state (hsize : a.size = b.size) (h : ∀ q, a.state q = b.state q) : a = b := by
  apply Array.ext hsize
  intro q ha hb
  rw [← state_of_lt ha, ← state_of_lt hb, h q]

theorem state_push {s : State} : state (a.push s) q = if q = a.size then s else a.state q := by
  rw [state_eq_getD, state_eq_getD, Array.getElem?_push]
  split <;> simp

theorem state_push_hole : state (a.push State.hole) q = a.state q := by
  rw [state_push]
  split
  · rename_i h
    rw [h, state_of_ge (Nat.le_refl _)]
  · rfl

theorem state_append_holes {n : Nat} : state (a ++ Array.replicate n State.hole) q = a.state q := by
  rw [state_eq_getD, state_eq_getD, Array.getElem?_append]
  split
  · rfl
  · rename_i h
    rw [Array.getElem?_eq_none (Nat.le_of_not_lt h), Array.getElem?_replicate]
    split <;> rfl

theorem state_modify {f : State → State} :
    state (a.modify p f) q = if p = q ∧ q < a.size then f (a.state q) else a.state q := by
  rw [state_eq_getD, state_eq_getD, Array.getElem?_modify]
  by_cases hq : q < a.size
  · rw [Array.getElem?_eq_getElem hq]
    by_cases hpq : p = q <;> simp [hpq, hq]
  · rw [Array.getElem?_eq_none (Nat.le_of_not_lt hq)]
    by_cases hpq : p = q <;> simp [hpq, hq]

theorem state_modify_self {f : State → State} (h : p < a.size) :
    state (a.modify p f) p = f (a.state p) := by
  rw [state_modify, if_pos ⟨rfl, h⟩]

theorem state_modify_ne {f : State → State} (h : p ≠ q) : state (a.modify p f) q = a.state q := by
  rw [state_modify, if_neg fun h' => h h'.1]

theorem transitions_modify {f : State → State} (h : ∀ s, (f s).transitions = s.transitions) :
    (state (a.modify p f) q).transitions = (a.state q).transitions := by
  rw [state_modify]
  split
  · exact h _
  · rfl

theorem leaf_modify {f : State → State} (h : ∀ s, (f s).leaf = s.leaf) :
    (state (a.modify p f) q).leaf = (a.state q).leaf := by
  rw [state_modify]
  split
  · exact h _
  · rfl

theorem transitions_addLeaf :
    (state (a.modify p (·.addLeaf c)) q).transitions = (a.state q).transitions :=
  transitions_modify fun _ => rfl

theorem leaf_addTransition :
    (state (a.modify p (·.addTransition c r)) q).leaf = (a.state q).leaf :=
  leaf_modify fun _ => rfl

theorem leaf_eraseTransition :
    (state (a.modify p (·.eraseTransition c)) q).leaf = (a.state q).leaf :=
  leaf_modify fun _ => rfl

theorem modify_id : a.modify q id = a :=
  ext_state Array.size_modify fun p => by rw [state_modify, id, ite_self]

theorem state_setIfInBounds {s : State} :
    state (a.setIfInBounds p s) q = if p = q ∧ q < a.size then s else a.state q := by
  rw [state_eq_getD, state_eq_getD, Array.getElem?_setIfInBounds]
  by_cases hpq : p = q
  · subst hpq
    by_cases hp : p < a.size
    · simp [hp]
    · simp [hp]
  · simp [hpq]

theorem state_map {f : State → State} (hf : f State.hole = State.hole) :
    state (a.map f) q = f (a.state q) := by
  rw [state_eq_getD, state_eq_getD, Array.getElem?_map]
  cases a[q]? <;> simp [hf]

theorem countP_states (p : State → Bool) :
    a.countP p = (List.range a.size).countP fun q => p (a.state q) := by
  have hmap : a.toList = (List.range a.size).map a.state := by
    refine List.ext_getElem (by simp) fun i hi hi' => ?_
    simp only [Array.length_toList] at hi
    rw [Array.getElem_toList, List.getElem_map, List.getElem_range, state_of_lt hi]
  rw [← Array.countP_toList, hmap, List.countP_map]
  rfl

/-- The rule for a loop over the states. `Inv i s` says that the invariant holds in `s` when the
states below `i` have been met. -/
theorem foldl_states {σ : Type} {f : σ → State × Nat → σ} (Inv : Nat → σ → Prop)
    (hstep : ∀ q s, q < a.size → Inv q s → Inv (q + 1) (f s (a.state q, q))) {s : σ}
    (h : Inv 0 s) : Inv a.size (a.toList.zipIdx.foldl f s) := by
  -- by induction on the number of the states that are left
  have hrest : ∀ n i s, i + n = a.size → Inv i s →
      Inv a.size (((a.toList.drop i).zipIdx i).foldl f s) := by
    intro n
    induction n with
    | zero =>
      intro i s hi hinv
      rw [List.drop_of_length_le (by simp; omega), List.zipIdx_nil, List.foldl_nil]
      rwa [← hi]
    | succ n ih =>
      intro i s hi hinv
      have hlt : i < a.size := by omega
      rw [List.drop_eq_getElem_cons (by simpa using hlt), List.zipIdx_cons, List.foldl_cons,
        Array.getElem_toList, ← state_of_lt hlt]
      exact ih (i + 1) _ (by omega) (hstep i s hlt hinv)
  exact hrest a.size 0 s (Nat.zero_add _) h

/-! ## Transitions and paths -/

/-- A transition from `p` to `q` with the label `c`. -/
def Edge (a : Automaton) (p : Nat) (c : ByteSet) (q : Nat) : Prop :=
  (c, q) ∈ (a.state p).transitions.entries

/-- A transition from `p` to `q`. -/
def Child (a : Automaton) (p q : Nat) : Prop := ∃ c, a.Edge p c q

/-- A path from `p` to `q`, which may be empty. -/
def Reaches (a : Automaton) : Nat → Nat → Prop := Relation.ReflTransGen a.Child

/-- No path of at least one transition leads back to its start. -/
def Acyclic (a : Automaton) : Prop := ∀ q, ¬ Relation.TransGen a.Child q q

/-- A path of `k` transitions. -/
inductive Path (a : Automaton) (p : Nat) : Nat → Nat → Prop where
  | nil : Path a p 0 p
  | snoc {k q r : Nat} : Path a p k q → a.Child q r → Path a p (k + 1) r

theorem lt_of_edge (h : a.Edge p c q) : p < a.size := by
  by_contra hp
  rw [Edge, state_of_ge (Nat.le_of_not_lt hp)] at h
  simp [State.hole] at h

theorem edge_addTransition {dest : Nat} (hq : q < a.size) :
    Edge (a.modify q (·.addTransition c' dest)) p c r ↔
      (p = q ∧ c = c' ∧ r = dest) ∨ (a.Edge p c r ∧ ¬ (p = q ∧ c = c')) := by
  by_cases hp : q = p
  · subst hp
    rw [Edge, state_modify_self hq]
    simp [State.addTransition, Edge]
  · rw [Edge, state_modify_ne hp, Edge]
    simp [Ne.symm hp]

theorem edge_eraseTransition : Edge (a.modify q (·.eraseTransition c')) p c r ↔
    a.Edge p c r ∧ ¬ (p = q ∧ c = c') := by
  by_cases hp : q = p
  · subst hp
    by_cases hq : q < a.size
    · rw [Edge, state_modify_self hq]
      simp [State.eraseTransition, Edge]
    · have hnot : ∀ b : Automaton, b.size = a.size → ¬ b.Edge q c r :=
        fun b hb he => hq (hb ▸ lt_of_edge he)
      exact iff_of_false (hnot _ (by simp)) fun he => hnot _ rfl he.1
  · rw [Edge, state_modify_ne hp, Edge]
    simp [Ne.symm hp]

theorem lt_of_leaf {leaf : ByteSet} (h : (a.state q).leaf = some leaf) : q < a.size := by
  by_contra hq
  rw [state_of_ge (Nat.le_of_not_lt hq)] at h
  cases h

theorem mem_dests_iff : q ∈ (a.state p).transitions.dests ↔ a.Child p q := Transitions.mem_dests

theorem not_isHole_of_edge (h : a.Edge p c q) : (a.state p).isHole = false := by
  rw [← Bool.not_eq_true, State.isHole_iff]
  intro hp
  rw [Edge, hp] at h
  simp [State.hole] at h

theorem Path.reaches {k : Nat} (h : a.Path p k q) : a.Reaches p q := by
  induction h with
  | nil => exact .refl
  | snoc _ hchild ih => exact ih.tail hchild

theorem Reaches.path (h : a.Reaches p q) : ∃ k, a.Path p k q := by
  induction h with
  | refl => exact ⟨0, .nil⟩
  | tail _ hchild ih =>
    obtain ⟨k, hk⟩ := ih
    exact ⟨k + 1, hk.snoc hchild⟩

theorem Reaches.mono (h : ∀ p q, a.Child p q → b.Child p q) (hpath : a.Reaches p q) :
    b.Reaches p q := by
  induction hpath with
  | refl => exact .refl
  | tail _ hchild ih => exact ih.tail (h _ _ hchild)

theorem Reaches.mono_edge (h : ∀ p c q, a.Edge p c q → b.Edge p c q) (hpath : a.Reaches p q) :
    b.Reaches p q := hpath.mono fun p q => Exists.imp fun c => h p c q

theorem Reaches.lt (htarget : ∀ p c q, a.Edge p c q → q < a.size) (h : a.Reaches p q)
    (hp : p < a.size) : q < a.size := by
  induction h with
  | refl => exact hp
  | tail _ hchild _ => exact htarget _ _ _ hchild.choose_spec

/-- The states on a path are different from each other, and all of them reach its end. -/
theorem Path.exists_nodup (hacyc : a.Acyclic) (htarget : ∀ p c q, a.Edge p c q → q < a.size)
    {k : Nat} (h : a.Path p k q) (hp : p < a.size) :
    ∃ l : List Nat, l.length = k + 1 ∧ l.Nodup ∧ ∀ x ∈ l, x < a.size ∧ a.Reaches x q := by
  induction h with
  | nil => exact ⟨[p], rfl, by simp, by simpa using ⟨hp, .refl⟩⟩
  | @snoc k q r _ hchild ih =>
    obtain ⟨l, hlen, hnodup, hl⟩ := ih
    have hr : r ∉ l := fun hmem => hacyc r (Relation.TransGen.tail' (hl r hmem).2 hchild)
    refine ⟨r :: l, by simp [hlen], List.nodup_cons.2 ⟨hr, hnodup⟩, ?_⟩
    intro x hx
    rcases List.mem_cons.1 hx with rfl | hx
    · exact ⟨htarget _ _ _ hchild.choose_spec, .refl⟩
    · exact ⟨(hl x hx).1, (hl x hx).2.tail hchild⟩

theorem length_le_of_nodup {l : List Nat} {n : Nat} (hnodup : l.Nodup) (hl : ∀ x ∈ l, x < n) :
    l.length ≤ n := by
  have hsub : l ⊆ List.range n := fun x hx => List.mem_range.2 (hl x hx)
  simpa using (hnodup.subperm hsub).length_le

theorem path_length_lt (hacyc : a.Acyclic) (htarget : ∀ p c q, a.Edge p c q → q < a.size)
    {k : Nat} (h : a.Path p k q) (hp : p < a.size) : k < a.size := by
  obtain ⟨l, hlen, hnodup, hl⟩ := h.exists_nodup hacyc htarget hp
  have := length_le_of_nodup hnodup fun x hx => (hl x hx).1
  omega

end Automaton
end ByteMatch
