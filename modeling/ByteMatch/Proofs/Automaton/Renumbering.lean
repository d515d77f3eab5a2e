import ByteMatch.Proofs.Automaton.Forest

/-!
# ByteMatch.Proofs.Automaton.Renumbering

The same automaton with other numbers for its states, and without the states that do not count.

* `Automaton.Renumbering`: the old and the new numbers, and how the states correspond.
* `Automaton.Renumbering.covers`, `Automaton.Renumbering.covers_back`: both numberings accept the
  same.
* `Automaton.Renumbering.forest`: a tree stays a tree.
* `Automaton.Refines`: a tree that covers another tree, as trees do while they are changed.
-/

namespace ByteMatch
namespace Automaton

variable {tree a b : Automaton} {on : Nat → Prop} {holes : Bool} {σ τ : Nat → Nat} {p q r : Nat} {c : ByteSet}

/-- The states of `a` that satisfy `on` have the numbers that `σ` gives in `b`, and no other states
are in `b`. The old numbers are given by `τ`. -/
structure Renumbering (on : Nat → Prop) (a b : Automaton) (σ τ : Nat → Nat) : Prop where
  lt : ∀ q, on q → σ q < b.size
  on_back : ∀ p, p < b.size → on (τ p)
  left_inv : ∀ q, on q → τ (σ q) = q
  right_inv : ∀ p, p < b.size → σ (τ p) = p
  state : ∀ q, on q → b.state (σ q) = (a.state q).mapDest σ
  closed : ∀ p c q, on p → a.Edge p c q → on q

namespace Renumbering

theorem state_back (h : Renumbering on a b σ τ) (hp : p < b.size) :
    b.state p = (a.state (τ p)).mapDest σ := by
  rw [← h.state _ (h.on_back p hp), h.right_inv p hp]

theorem edge (h : Renumbering on a b σ τ) (hp : on p) (he : a.Edge p c q) :
    b.Edge (σ p) c (σ q) := by
  rw [Edge, h.state p hp]
  exact Transitions.mem_mapDest.2 ⟨q, he, rfl⟩

theorem edge_back (h : Renumbering on a b σ τ) (he : b.Edge p c q) :
    p < b.size ∧ q < b.size ∧ a.Edge (τ p) c (τ q) := by
  have hp := lt_of_edge he
  have hon := h.on_back p hp
  rw [Edge, h.state_back hp] at he
  obtain ⟨q', he', rfl⟩ := Transitions.mem_mapDest.1 he
  have hq' := h.closed _ _ _ hon he'
  exact ⟨hp, h.lt _ hq', by rwa [h.left_inv _ hq']⟩

theorem reaches (h : Renumbering on a b σ τ) (hp : on p) (hpath : a.Reaches p q) :
    on q ∧ b.Reaches (σ p) (σ q) := by
  induction hpath with
  | refl => exact ⟨hp, .refl⟩
  | tail _ hchild ih =>
    obtain ⟨c, he⟩ := hchild
    exact ⟨h.closed _ _ _ ih.1 he, ih.2.tail ⟨c, h.edge ih.1 he⟩⟩

theorem covers (h : Renumbering on a b σ τ) : Covers σ a b on := .of_mapDest h.state h.closed

theorem covers_back (h : Renumbering on a b σ τ) : Covers τ b a (· < b.size) := by
  refine .of_mapDest (fun p hp => ?_) fun p c q _ he => (h.edge_back he).2.1
  rw [h.state_back hp, State.mapDest, State.mapDest, Transitions.mapDest_mapDest,
    Transitions.mapDest_eq_self]
  exact fun c q he => h.left_inv q (h.closed _ _ _ (h.on_back p hp) he)

theorem proper (h : Renumbering on a b σ τ) (ha : a.Proper) : b.Proper where
  target_lt p c q he := (h.edge_back he).2.1
  label_nonempty p c q he := ha.label_nonempty _ _ _ (h.edge_back he).2.2
  labels_disjoint p e he e' he' x hx hx' :=
    ha.labels_disjoint (τ p) (e.1, τ e.2) (h.edge_back he).2.2 (e'.1, τ e'.2) (h.edge_back he').2.2
      x hx hx'
  leaf_nonempty p leaf hleaf := by
    by_cases hp : p < b.size
    · rw [h.state_back hp] at hleaf
      exact ha.leaf_nonempty _ _ hleaf
    · rw [state_of_ge (Nat.le_of_not_lt hp)] at hleaf
      simp [State.hole] at hleaf

theorem acyclic (h : Renumbering on a b σ τ) (ha : a.Acyclic) : b.Acyclic := fun q hcycle =>
  ha (τ q) (hcycle.lift τ fun _ _ ⟨c, he⟩ => ⟨c, (h.edge_back he).2.2⟩)

theorem injective (h : Renumbering on a b σ τ) (hp : on p) (hq : on q) (heq : σ p = σ q) :
    p = q := by
  rw [← h.left_inv p hp, heq, h.left_inv q hq]

theorem injective_back (h : Renumbering on a b σ τ) (hp : p < b.size) (hq : q < b.size)
    (heq : τ p = τ q) : p = q := by
  rw [← h.right_inv p hp, heq, h.right_inv q hq]

theorem forest (h : Renumbering (a.Reaches r) a b σ τ) (ha : a.Forest [r]) (hr : σ r = 0) :
    b.Forest [0] where
  toProper := h.proper ha.toProper
  parent_unique p c p' c' q he he' := by
    obtain ⟨hp, -, he⟩ := h.edge_back he
    obtain ⟨hp', -, he'⟩ := h.edge_back he'
    obtain ⟨heq, rfl⟩ := ha.parent_unique _ _ _ _ _ he he'
    exact ⟨h.injective_back hp hp' heq, rfl⟩
  root_orphan x hx p := by
    rintro ⟨c, he⟩
    rw [List.mem_singleton] at hx
    subst hx
    obtain ⟨-, -, he⟩ := h.edge_back he
    have hτ : τ 0 = r := by rw [← hr, h.left_inv r .refl]
    exact ha.root_orphan r (by simp) _ ⟨c, hτ ▸ he⟩
  root_lt x hx := by
    rw [List.mem_singleton.1 hx, ← hr]
    exact h.lt r .refl
  live q hq _ := by
    refine ⟨0, by simp, ?_⟩
    have := (h.reaches .refl (h.on_back q hq)).2
    rwa [h.right_inv q hq, hr] at this

end Renumbering

/-! ## Trees that cover a tree -/

/-- `a` is a tree that covers another one. Unless there are holes, all of its states are in the
tree. -/
structure Refines (tree : Automaton) (holes : Bool) (a : Automaton) : Prop where
  forest : a.Forest [0]
  cover : ∃ f, f 0 = 0 ∧ Covers f a tree (a.Reaches 0)
  full : holes = false → ∀ q, q < a.size → a.Reaches 0 q

theorem Refines.size_pos (h : Refines tree holes a) : 0 < a.size := h.forest.root_lt 0 (by simp)

theorem Refines.lt (h : Refines tree holes a) (hq : a.Reaches 0 q) : q < a.size :=
  hq.lt h.forest.target_lt h.size_pos

theorem Refines.refl (h : tree.Forest [0]) (hfull : ∀ q, q < tree.size → tree.Reaches 0 q) :
    Refines tree holes tree :=
  ⟨h, ⟨id, rfl, .refl fun _ c _ hp he => hp.tail ⟨c, he⟩⟩, fun _ => hfull⟩

theorem Refines.productive (h : Refines tree holes a) (htree : tree.WellFormed)
    (hpos : 0 < tree.size) (hq : a.Reaches 0 q) : a.Productive q := by
  obtain ⟨f, hf, hcover⟩ := h.cover
  have hpath := hcover.reaches h.forest.toProper .refl hq
  rw [hf] at hpath
  exact hcover.productive h.forest.toProper htree.toProper hq
    (htree.productive _ (hpath.lt htree.target_lt hpos))

theorem Refines.accepts_eq (h : Refines tree holes a) (w : List UInt8) :
    a.accepts w = tree.accepts w := by
  obtain ⟨f, hf, hcover⟩ := h.cover
  rw [accepts, accepts, ← hcover.acceptsFrom_eq .refl, hf]

theorem Refines.live_iff (h : Refines tree holes a) (htree : tree.WellFormed)
    (hpos : 0 < tree.size) : (a.state q).isHole = false ↔ a.Reaches 0 q := by
  refine ⟨fun hlive => ?_, fun hq => (h.productive htree hpos hq).not_isHole⟩
  obtain ⟨r, hr, hpath⟩ := h.forest.live q (lt_of_not_isHole hlive) hlive
  rwa [List.mem_singleton.1 hr] at hpath

/-- Without the states that are not in the tree, there are no holes. -/
theorem Refines.renumber (h : Refines tree holes a) (hn : Renumbering (a.Reaches 0) a b σ τ)
    (hroot : σ 0 = 0) : Refines tree false b := by
  have hforest := hn.forest h.forest hroot
  have hτ : τ 0 = 0 := by rw [← hroot, hn.left_inv 0 .refl, hroot]
  have hpos := hforest.root_lt 0 (by simp)
  refine ⟨hforest, ?_, fun _ q hq => ?_⟩
  · obtain ⟨f, hf, hcover⟩ := h.cover
    have hback : Covers τ b a (b.Reaches 0) := hn.covers_back.restrict
      (fun q hq => hq.lt hforest.target_lt hpos) fun _ c _ hp he => hp.tail ⟨c, he⟩
    refine ⟨f ∘ τ, by rw [Function.comp_apply, hτ, hf], hback.trans hcover fun q hq => ?_⟩
    exact hn.on_back q (hq.lt hforest.target_lt hpos)
  · have := (hn.reaches .refl (hn.on_back q hq)).2
    rwa [hroot, hn.right_inv q hq] at this

end Automaton
end ByteMatch
