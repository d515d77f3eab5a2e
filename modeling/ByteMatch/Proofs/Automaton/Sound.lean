import ByteMatch.Proofs.Automaton.InRange
import ByteMatch.Proofs.Automaton.LeafMap
import ByteMatch.Proofs.Automaton.Minimal
import ByteMatch.Proofs.Automaton.Unfold

/-!
# ByteMatch.Proofs.Automaton.Sound

Automata in which a state need not accept anything.

A leaf may be empty, and a state need not be reached. What the operations rely on all the same is that
no transition leads to a hole: they take holes for states that have been removed.

* `Automaton.Tidy`: labels are not empty and disjoint, and no state that a transition leads to is a hole.
* `Automaton.Sound`: moreover transitions lead to states, and there are no cycles. `Automaton.SoundTree`
  is such a tree.
* `Automaton.filled`: with all bytes in each leaf, such a tree is well-formed.
* `Automaton.Sound.unfold`: the tree of the paths of a sound graph.
* `Automaton.wellFormed_merge?`: the graph of a sound tree is well-formed, as merging drops what
  accepts nothing.
-/

namespace ByteMatch

theorem State.isHole_mapDest {s : State} {f : Nat → Nat} : (s.mapDest f).isHole = s.isHole := by
  simp [State.isHole, State.mapDest, Transitions.mapDest, Transitions.isEmpty]

namespace Automaton

variable {a t : Automaton} {p q : Nat} {c : ByteSet}

/-- No transition leads to a hole, labels are not empty, and a byte is in at most one of the labels that
leave a state. -/
structure Tidy (a : Automaton) : Prop where
  live : ∀ p c q, a.Edge p c q → q < a.size → (a.state q).isHole = false
  label_nonempty : ∀ p c q, a.Edge p c q → ∃ x, x ∈ c
  labels_disjoint : ∀ p, (a.state p).transitions.Disjoint

/-- A tidy automaton without cycles, whose transitions lead to states. -/
structure Sound (a : Automaton) : Prop extends a.Tidy where
  inRange : a.InRange
  acyclic : a.Acyclic

/-- A sound automaton that is a tree. All of its states are reached. -/
structure SoundTree (t : Automaton) : Prop extends t.Sound where
  reachable : ∀ q, q < t.size → t.Reaches 0 q
  isTree : t.IsTree

/-- The automaton with all bytes in each leaf. -/
def filled (a : Automaton) : Automaton := a.mapLeaf fun _ => ByteSet.all

@[simp] theorem size_filled : a.filled.size = a.size := size_mapLeaf

@[simp] theorem isHole_filled : (a.filled.state q).isHole = (a.state q).isHole := by
  rw [filled, state_mapLeaf, State.isHole_mapLeaf]

theorem edge_filled : a.filled.Edge p c q ↔ a.Edge p c q := edge_mapLeaf

theorem reaches_filled : a.filled.Reaches p q ↔ a.Reaches p q := reaches_mapLeaf

theorem isTree_filled : a.filled.IsTree ↔ a.IsTree := by
  simp only [IsTree, size_filled, edge_filled]

theorem leaf_nonempty_filled {leaf : ByteSet} (h : (a.filled.state q).leaf = some leaf) :
    ∃ x, x ∈ leaf := by
  rw [filled, state_mapLeaf, State.leaf_mapLeaf, Option.map_eq_some_iff] at h
  obtain ⟨-, -, rfl⟩ := h
  exact ⟨0, by decide⟩

/-! ## Recognising tidy and sound automata -/

theorem Tidy.of_states
    (hedge : ∀ p < a.size, ∀ e ∈ (a.state p).transitions.entries,
      (a.state e.2).isHole = false ∧ e.1.isEmpty = false)
    (hdisj : ∀ p < a.size, ∀ e ∈ (a.state p).transitions.entries,
      ∀ e' ∈ (a.state p).transitions.entries, e.1.intersects e'.1 = true → e.1 = e'.1) : a.Tidy where
  live p c q he _ := (hedge p (lt_of_edge he) (c, q) he).1
  label_nonempty p c q he := ByteSet.isEmpty_eq_false_iff.1 (hedge p (lt_of_edge he) (c, q) he).2
  labels_disjoint p e he e' he' x hx hx' :=
    hdisj p (lt_of_edge he) e he e' he' (ByteSet.intersects_iff.2 ⟨x, hx, hx'⟩)

theorem acyclic_of_states
    (h : ∀ p < a.size, ∀ e ∈ (a.state p).transitions.entries, p < e.2) : a.Acyclic :=
  acyclic_of_lt fun p c q he => h p (lt_of_edge he) (c, q) he


theorem WellFormed.sound (h : a.WellFormed) : a.Sound where
  live _ _ q _ hq := (h.productive q hq).not_isHole
  label_nonempty := h.label_nonempty
  labels_disjoint := h.labels_disjoint
  inRange := h.target_lt
  acyclic := h.acyclic

theorem WellFormed.soundTree (h : t.WellFormed) (htree : t.IsTree) : t.SoundTree :=
  ⟨h.sound, h.reachable, htree⟩

namespace Sound

variable (h : a.Sound)
include h

theorem not_isHole (he : a.Edge p c q) : (a.state q).isHole = false := h.live p c q he (h.inRange p c q he)

theorem proper_filled : a.filled.Proper where
  target_lt p c q he := by
    rw [size_filled]
    exact h.inRange p c q (edge_filled.1 he)
  label_nonempty p c q he := h.label_nonempty p c q (edge_filled.1 he)
  labels_disjoint p := by
    rw [filled, state_mapLeaf, State.transitions_mapLeaf]
    exact h.labels_disjoint p
  leaf_nonempty _ _ := leaf_nonempty_filled

theorem acyclic_filled : a.filled.Acyclic := acyclic_mapLeaf.2 h.acyclic

/-- What is reached from a state that is not a hole is not one either. -/
theorem live_of_reaches (hp : (a.state p).isHole = false) (hq : a.Reaches p q) :
    (a.state q).isHole = false := by
  cases hq.cases_tail with
  | inl heq => rwa [heq]
  | inr hstep =>
    obtain ⟨r, -, c, he⟩ := hstep
    exact h.not_isHole he

end Sound

namespace SoundTree

variable (h : t.SoundTree)
include h

theorem forest (hpos : 0 < t.size) : t.filled.Forest [0] :=
  .of_isTree h.proper_filled h.acyclic_filled
    (fun q hq => reaches_filled.2 (h.reachable q (size_filled ▸ hq))) (isTree_filled.2 h.isTree)
    (by rwa [size_filled])

theorem live_root (hsize : 2 ≤ t.size) : (t.state 0).isHole = false := by
  cases (h.reachable 1 (by omega)).cases_head with
  | inl heq => omega
  | inr hstep =>
    obtain ⟨r, ⟨c, he⟩, -⟩ := hstep
    exact not_isHole_of_edge he

/-- A sound tree with another root than a hole leads to leaves everywhere. They may be empty. -/
theorem wellFormed_filled (hpos : 0 < t.size) (hroot : (t.state 0).isHole = false) :
    t.filled.WellFormed := by
  refine (h.forest hpos).wellFormed fun q hq => ?_
  refine productive_of_live h.acyclic_filled h.proper_filled.target_lt (by rwa [size_filled]) ?_
    (reaches_filled.2 (h.reachable q (size_filled ▸ hq)))
  intro p hp
  rw [isHole_filled]
  exact h.live_of_reaches hroot (reaches_filled.1 hp)

/-- Otherwise it is just the hole. -/
theorem eq_hole (hpos : 0 < t.size) (hroot : (t.state 0).isHole = true) : t = #[State.hole] := by
  have hsize : t.size = 1 := by
    by_contra hne
    rw [h.live_root (by omega)] at hroot
    cases hroot
  refine ext_state (by simpa using hsize) fun q => ?_
  by_cases hq : q = 0
  · rw [hq, State.isHole_iff.1 hroot]
    rfl
  · rw [state_of_ge (by omega), state_of_ge (by simp; omega)]

end SoundTree

/-- A forest of one tree is sound if no transition leads to a hole, whatever its leaves are. -/
theorem Forest.soundTree (h : t.filled.Forest [0]) (hfull : ∀ q, q < t.size → t.Reaches 0 q)
    (hlive : ∀ p c q, t.Edge p c q → (t.state q).isHole = false) : t.SoundTree where
  live p c q he _ := hlive p c q he
  label_nonempty p c q he := h.label_nonempty p c q (edge_filled.2 he)
  labels_disjoint p := by
    have := h.labels_disjoint p
    rwa [filled, state_mapLeaf, State.transitions_mapLeaf] at this
  inRange p c q he := by
    have := h.target_lt p c q (edge_filled.2 he)
    rwa [size_filled] at this
  acyclic := acyclic_mapLeaf.1 h.acyclic
  reachable := hfull
  isTree := isTree_filled.1 (h.isTree_of_reachable fun q hq => reaches_filled.2 (hfull q (size_filled ▸ hq)))

/-! ## Unfolding -/

/-- The tree of the paths of a sound graph is sound, and it has a root. -/
theorem Sound.unfold (h : a.Sound) (hpos : 0 < a.size) : a.unfold.SoundTree ∧ 0 < a.unfold.size := by
  obtain ⟨-, f, hf⟩ := unfold_spec h.proper_filled h.acyclic_filled (by rwa [size_filled])
  rw [filled, unfold_mapLeaf] at hf
  refine ⟨hf.forest.soundTree (fun q hq => ?_) fun p c q he => ?_, ?_⟩
  · exact reaches_filled.1 (hf.full q (by rwa [size_mapLeaf]))
  · -- the states stand for those of the graph, and so do their transitions
    have hq : q < (a.unfold.mapLeaf fun _ => ByteSet.all).size := hf.forest.target_lt p c q (edge_filled.2 he)
    have hp : p < (a.unfold.mapLeaf fun _ => ByteSet.all).size := lt_of_edge (edge_filled.2 he)
    have hedge : a.filled.Edge (f p) c (f q) := by
      rw [Edge, filled, hf.exact p hp]
      exact Transitions.mem_mapDest.2 ⟨q, edge_filled.2 he, rfl⟩
    have hlive := h.not_isHole (edge_filled.1 hedge)
    rwa [← isHole_filled, filled, hf.exact q hq, State.isHole_mapDest, ← filled, isHole_filled] at hlive
  · have hroot := hf.forest.root_lt 0 (by simp)
    rwa [size_mapLeaf] at hroot

end Automaton

/-! ## Merging -/

namespace Merging

open Automaton

variable {t : Automaton} {m : Merging} {s sig : Signature} {id q : Nat}

/-- No signature accepts nothing. -/
def Accepting (m : Merging) : Prop :=
  ∀ (id : Nat) sig, m.signatures[id]? = some sig → sig.acceptsNothing = false

theorem Descending.start {n : Nat} : (start n).Descending where
  proper id sig h := by simp [Merging.start] at h
  below id sig h := by simp [Merging.start] at h
  kept_lt q id h := by simp [resolution_start] at h

theorem Descending.note (h : m.Descending) {r : Resolution}
    (hr : ∀ id, r = .kept id → id < m.signatures.size) : (m.note q r).Descending where
  proper := h.proper
  below := h.below
  kept_lt p id hp := by
    rw [resolution_note] at hp
    split at hp
    · exact hr id hp
    · exact h.kept_lt p id hp

theorem getElem?_add_eq_some (h : (m.add sig).signatures[id]? = some s) :
    (id = m.signatures.size ∧ s = sig) ∨ m.signatures[id]? = some s := by
  rw [getElem?_add] at h
  split at h
  · rename_i hlast
    exact .inl ⟨hlast, (Option.some.inj h).symm⟩
  · exact .inr h

theorem Descending.add (h : m.Descending) (hproper : sig.Proper)
    (hbelow : ∀ e ∈ sig.targets, e.1 < m.signatures.size) : (m.add sig).Descending := by
  refine ⟨fun id s hid => ?_, fun id s hid => ?_, fun q id hq => ?_⟩
  · obtain ⟨-, rfl⟩ | hold := getElem?_add_eq_some hid
    · exact hproper
    · exact h.proper id s hold
  · obtain ⟨rfl, rfl⟩ | hold := getElem?_add_eq_some hid
    · exact hbelow
    · exact h.below id s hold
  · have hlt : id < m.signatures.size := h.kept_lt q id hq
    rw [Merging.add, Array.size_push]
    omega

theorem Accepting.add (h : m.Accepting) (hsome : sig.acceptsNothing = false) : (m.add sig).Accepting := by
  intro id s hid
  obtain ⟨-, rfl⟩ | hold := getElem?_add_eq_some hid
  · exact hsome
  · exact h id s hold

theorem Accepting.resolve (h : m.Accepting) {s : State} : (m.resolve q s).Accepting := by
  rw [Merging.resolve]
  cases hsome : (m.signature s).acceptsNothing with
  | true => exact h
  | false =>
    simp only [Bool.false_eq_true, if_false]
    cases m.find? (m.signature s) with
    | some id => exact h
    | none => exact h.add hsome

/-- Where no signature accepts nothing, no state of the graph is a hole. -/
theorem Accepting.live_graph (h : m.Accepting) (hm : m.Descending) (hid : id < m.graph.size) :
    (m.graph.state id).isHole = false := by
  obtain ⟨sig, hsig, hstate⟩ := exists_signature hid
  have hsome := h id sig hsig
  rw [hstate]
  cases hleaf : sig.leaf with
  | some leaf => simp [State.isHole, Signature.toState, hleaf]
  | none =>
    cases htargets : sig.targets with
    | nil => simp [Signature.acceptsNothing, hleaf, htargets] at hsome
    | cons e rest =>
      have hmem : (e.2, e.1) ∈ sig.toState.transitions.entries :=
        (hm.proper id sig hsig).mem_toState.2 (by simp [htargets])
      rw [State.isHole, Transitions.isEmpty_eq_false_iff.2 ⟨_, hmem⟩, Bool.false_and]

theorem targets_filled : (m.signature (t.filled.state q)).targets = (m.signature (t.state q)).targets := by
  rw [filled, state_mapLeaf]
  rfl

section Filled

variable (ht : t.filled.Proper)
include ht

/-- An empty leaf does not get into a signature, and for the rest the leaf does not matter. -/
theorem signature_proper_of_filled : (m.signature (t.state q)).Proper := by
  have h : (m.signature (t.filled.state q)).Proper := signature_proper ht
  refine ⟨targets_filled ▸ h.ascending, targets_filled ▸ h.label_nonempty, targets_filled ▸ h.disjoint,
    fun leaf hleaf => ?_⟩
  have hsome := (Option.filter_eq_some_iff.1 hleaf).2
  exact ByteSet.isEmpty_eq_false_iff.1 (by simpa using hsome)

theorem Descending.resolve (h : m.Descending) : (m.resolve q (t.state q)).Descending := by
  have hproper : (m.signature (t.state q)).Proper := signature_proper_of_filled ht
  have hbelow : ∀ e ∈ (m.signature (t.state q)).targets, e.1 < m.signatures.size := by
    rintro ⟨id, c⟩ he
    have hlabel : ∀ e ∈ (t.filled.state q).transitions.entries, ∃ x, x ∈ e.1 :=
      fun e he => ht.label_nonempty q e.1 e.2 he
    obtain ⟨x, hx⟩ := hproper.label_nonempty _ he
    rw [← targets_filled, signature_eq ht] at he
    obtain ⟨e, -, hid, -⟩ := (mem_targets hlabel).1 ⟨c, he, hx⟩
    exact h.kept_lt _ _ hid
  rw [Merging.resolve]
  cases (m.signature (t.state q)).acceptsNothing with
  | true =>
    refine h.note fun id hid => ?_
    cases hid
  | false =>
    simp only [Bool.false_eq_true, if_false]
    cases hfind : m.find? (m.signature (t.state q)) with
    | some id =>
      refine h.note fun id' hid => ?_
      rw [← Resolution.kept.inj hid]
      exact (Array.getElem?_eq_some_iff.1 (getElem?_of_find? hfind)).1
    | none =>
      refine (h.add hproper hbelow).note fun id hid => ?_
      rw [← Resolution.kept.inj hid, Merging.add, Array.size_push]
      exact Nat.lt_succ_self _

/-- However far the walk through the tree gets. -/
theorem descending_resolveAll : t.resolveAll.Descending ∧ t.resolveAll.Accepting := by
  refine Loop.run_spec (fun s : List Visit × Merging => s.2.Descending ∧ s.2.Accepting) ?_ ?_
    ⟨Descending.start, fun id sig h => by simp [start] at h⟩ _
  · rintro ⟨visits, m⟩ r h hr
    cases visits with
    | nil => exact ForInStep.done.inj hr ▸ h
    | cons v rest =>
      cases v with
      | enter q =>
        simp only [resolveStep] at hr
        split at hr <;> cases hr
      | leave q => cases hr
  · rintro ⟨visits, m⟩ s ⟨h, hsome⟩ hs
    cases visits with
    | nil => cases hs
    | cons v rest =>
      cases v with
      | enter q =>
        simp only [resolveStep] at hs
        split at hs <;> exact ForInStep.yield.inj hs ▸ ⟨h, hsome⟩
      | leave q => exact ForInStep.yield.inj hs ▸ ⟨h.resolve ht, hsome.resolve⟩

end Filled
end Merging

namespace Automaton

variable {t g : Automaton}

/-- The graph of a tree is well-formed where the tree may accept nothing in places. -/
theorem wellFormed_merge? (ht : t.filled.Proper) (hg : t.merge? = some g) : g.WellFormed := by
  obtain ⟨h, hsome⟩ := Merging.descending_resolveAll ht
  have hproper := h.proper_graph
  rw [merge?] at hg
  cases hroot : t.resolveAll.resolution 0 with
  | pending | dropped => simp [hroot] at hg
  | kept root =>
    simp only [hroot, Option.some.injEq] at hg
    have hlt : root < t.resolveAll.graph.size := by
      rw [Merging.size_graph]
      exact h.kept_lt 0 root hroot
    obtain ⟨σ, τ, hn, hzero⟩ := renumbered_spec hproper.target_lt hlt
    obtain rfl : renumbered t.resolveAll.graph root = g := hg
    have hreach : ∀ q, q < (renumbered t.resolveAll.graph root).size →
        (renumbered t.resolveAll.graph root).Reaches 0 q := by
      intro q hq
      have := (hn.reaches .refl (hn.on_back q hq)).2
      rwa [hzero, hn.right_inv q hq] at this
    have hpos : 0 < (renumbered t.resolveAll.graph root).size := hzero ▸ hn.lt root .refl
    have hwf := hn.proper hproper
    refine ⟨hwf, hn.acyclic h.acyclic_graph, hreach, fun q hq => ?_⟩
    refine productive_of_live (hn.acyclic h.acyclic_graph) hwf.target_lt hpos (fun p hp => ?_) (hreach q hq)
    have hp := hp.lt hwf.target_lt hpos
    rw [hn.state_back hp, State.isHole_mapDest]
    exact hsome.live_graph h ((hn.on_back p hp).lt hproper.target_lt hlt)

end Automaton

end ByteMatch
