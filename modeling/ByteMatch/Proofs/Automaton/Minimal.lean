import ByteMatch.Proofs.Automaton.Merge

/-!
# ByteMatch.Proofs.Automaton.Minimal

The signatures of a tree are the states of the smallest automaton that accepts the same.

* `Merging.graph`: the states that the signatures stand for.
* `Merging.Descending.proper_graph`, `Merging.Descending.acyclic_graph`: signatures that lead to earlier ones
  make a graph without cycles.
* `Merging.Merged.covers`: each state of the tree accepts what the state with its number accepts.
* `Merging.Merged.distinct`: states of the graph that accept the same are one, by induction on the
  numbers, as transitions lead to lower ones.
* `Automaton.merge?_spec`: the result is a renumbering of a reduced automaton.
-/

namespace ByteMatch
namespace Merging

variable {tree : Automaton} {m : Merging} {sig : Signature} {id p q d : Nat} {c : ByteSet}

/-- The automaton of the signatures. -/
def graph (m : Merging) : Automaton := m.signatures.map Signature.toState

/-- The number of the signature of a state. -/
def number (m : Merging) (q : Nat) : Nat :=
  match m.resolution q with
  | .kept id => id
  | _ => 0

theorem number_of_resolution (h : m.resolution q = .kept id) : m.number q = id := by
  rw [number, h]

theorem Kept.resolution (h : m.Kept q) : m.resolution q = .kept (m.number q) := by
  obtain ⟨id, hid⟩ := h
  rw [number_of_resolution hid, hid]

theorem size_graph : m.graph.size = m.signatures.size := Array.size_map

theorem state_graph (h : m.signatures[id]? = some sig) : m.graph.state id = sig.toState := by
  rw [graph, Automaton.state_eq_getD, Array.getElem?_map, h]
  rfl

theorem exists_signature (hid : id < m.graph.size) : ∃ sig, m.signatures[id]? = some sig ∧
    m.graph.state id = sig.toState := by
  rw [size_graph] at hid
  have hsig := Array.getElem?_eq_getElem hid
  exact ⟨_, hsig, state_graph hsig⟩

/-! ## Signatures that lead to earlier ones -/

/-- Each signature is proper and has destinations with lower numbers, and only the numbers of signatures
are given to states. -/
structure Descending (m : Merging) : Prop where
  proper : ∀ (id : Nat) sig, m.signatures[id]? = some sig → sig.Proper
  below : ∀ (id : Nat) sig, m.signatures[id]? = some sig → ∀ e ∈ sig.targets, e.1 < id
  kept_lt : ∀ q id, m.resolution q = .kept id → id < m.signatures.size

namespace Descending

variable (h : m.Descending)
include h

theorem exists_target (he : m.graph.Edge p c q) : ∃ sig, m.signatures[p]? = some sig ∧
    m.graph.state p = sig.toState ∧ (q, c) ∈ sig.targets := by
  obtain ⟨sig, hsig, hstate⟩ := Merging.exists_signature (Automaton.lt_of_edge he)
  rw [Automaton.Edge, hstate, (h.proper p sig hsig).mem_toState] at he
  exact ⟨sig, hsig, hstate, he⟩

theorem lt_of_edge (he : m.graph.Edge p c q) : q < p := by
  obtain ⟨sig, hsig, -, hmem⟩ := h.exists_target he
  exact h.below p sig hsig _ hmem

theorem proper_graph : m.graph.Proper where
  target_lt p c q he := by
    have hp : p < m.graph.size := Automaton.lt_of_edge he
    exact Nat.lt_trans (h.lt_of_edge he) hp
  label_nonempty p c q he := by
    obtain ⟨sig, hsig, -, hmem⟩ := h.exists_target he
    exact (h.proper p sig hsig).label_nonempty (q, c) hmem
  labels_disjoint p := by
    rintro ⟨c, q⟩ he e he'
    obtain ⟨sig, hsig, hstate, -⟩ := h.exists_target he
    rw [hstate] at he he'
    exact (h.proper p sig hsig).disjoint_toState (c, q) he e he'
  leaf_nonempty p leaf hleaf := by
    obtain ⟨sig, hsig, hstate⟩ := Merging.exists_signature (Automaton.lt_of_leaf hleaf)
    rw [hstate] at hleaf
    exact (h.proper p sig hsig).leaf_nonempty leaf hleaf

theorem one_label : ∀ p c c' q, m.graph.Edge p c q → m.graph.Edge p c' q → c = c' := by
  intro p c c' q he he'
  obtain ⟨sig, hsig, hstate, hmem⟩ := h.exists_target he
  rw [Automaton.Edge, hstate, (h.proper p sig hsig).mem_toState] at he'
  exact (h.proper p sig hsig).label_unique hmem he'

theorem acyclic_graph : m.graph.Acyclic := by
  have hlt : ∀ {p q}, Relation.TransGen m.graph.Child p q → q < p := by
    intro p q hpath
    induction hpath with
    | single hchild => exact h.lt_of_edge hchild.choose_spec
    | tail _ hchild ih => exact Nat.lt_trans (h.lt_of_edge hchild.choose_spec) ih
  exact fun q hcycle => Nat.lt_irrefl q (hlt hcycle)

end Descending

/-! ## The graph of a tree -/

namespace Merged

theorem lt (h : Merged tree m) (hq : m.Kept q) : q < tree.size := by
  by_contra hge
  obtain ⟨id, hid⟩ := hq
  rw [Merging.resolution, Array.getD_eq_getD_getElem?,
    Array.getElem?_eq_none (by rw [h.size]; omega)] at hid
  cases hid

variable (h : Merged tree m)
include h

theorem exists_state (hid : id < m.graph.size) : ∃ q, m.Kept q ∧ m.number q = id ∧
    m.signatures[id]? = some (m.signature (tree.state q)) ∧
    m.graph.state id = (m.signature (tree.state q)).toState := by
  rw [size_graph] at hid
  obtain ⟨q, hq⟩ := h.origin id hid
  have hsig := h.represented q id hq
  exact ⟨q, ⟨id, hq⟩, number_of_resolution hq, hsig, state_graph hsig⟩

variable (ht : tree.Proper)
include ht

theorem descending : m.Descending where
  proper id sig hid := by
    obtain ⟨q, -, -, hsig, -⟩ := h.exists_state (size_graph ▸ (Array.getElem?_eq_some_iff.1 hid).1)
    rw [hid] at hsig
    rw [Option.some.inj hsig]
    exact signature_proper ht
  below := h.below
  kept_lt _ _ := h.id_lt

theorem proper : m.graph.Proper := (h.descending ht).proper_graph

theorem combined (q : Nat) : (m.graph.state q).transitions.Combined :=
  ⟨(h.proper ht).labels_disjoint q, (h.proper ht).label_nonempty q, (h.descending ht).one_label q⟩

theorem acyclic : m.graph.Acyclic := (h.descending ht).acyclic_graph

/-- States of the tree accept what the states with their numbers accept. -/
theorem covers : Automaton.Covers m.number tree m.graph m.Kept where
  leaf q hq := by
    rw [state_graph (h.represented q _ hq.resolution), signature_eq ht]
    rfl
  step q hq x := by
    have hlabel : ∀ e ∈ (tree.state q).transitions.entries, ∃ x, x ∈ e.1 :=
      fun e he => ht.label_nonempty q e.1 e.2 he
    have hsig := h.represented q _ hq.resolution
    refine Option.ext fun d => ?_
    rw [(h.proper ht).step?_iff, Option.map_eq_some_iff]
    simp only [Automaton.Edge, state_graph hsig, (signature_proper ht).mem_toState]
    rw [signature_eq ht]
    constructor
    · rintro ⟨c, hx, hmem⟩
      obtain ⟨⟨l, r⟩, he, hres, hl⟩ := (mem_targets hlabel).1 ⟨c, hmem, hx⟩
      exact ⟨r, ht.step?_iff.2 ⟨l, hl, he⟩, number_of_resolution hres⟩
    · rintro ⟨r, hstep, rfl⟩
      obtain ⟨l, hl, he⟩ := ht.step?_iff.1 hstep
      have hr := (h.closed q hq r ⟨l, he⟩).resolution
      obtain ⟨c, hmem, hx⟩ := (mem_targets hlabel).2 ⟨(l, r), he, hr, hl⟩
      exact ⟨c, hx, hmem⟩
  closed p c q hp he := h.closed p hp q ⟨c, he⟩

variable (hprod : ∀ q, q < tree.size → tree.Productive q)
include hprod

theorem productive (hid : id < m.graph.size) : m.graph.Productive id := by
  obtain ⟨q, hq, rfl, -⟩ := h.exists_state hid
  obtain ⟨w, hw⟩ := ht.productive_iff.1 (hprod q (h.lt hq))
  exact (h.proper ht).productive_iff.2 ⟨w, by rw [(h.covers ht).acceptsFrom_eq hq, hw]⟩

/-- States that accept the same have the same number, as their signatures are the same. -/
theorem distinct (hp : p < m.graph.size) (hq : q < m.graph.size)
    (hsame : ∀ w, m.graph.acceptsFrom p w = m.graph.acceptsFrom q w) : p = q := by
  have hproper := h.proper ht
  induction p using Nat.strongRecOn generalizing q with
  | ind p ih =>
    have hback : ∀ x d', (m.graph.state q).transitions.step? x = some d' →
        (m.graph.state p).transitions.step? x = some d' := by
      intro x d' hd'
      obtain ⟨c', hx', he'⟩ := hproper.step?_iff.1 hd'
      have hlt' := hproper.target_lt _ _ _ he'
      obtain ⟨d, hd, hsame'⟩ := hproper.step_of_same (fun w => (hsame w).symm) hd'
        (h.productive ht hprod hlt')
      obtain ⟨c, hx, he⟩ := hproper.step?_iff.1 hd
      have hlt := (h.descending ht).lt_of_edge he
      rw [hd, ih d hlt (by omega) hlt' fun w => (hsame' w).symm]
    have hstep : ∀ x, (m.graph.state p).transitions.step? x =
        (m.graph.state q).transitions.step? x := by
      intro x
      cases hd' : (m.graph.state q).transitions.step? x with
      | some d' => exact hback x d' hd'
      | none =>
        rw [Option.eq_none_iff_forall_ne_some]
        intro d hd
        obtain ⟨c, hx, he⟩ := hproper.step?_iff.1 hd
        obtain ⟨d', hd₂, -⟩ := hproper.step_of_same hsame hd
          (h.productive ht hprod (hproper.target_lt _ _ _ he))
        rw [hd'] at hd₂
        cases hd₂
    have htrans := (h.combined ht p).eq_of_step? (h.combined ht q) hstep
    have hleaf : (m.graph.state p).leaf = (m.graph.state q).leaf := by
      refine Automaton.leaf_eq_of_completes hproper hproper fun x => ?_
      have := hsame [x]
      rwa [Automaton.acceptsFrom_singleton, Automaton.acceptsFrom_singleton] at this
    obtain ⟨p', -, -, hsig, hstate⟩ := h.exists_state hp
    obtain ⟨q', -, -, hsig', hstate'⟩ := h.exists_state hq
    have heq : (m.signature (tree.state p')).toState = (m.signature (tree.state q')).toState := by
      rw [← hstate, ← hstate']
      exact congrArg₂ State.mk htrans hleaf
    rw [(signature_proper ht).eq_of_toState (signature_proper ht) heq] at hsig
    exact h.unique p q _ hsig hsig'

end Merged

theorem Merged.reduced (h : Merged tree m) (ht : tree.WellFormed) (hpos : 0 < tree.size)
    (hkept : ∀ q, q < tree.size → m.Kept q) : m.graph.Reduced (m.number 0) where
  toProper := h.proper ht.toProper
  root_lt := by
    rw [size_graph]
    exact h.id_lt (hkept 0 hpos).resolution
  reachable id hid := by
    obtain ⟨q, hq, rfl, -⟩ := h.exists_state hid
    exact (h.covers ht.toProper).reaches ht.toProper (hkept 0 hpos) (ht.reachable q (h.lt hq))
  productive _ hid := h.productive ht.toProper ht.productive hid
  one_label := (h.descending ht.toProper).one_label
  distinct _ _ hp hq hsame := h.distinct ht.toProper ht.productive hp hq hsame

end Merging

namespace Automaton

variable {tree : Automaton}

open Merging in
/-- The result is a renumbering of a reduced automaton without cycles, which accepts the same. -/
theorem merge?_spec (ht : tree.WellFormed) (htree : tree.IsTree) (hpos : 0 < tree.size) :
    ∃ (g : Automaton) (root : Nat), tree.merge? = some (g.renumbered root) ∧ g.Reduced root ∧
      g.Acyclic ∧ ∀ w, g.acceptsFrom root w = tree.accepts w := by
  obtain ⟨-, hmerged, hkept⟩ := resolveAll_spec ht htree hpos
  refine ⟨tree.resolveAll.graph, tree.resolveAll.number 0, ?_, hmerged.reduced ht hpos hkept,
    hmerged.acyclic ht.toProper, fun w => ?_⟩
  · rw [merge?, (hkept 0 hpos).resolution]
    rfl
  · rw [accepts, (hmerged.covers ht.toProper).acceptsFrom_eq (hkept 0 hpos)]

/-- A reduced automaton without cycles, renumbered from its root. -/
theorem Reduced.renumbered_spec {g : Automaton} {root : Nat} (h : g.Reduced root)
    (hacyc : g.Acyclic) : (g.renumbered root).WellFormed ∧ (g.renumbered root).Reduced 0 ∧
      ∀ w, (g.renumbered root).accepts w = g.acceptsFrom root w := by
  obtain ⟨σ, τ, hn, hroot⟩ := Automaton.renumbered_spec h.target_lt h.root_lt
  have hreduced := h.renumber hn hroot
  refine ⟨⟨hreduced.toProper, hn.acyclic hacyc, hreduced.reachable, hreduced.productive⟩, hreduced,
    fun w => ?_⟩
  rw [accepts, ← hroot, hn.covers.acceptsFrom_eq .refl]

end Automaton
end ByteMatch
