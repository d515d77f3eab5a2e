import Mathlib.Data.List.Nodup
import ByteMatch.Proofs.Automaton.Renumbering

/-!
# ByteMatch.Proofs.Automaton.Residual

Automata whose states are told apart by what they accept.

* `Automaton.Reduced`: no two states accept the same, and no two labels lead from a state to the
  same state.
* `Automaton.exists_residual`: whatever accepts the same has a state for each state of a productive
  automaton.
* `Automaton.Reduced.size_le`: so nothing with less states accepts the same as a reduced automaton.
* `Automaton.Reduced.exists_iso`: reduced automata that accept the same are the same but for the
  numbers of their states.
-/

namespace ByteMatch
namespace Automaton

variable {a b : Automaton} {p p' q r r' : Nat} {x : UInt8} {c : ByteSet} {σ τ : Nat → Nat}

/-- An automaton with a given root, without superfluous states and labels. -/
structure Reduced (a : Automaton) (root : Nat) : Prop extends a.Proper where
  root_lt : root < a.size
  reachable : ∀ q, q < a.size → a.Reaches root q
  productive : ∀ q, q < a.size → a.Productive q
  one_label : ∀ p c c' q, a.Edge p c q → a.Edge p c' q → c = c'
  distinct : ∀ p q, p < a.size → q < a.size → (∀ w, a.acceptsFrom p w = a.acceptsFrom q w) → p = q

theorem exists_residual (ha : a.Proper) (hprod : ∀ q, a.Reaches p q → a.Productive q)
    (hsame : ∀ w, a.acceptsFrom p w = b.acceptsFrom p' w) (hpath : a.Reaches p q) :
    ∃ q', ∀ w, a.acceptsFrom q w = b.acceptsFrom q' w := by
  induction hpath with
  | refl => exact ⟨p', hsame⟩
  | @tail q r hpath hchild ih =>
    obtain ⟨q', hq'⟩ := ih
    obtain ⟨c, he⟩ := hchild
    obtain ⟨x, hx⟩ := ha.label_nonempty _ _ _ he
    obtain ⟨next, -, hnext⟩ := ha.step_of_same hq' (ha.step?_iff.2 ⟨c, hx, he⟩)
      (hprod r (hpath.tail ⟨c, he⟩))
    exact ⟨next, hnext⟩

theorem lt_of_same (ha : a.Proper) (hprod : a.Productive q)
    (hsame : ∀ w, a.acceptsFrom q w = b.acceptsFrom p w) : p < b.size := by
  obtain ⟨w, hw⟩ := ha.productive_iff.1 hprod
  refine lt_of_not_isHole ?_
  rw [← Bool.not_eq_true]
  intro hhole
  rw [hsame, acceptsFrom_of_isHole hhole] at hw
  cases hw

namespace Reduced

theorem reaches_productive (h : a.Reduced r) (hpath : a.Reaches r q) : a.Productive q :=
  h.productive q (hpath.lt h.target_lt h.root_lt)

theorem combined (h : a.Reduced r) (q : Nat) : (a.state q).transitions.Combined :=
  ⟨h.labels_disjoint q, h.label_nonempty q, h.one_label q⟩

theorem renumber (h : a.Reduced r) (hn : Renumbering (a.Reaches r) a b σ τ) (hroot : σ r = 0) :
    b.Reduced 0 where
  toProper := hn.proper h.toProper
  root_lt := hroot ▸ hn.lt r .refl
  reachable q hq := by
    have := (hn.reaches .refl (hn.on_back q hq)).2
    rwa [hroot, hn.right_inv q hq] at this
  productive q hq := hn.covers_back.productive (hn.proper h.toProper) h.toProper hq
    (h.reaches_productive (hn.on_back q hq))
  one_label p c c' q he he' := h.one_label _ _ _ _ (hn.edge_back he).2.2 (hn.edge_back he').2.2
  distinct p q hp hq hsame := by
    refine hn.injective_back hp hq (h.distinct _ _ ((hn.on_back p hp).lt h.target_lt h.root_lt)
      ((hn.on_back q hq).lt h.target_lt h.root_lt) fun w => ?_)
    rw [hn.covers_back.acceptsFrom_eq hp, hsame, hn.covers_back.acceptsFrom_eq hq]

/-- For each state of a reduced automaton, there is one on the other side that accepts the same, and
no two states share it. -/
theorem exists_states (h : a.Reduced r) (hsame : ∀ w, a.acceptsFrom r w = b.acceptsFrom r' w) :
    ∃ ψ : Nat → Nat, (∀ q, q < a.size → ∀ w, a.acceptsFrom q w = b.acceptsFrom (ψ q) w) ∧
      (∀ q, q < a.size → ψ q < b.size) ∧
      ∀ p q, p < a.size → q < a.size → ψ p = ψ q → p = q := by
  have hres : ∀ q, q < a.size → ∃ q', ∀ w, a.acceptsFrom q w = b.acceptsFrom q' w := fun q hq =>
    exists_residual h.toProper (fun _ => h.reaches_productive) hsame (h.reachable q hq)
  choose! ψ hψ using hres
  refine ⟨ψ, hψ, fun q hq => lt_of_same h.toProper (h.productive q hq) (hψ q hq), ?_⟩
  exact fun p q hp hq heq => h.distinct p q hp hq fun w => by rw [hψ p hp, heq, ← hψ q hq]

theorem size_le (h : a.Reduced r) (hsame : ∀ w, a.acceptsFrom r w = b.acceptsFrom r' w) :
    a.size ≤ b.size := by
  obtain ⟨ψ, -, hlt, hinj⟩ := h.exists_states hsame
  have hnodup : ((List.range a.size).map ψ).Nodup := by
    refine List.Nodup.map_on (fun p hp q hq => ?_) List.nodup_range
    exact hinj p q (List.mem_range.1 hp) (List.mem_range.1 hq)
  have hrange : ∀ q' ∈ (List.range a.size).map ψ, q' < b.size := by
    intro q' hq'
    obtain ⟨q, hq, rfl⟩ := List.mem_map.1 hq'
    exact hlt q (List.mem_range.1 hq)
  simpa using length_le_of_nodup hnodup hrange

/-- Steps from states that accept the same lead to states that accept the same. -/
theorem step?_of_states (h : a.Reduced r) (h' : b.Reduced r') {ψ : Nat → Nat}
    (hψ : ∀ q, q < a.size → ∀ w, a.acceptsFrom q w = b.acceptsFrom (ψ q) w)
    (hlt : ∀ q, q < a.size → ψ q < b.size) (hq : q < a.size) (x : UInt8) :
    (b.state (ψ q)).transitions.step? x = ((a.state q).transitions.step? x).map ψ := by
  cases hd : (a.state q).transitions.step? x with
  | some d =>
    obtain ⟨c, hx, he⟩ := h.step?_iff.1 hd
    have hdlt := h.target_lt _ _ _ he
    obtain ⟨d', hd', hsame⟩ := h.toProper.step_of_same (hψ q hq) hd (h.productive d hdlt)
    rw [hd', Option.map_some, Option.some.injEq]
    refine h'.distinct d' (ψ d) (lt_of_same h.toProper (h.productive d hdlt) hsame) (hlt d hdlt)
      fun w => ?_
    rw [← hsame, hψ d hdlt]
  | none =>
    -- a step on the other side would have one on this side
    rw [Option.map_none, Option.eq_none_iff_forall_ne_some]
    intro d' hd'
    obtain ⟨c, hx, he⟩ := h'.step?_iff.1 hd'
    obtain ⟨d, hd₂, -⟩ := h'.toProper.step_of_same (fun w => (hψ q hq w).symm) hd'
      (h'.productive d' (h'.target_lt _ _ _ he))
    rw [hd] at hd₂
    cases hd₂

/-- Reduced automata that accept the same are the same but for the numbers of their states. -/
theorem exists_iso (h : a.Reduced r) (h' : b.Reduced r')
    (hsame : ∀ w, a.acceptsFrom r w = b.acceptsFrom r' w) : ∃ ψ : Nat → Nat, ψ r = r' ∧
      (∀ q, q < a.size → ψ q < b.size) ∧
      (∀ p q, p < a.size → q < a.size → ψ p = ψ q → p = q) ∧
      ∀ q, q < a.size → b.state (ψ q) = (a.state q).mapDest ψ := by
  obtain ⟨ψ, hψ, hlt, hinj⟩ := h.exists_states hsame
  refine ⟨ψ, ?_, hlt, hinj, fun q hq => ?_⟩
  · exact h'.distinct _ _ (hlt r h.root_lt) h'.root_lt fun w => by rw [← hψ r h.root_lt, hsame]
  · have hleaf : (b.state (ψ q)).leaf = (a.state q).leaf := by
      refine leaf_eq_of_completes h'.toProper h.toProper fun x => ?_
      have := hψ q hq [x]
      rw [acceptsFrom_singleton, acceptsFrom_singleton] at this
      exact this.symm
    have htrans : (b.state (ψ q)).transitions = (a.state q).transitions.mapDest ψ := by
      refine (h'.combined _).eq_of_step? ((h.combined q).mapDest fun c d c' d' he he' => ?_)
        fun x => ?_
      · exact hinj d d' (h.target_lt _ _ _ he) (h.target_lt _ _ _ he')
      · rw [Transitions.step?_mapDest, h.step?_of_states h' hψ hlt hq]
    rw [State.mapDest, ← htrans, ← hleaf]

end Reduced
end Automaton
end ByteMatch
