import Mathlib.Order.Lattice.Nat
import ByteMatch.Proofs.CharSet.Lockstep
import ByteMatch.Proofs.CharSet.Sequence

/-!
# ByteMatch.Proofs.CharSet.Concatenation

What the sequence of two sets accepts.

The leaf of a state of the first graph becomes a label that leads to the second graph. A byte of the leaf
that also leads on from the state then follows only one of both.

* `Automaton.exists_crossing`: whatever the joined graphs accept is a character of the first one, at whose
  end the second one begins, and then a character of the second one.
* `Automaton.crosses_of_unambiguous`: so does each character of the first one, if it is unambiguous.
* `CharSet.sequence_exact`: the sequence accepts only concatenations, and it accepts all of them if and only
  if no character of the first set starts with another one.
-/

namespace ByteMatch
namespace Automaton

variable {a left right : Automaton} {p q r : Nat} {c : ByteSet} {x : UInt8} {u v w : List UInt8}

/-! ## Reading step by step -/

theorem follow?_cons : a.follow? q (x :: w) = (((a.state q).transitions.step? x).bind (a.follow? · w)) :=
  List.foldlM_cons

theorem follow?_append : a.follow? q (u ++ v) = (a.follow? q u).bind (a.follow? · v) := by
  rw [follow?, List.foldlM_append]
  rfl

/-- The bytes lead to a state, and the rest is accepted from there. -/
theorem acceptsFrom_append (hv : v ≠ []) :
    a.acceptsFrom q (u ++ v) = true ↔ ∃ r, a.follow? q u = some r ∧ a.acceptsFrom r v = true := by
  induction u generalizing q with
  | nil => simp
  | cons x u ih =>
    rw [List.cons_append, acceptsFrom_cons (by simp [hv]), follow?_cons]
    cases (a.state q).transitions.step? x with
    | none => simp
    | some next => exact ih

theorem path_of_follow? (h : a.follow? p w = some q) : a.Path p w.length q := by
  induction w using List.reverseRecOn generalizing q with
  | nil =>
    obtain rfl : p = q := Option.some.inj h
    exact .nil
  | append_singleton w x ih =>
    obtain ⟨r, hr, hstep⟩ := follow?_concat.1 h
    obtain ⟨c, -, he⟩ := Transitions.exists_of_step? hstep
    rw [List.length_append]
    exact (ih hr).snoc ⟨c, he⟩

/-- What is accepted has at most one byte for each state. -/
theorem WellFormed.length_le (h : a.WellFormed) (hw : a.accepts w = true) : w.length ≤ a.size := by
  rcases List.eq_nil_or_concat w with rfl | ⟨u, x, rfl⟩
  · exact Nat.zero_le _
  · rw [List.concat_eq_append] at hw ⊢
    obtain ⟨q, hq, hlast⟩ := (acceptsFrom_append (by simp)).1 hw
    rw [acceptsFrom_singleton, completes_iff] at hlast
    obtain ⟨leaf, hleaf, -⟩ := hlast
    have hpos : 0 < a.size := Nat.lt_of_le_of_lt (Nat.zero_le q) (lt_of_leaf hleaf)
    have hlt := path_length_lt h.acyclic h.target_lt (path_of_follow? hq) hpos
    rw [List.length_append]
    exact hlt

/-! ## The joined graphs -/

/-- From a state of the first graph, the bytes lead to the root of the second one. -/
def Crosses (left right : Automaton) (p : Nat) (u : List UInt8) : Prop :=
  (joined left right).follow? p u = some left.size

/-- A label of the joined graphs is one of the first graph, or a leaf that leads to the second one. -/
theorem edge_of_joined (hp : p < left.size) (he : (joined left right).Edge p c r) :
    left.Edge p c r ∨ ((left.state p).leaf = some c ∧ r = left.size) := by
  rw [Edge, state_joined_left hp, openLeaf] at he
  cases hleaf : (left.state p).leaf with
  | none =>
    rw [hleaf] at he
    exact .inl he
  | some leaf =>
    rw [hleaf] at he
    rcases Transitions.mem_insert.1 he with ⟨rfl, rfl⟩ | ⟨hold, -⟩
    · exact .inr ⟨rfl, rfl⟩
    · exact .inl hold

theorem covers_joined_right :
    Covers (left.size + ·) right (joined left right) fun _ => True := by
  refine .of_mapDest (fun q _ => ?_) fun _ _ _ _ _ => trivial
  rw [state_joined_right]
  exact congrArg (State.mapDest · _) (funext fun n => Nat.add_comm n left.size)

theorem acceptsFrom_joined_right :
    (joined left right).acceptsFrom (left.size + q) w = right.acceptsFrom q w :=
  covers_joined_right.acceptsFrom_eq trivial

theorem reaches_of_joined_right (h : Relation.TransGen (joined left right).Child (left.size + p) r) :
    ∃ q, r = left.size + q ∧ Relation.TransGen right.Child p q := by
  induction h with
  | single hchild =>
    obtain ⟨c, he⟩ := hchild
    obtain ⟨q, rfl, hright⟩ := edge_joined_right.1 he
    exact ⟨q, rfl, .single ⟨c, hright⟩⟩
  | tail _ hchild ih =>
    obtain ⟨q, rfl, hpath⟩ := ih
    obtain ⟨c, he⟩ := hchild
    obtain ⟨q', rfl, hright⟩ := edge_joined_right.1 he
    exact ⟨q', rfl, hpath.tail ⟨c, hright⟩⟩

section Joined

variable (hr : right.WellFormed)
include hr

/-- No bytes lead from the root of the second graph back to it. -/
theorem eq_nil_of_cycle (h : (joined left right).follow? left.size w = some left.size) : w = [] := by
  by_contra hw
  have hpath := path_of_follow? h
  cases hk : w.length with
  | zero => exact hw (List.length_eq_zero_iff.1 hk)
  | succ k =>
    rw [hk] at hpath
    cases hpath with
    | snoc hbefore hchild =>
      obtain ⟨q, hq, hcycle⟩ := reaches_of_joined_right (p := 0) (.tail' hbefore.reaches hchild)
      obtain rfl : q = 0 := by omega
      exact hr.acyclic 0 hcycle

/-- The first graph is left at one place only. -/
theorem Crosses.eq_nil (h : Crosses left right p u) (h' : Crosses left right p (u ++ v)) : v = [] := by
  rw [Crosses, follow?_append, h] at h'
  exact eq_nil_of_cycle hr h'

variable (hl : left.WellFormed)
include hl

/-- Where the first graph is left, a character of it has been read. -/
theorem Crosses.accepted (hp : p < left.size) (h : Crosses left right p u) :
    left.acceptsFrom p u = true := by
  induction u generalizing p with
  | nil =>
    obtain rfl : p = left.size := Option.some.inj h
    omega
  | cons x u ih =>
    rw [Crosses, follow?_cons] at h
    obtain ⟨r, hstep, hrest⟩ := Option.bind_eq_some_iff.1 h
    obtain ⟨c, hx, he⟩ := Transitions.exists_of_step? hstep
    rcases edge_of_joined hp he with he | ⟨hleaf, rfl⟩
    · have hu := ih (hl.target_lt p c r he) hrest
      rwa [acceptsFrom_of_step (hl.step?_iff.2 ⟨c, hx, he⟩) (ne_nil_of_acceptsFrom hu)]
    · obtain rfl := eq_nil_of_cycle hr hrest
      rw [acceptsFrom_singleton, completes_iff]
      exact ⟨c, hleaf, hx⟩

omit hr in
/-- Whatever is accepted leaves the first graph somewhere, and the rest is a character of the second one. -/
theorem exists_crossing (hp : p < left.size) (h : (joined left right).acceptsFrom p w = true) :
    ∃ u v, w = u ++ v ∧ Crosses left right p u ∧ right.accepts v = true := by
  induction w generalizing p with
  | nil => simp [acceptsFrom] at h
  | cons x w ih =>
    cases w with
    | nil =>
      -- no leaf is left in the first graph
      rw [acceptsFrom_singleton, completes_iff, state_joined_left hp, leaf_openLeaf] at h
      obtain ⟨leaf, hleaf, -⟩ := h
      cases hleaf
    | cons y w =>
      rw [acceptsFrom_cons (by simp)] at h
      cases hstep : ((joined left right).state p).transitions.step? x with
      | none => simp [hstep] at h
      | some r =>
        rw [hstep] at h
        obtain ⟨c, -, he⟩ := Transitions.exists_of_step? hstep
        rcases edge_of_joined hp he with he | ⟨-, rfl⟩
        · obtain ⟨u, v, hw, hu, hv⟩ := ih (hl.target_lt p c r he) h
          refine ⟨x :: u, v, by rw [hw, List.cons_append], ?_, hv⟩
          rw [Crosses, follow?_cons, hstep]
          exact hu
        · refine ⟨[x], y :: w, rfl, ?_, ?_⟩
          · rw [Crosses, follow?_cons, hstep]
            rfl
          · exact (acceptsFrom_joined_right (q := 0)).symm.trans h

/-- If no byte both ends a character of the first graph and leads on, each character leads to the second
graph. -/
theorem crosses_of_unambiguous (hclear : left.Unambiguous) (hpos : 0 < right.size)
    (h : left.acceptsFrom p u = true) : Crosses left right p u := by
  have hproper := proper_joined hl hclear hr hpos
  induction u generalizing p with
  | nil => simp [acceptsFrom] at h
  | cons x u ih =>
    rw [Crosses, follow?_cons]
    cases u with
    | nil =>
      rw [acceptsFrom_singleton, completes_iff] at h
      obtain ⟨leaf, hleaf, hx⟩ := h
      have he : (joined left right).Edge p leaf left.size :=
        (edge_joined_left hl hclear (lt_of_leaf hleaf)).2 (.inr ⟨hleaf, rfl⟩)
      rw [hproper.step?_iff.2 ⟨leaf, hx, he⟩]
      rfl
    | cons y u =>
      rw [acceptsFrom_cons (by simp)] at h
      cases hstep : (left.state p).transitions.step? x with
      | none => simp [hstep] at h
      | some r =>
        rw [hstep] at h
        obtain ⟨c, hx, he⟩ := hl.step?_iff.1 hstep
        have he' : (joined left right).Edge p c r := (edge_joined_left hl hclear (lt_of_edge he)).2 (.inl he)
        rw [hproper.step?_iff.2 ⟨c, hx, he'⟩]
        exact ih h

end Joined

/-- The lengths of the strings that are accepted. -/
def lengths (a : Automaton) : Set Nat := {k | ∃ w, a.accepts w = true ∧ w.length = k}

/-- An automaton accepts a shortest and a longest string. -/
theorem WellFormed.exists_extremes (h : a.WellFormed) (hpos : 0 < a.size) :
    ∃ s l, a.accepts s = true ∧ a.accepts l = true ∧
      ∀ w, a.accepts w = true → s.length ≤ w.length ∧ w.length ≤ l.length := by
  have hsome : a.lengths.Nonempty := by
    obtain ⟨w, hw⟩ := h.productive_iff.1 (h.productive 0 hpos)
    exact ⟨w.length, w, hw, rfl⟩
  have hbound : BddAbove a.lengths := by
    refine ⟨a.size, ?_⟩
    rintro _ ⟨w, hw, rfl⟩
    exact h.length_le hw
  obtain ⟨s, hs, hmin⟩ := Nat.sInf_mem hsome
  obtain ⟨l, hl, hmax⟩ := Nat.sSup_mem hsome hbound
  refine ⟨s, l, hs, hl, fun w hw => ⟨?_, ?_⟩⟩
  · rw [hmin]
    exact Nat.sInf_le ⟨w, hw, rfl⟩
  · rw [hmax]
    exact le_csSup hbound ⟨w, hw, rfl⟩

/-- If all concatenations are accepted, each character of the first graph leads to the second one: followed
by a shortest character of the second graph it cannot do so later, and followed by a longest one not
earlier. -/
theorem crosses_of_complete (hl : left.WellFormed) (hr : right.WellFormed) (hlpos : 0 < left.size)
    (hrpos : 0 < right.size)
    (hall : ∀ u v, left.accepts u = true → right.accepts v = true →
      (joined left right).accepts (u ++ v) = true)
    (hu : left.accepts u = true) : Crosses left right 0 u := by
  obtain ⟨s, l, hs, hl', hextreme⟩ := hr.exists_extremes hrpos
  obtain ⟨early, b, heq, hearly, hb⟩ := exists_crossing hl hlpos (hall u s hu hs)
  obtain ⟨late, b', heq', hlate, hb'⟩ := exists_crossing hl hlpos (hall u l hu hl')
  have hlen := congrArg List.length heq
  have hlen' := congrArg List.length heq'
  simp only [List.length_append] at hlen hlen'
  have hearlyLe : early.length ≤ u.length := by
    have := (hextreme b hb).1
    omega
  have hlateGe : u.length ≤ late.length := by
    have := (hextreme b' hb').2
    omega
  obtain ⟨t, rfl⟩ : early <+: u :=
    List.prefix_of_prefix_length_le ⟨b, heq.symm⟩ (List.prefix_append u s) hearlyLe
  obtain ⟨t', rfl⟩ : early ++ t <+: late :=
    List.prefix_of_prefix_length_le (List.prefix_append _ l) ⟨b', heq'.symm⟩ hlateGe
  rw [List.append_assoc] at hlate
  obtain ⟨rfl, -⟩ := List.append_eq_nil_iff.1 (hearly.eq_nil hr hlate)
  rwa [List.append_nil]

end Automaton

namespace CharSet

open Automaton

variable {a b : CharSet}

/-- The sequence of two sets accepts a character of the first one followed by one of the second, and nothing
else. It accepts all of these if no character of the first set starts with another one, and only then. -/
theorem sequence_exact (ha : a.WellFormed) (hb : b.WellFormed) (he : a.encoding = b.encoding)
    (hane : a.isEmpty = false) (hbne : b.isEmpty = false) :
    ∃ c, a.sequence b = .ok c ∧
      (∀ w, c.accepts w = true → ∃ u v, w = u ++ v ∧ a.accepts u = true ∧ b.accepts v = true) ∧
      ((∀ w, c.accepts w = true ↔ ∃ u v, w = u ++ v ∧ a.accepts u = true ∧ b.accepts v = true) ↔
        ∀ u v, a.accepts u = true → a.accepts (u ++ v) = true → v = []) := by
  obtain ⟨hawf, hasame⟩ := wellFormed_toGraph ha
  obtain ⟨hbwf, hbsame⟩ := wellFormed_toGraph hb
  have hapos := size_toGraph_pos ha hane
  have hbpos := size_toGraph_pos hb hbne
  have hsound : ∀ w, (joined a.toGraph.states b.toGraph.states).accepts w = true →
      ∃ u v, w = u ++ v ∧ a.accepts u = true ∧ b.accepts v = true := by
    intro w hw
    obtain ⟨u, v, rfl, hu, hv⟩ := exists_crossing hawf.states hapos hw
    refine ⟨u, v, rfl, ?_, ?_⟩
    · rw [← hasame]
      exact hu.accepted hbwf.states hawf.states hapos
    · rw [← hbsame]
      exact hv
  refine ⟨_, sequence_eq he hane hbne, hsound, fun hexact u v hu huv => ?_, fun hfree w =>
    ⟨hsound w, ?_⟩⟩
  · -- two characters would leave the first graph at different places
    have hcrosses : ∀ u, a.accepts u = true → Crosses a.toGraph.states b.toGraph.states 0 u := by
      intro u hu
      refine crosses_of_complete hawf.states hbwf.states hapos hbpos (fun u v hu hv => ?_) ?_
      · exact (hexact (u ++ v)).2 ⟨u, v, rfl, by rw [← hasame]; exact hu, by rw [← hbsame]; exact hv⟩
      · exact (hasame u).trans hu
    exact (hcrosses u hu).eq_nil hbwf.states (hcrosses _ huv)
  · rintro ⟨u, v, rfl, hu, hv⟩
    have hclear : a.toGraph.states.Unambiguous :=
      unambiguous_of_prefix_free hawf.states fun u v hu huv =>
        hfree u v (by rw [← hasame]; exact hu) (by rw [← hasame]; exact huv)
    have hv' : b.toGraph.accepts v = true := (hbsame v).trans hv
    refine (acceptsFrom_append (ne_nil_of_acceptsFrom hv')).2 ⟨a.toGraph.states.size, ?_, ?_⟩
    · exact crosses_of_unambiguous hbwf.states hawf.states hclear hbpos ((hasame u).trans hu)
    · rw [← Nat.add_zero a.toGraph.states.size, acceptsFrom_joined_right]
      exact hv'

theorem sequence_exact_short :
    shortTree.WellFormed ∧ shortGraph.WellFormed ∧ shortTree.encoding = shortGraph.encoding ∧
    shortTree.isEmpty = false ∧ shortGraph.isEmpty = false ∧
    ∃ c, shortTree.sequence shortGraph = .ok c ∧
      (∀ w, c.accepts w = true →
        ∃ u v, w = u ++ v ∧ shortTree.accepts u = true ∧ shortGraph.accepts v = true) ∧
      ((∀ w, c.accepts w = true ↔
        ∃ u v, w = u ++ v ∧ shortTree.accepts u = true ∧ shortGraph.accepts v = true) ↔
          ∀ u v, shortTree.accepts u = true → shortTree.accepts (u ++ v) = true → v = []) :=
  ⟨wellFormed_shortTree, wellFormed_shortGraph, rfl, by decide +kernel, by decide +kernel,
    sequence_exact wellFormed_shortTree wellFormed_shortGraph rfl (by decide +kernel)
      (by decide +kernel)⟩

/-- The characters `a` and `ab`. -/
def letterAndPair : CharSet where
  encoding := .ascii
  states := #[⟨.ofList [(.singleton 0x61, 1)], some (.singleton 0x61)⟩, ⟨∅, some (.singleton 0x62)⟩]
  form := .tree

/-- The character `c`. -/
def lastLetter : CharSet where
  encoding := .ascii
  states := #[⟨∅, some (.singleton 0x63)⟩]
  form := .tree

/-- The leaf `a` takes the place of the label `a`, so that `ab` followed by `c` gets lost. -/
theorem sequence_loses_extension :
    letterAndPair.WellFormed ∧ lastLetter.WellFormed ∧ letterAndPair.encoding = lastLetter.encoding ∧
    letterAndPair.accepts [0x61, 0x62] = true ∧ lastLetter.accepts [0x63] = true ∧
    ∃ c, letterAndPair.sequence lastLetter = .ok c ∧ c.accepts [0x61, 0x63] = true ∧
      c.accepts ([0x61, 0x62] ++ [0x63]) = false := by
  refine ⟨⟨.of_ascending (by decide +kernel) (by decide +kernel) (by decide +kernel)
    (by decide +kernel) (by decide +kernel), fun _ => WellFormed.isTree (.of_ascending
    (by decide +kernel) (by decide +kernel) (by decide +kernel) (by decide +kernel) (by decide +kernel))
    (by decide +kernel)⟩, ⟨.of_ascending (by decide +kernel) (by decide +kernel) (by decide +kernel)
    (by decide +kernel) (by decide +kernel), fun _ => isTree_of_size_lt (by decide)⟩, rfl,
    by decide +kernel, by decide +kernel,
    { letterAndPair with
      states := #[⟨.ofList [(.singleton 0x61, 2)], none⟩, ⟨.ofList [(.singleton 0x62, 2)], none⟩,
        ⟨∅, some (.singleton 0x63)⟩]
      form := .graph },
    by decide +kernel, by decide +kernel, by decide +kernel⟩

end CharSet
end ByteMatch
