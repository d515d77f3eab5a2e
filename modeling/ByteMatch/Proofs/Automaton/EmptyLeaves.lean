import ByteMatch.Automaton.Compact
import ByteMatch.Proofs.Automaton.Forest

/-!
# ByteMatch.Proofs.Automaton.EmptyLeaves

Trees in which leaves may be empty, and how trimming drops them.

A state is looked at after its leaf has been dropped if that is empty. So the tree could have been without
empty leaves from the start.

* `Automaton.acceptsFrom_dropEmptyLeaves`: empty leaves make no difference to what is accepted.
* `Automaton.mapStep_trimStep`: seen without empty leaves, a step of the walk upwards is one that looks at
  no leaf.
* `Automaton.trimStep_full`, `Automaton.trimFrom_full`: what has been visited has no empty leaf.
* `Automaton.dropEmptyLeaves_trim`: in the end there are none.
-/

namespace ByteMatch

/-- The state without its leaf if that is empty. -/
def State.dropEmptyLeaf (s : State) : State := { s with leaf := s.leaf.filter (!·.isEmpty) }

@[simp]
theorem State.transitions_dropEmptyLeaf {s : State} : s.dropEmptyLeaf.transitions = s.transitions := rfl

theorem State.dropEmptyLeaf_idem {s : State} : s.dropEmptyLeaf.dropEmptyLeaf = s.dropEmptyLeaf := by
  simp [State.dropEmptyLeaf, Option.filter_filter]

/-- An empty leaf completes nothing. -/
theorem State.completes_dropEmptyLeaf {s : State} {x : UInt8} :
    s.dropEmptyLeaf.completes x = s.completes x := by
  rw [Bool.eq_iff_iff, Automaton.completes_iff, Automaton.completes_iff]
  refine exists_congr fun leaf => and_congr_left fun hx => ?_
  rw [State.dropEmptyLeaf, Option.filter_eq_some_iff]
  refine and_iff_left_of_imp fun _ => ?_
  rw [Bool.not_eq_true', ByteSet.isEmpty_eq_false_iff]
  exact ⟨x, hx⟩

namespace Automaton

variable {a t : Automaton} {p q : Nat} {ps : Array (Option (Nat × ByteSet))}

/-- The automaton without empty leaves. -/
def dropEmptyLeaves (a : Automaton) : Automaton := a.map State.dropEmptyLeaf

@[simp] theorem size_dropEmptyLeaves : a.dropEmptyLeaves.size = a.size := Array.size_map

@[simp] theorem state_dropEmptyLeaves : a.dropEmptyLeaves.state q = (a.state q).dropEmptyLeaf :=
  state_map rfl

theorem dropEmptyLeaves_modify {f : State → State} (h : ∀ s, (f s).dropEmptyLeaf = f s.dropEmptyLeaf) :
    dropEmptyLeaves (a.modify q f) = a.dropEmptyLeaves.modify q f := by
  refine ext_state (by simp) fun p => ?_
  rw [state_dropEmptyLeaves, state_modify, state_modify, size_dropEmptyLeaves, state_dropEmptyLeaves]
  split
  · exact h _
  · rfl

@[simp] theorem edge_dropEmptyLeaves {c : ByteSet} : a.dropEmptyLeaves.Edge p c q ↔ a.Edge p c q := by
  rw [Edge, state_dropEmptyLeaves]
  rfl

theorem dropEmptyLeaves_eq_self (h : ∀ q leaf, (a.state q).leaf = some leaf → ∃ x, x ∈ leaf) :
    a.dropEmptyLeaves = a := by
  refine ext_state size_dropEmptyLeaves fun q => ?_
  rw [state_dropEmptyLeaves, State.dropEmptyLeaf]
  cases hleaf : (a.state q).leaf with
  | none => rw [Option.filter_none, ← hleaf]
  | some leaf =>
    rw [Option.filter_some, if_pos, ← hleaf]
    rw [Bool.not_eq_true', ByteSet.isEmpty_eq_false_iff]
    exact h q leaf hleaf

/-- Whether a leaf is empty or missing makes no difference to what is accepted. -/
theorem acceptsFrom_dropEmptyLeaves {w : List UInt8} :
    a.dropEmptyLeaves.acceptsFrom q w = a.acceptsFrom q w := by
  induction w generalizing q with
  | nil => rw [acceptsFrom, acceptsFrom]
  | cons x w ih =>
    cases w with
    | nil => rw [acceptsFrom_singleton, acceptsFrom_singleton, state_dropEmptyLeaves,
        State.completes_dropEmptyLeaf]
    | cons y w =>
      rw [acceptsFrom_cons (by simp), acceptsFrom_cons (by simp), state_dropEmptyLeaves,
        State.transitions_dropEmptyLeaf]
      cases (a.state q).transitions.step? x with
      | none => rfl
      | some next => exact ih

theorem TreeWithHoles.dropEmptyLeaves (h : t.TreeWithHoles) : t.dropEmptyLeaves.TreeWithHoles := by
  have hchild : t.dropEmptyLeaves.Child = t.Child := by
    funext p q
    exact propext (exists_congr fun c => edge_dropEmptyLeaves)
  refine ⟨fun p c q he => ?_, fun p => ?_, fun p => ?_, fun q hq hne => ?_⟩
  · rw [size_dropEmptyLeaves]
    exact h.target_lt p c q (edge_dropEmptyLeaves.1 he)
  · rw [state_dropEmptyLeaves]
    exact h.labels_disjoint p
  · rw [hchild]
    exact h.root_orphan p
  · rw [Reaches, hchild]
    simp only [edge_dropEmptyLeaves]
    refine (h.placed q (by simpa using hq) hne).imp_right fun ⟨hhole, hnone⟩ => ⟨?_, hnone⟩
    rw [state_dropEmptyLeaves, State.isHole_iff.1 hhole]
    rfl

theorem parents_dropEmptyLeaves : a.dropEmptyLeaves.parents = a.parents := by
  rw [parents, parents, size_dropEmptyLeaves, dropEmptyLeaves, Array.toList_map, List.zipIdx_map,
    List.foldl_map]
  rfl

/-- The leaf of the state is not empty. -/
def FullAt (a : Automaton) (q : Nat) : Prop := (a.state q).dropEmptyLeaf = a.state q

theorem fullAt_of_ge (h : a.size ≤ q) : a.FullAt q := by
  rw [FullAt, state_of_ge h]
  rfl

theorem fullAt_modify_self : FullAt (a.modify q State.dropEmptyLeaf) q := by
  by_cases hq : q < a.size
  · rw [FullAt, state_modify_self hq, State.dropEmptyLeaf_idem]
  · exact fullAt_of_ge (by simpa using hq)

theorem FullAt.modify {f : State → State} (h : a.FullAt p)
    (hf : ∀ s, s.dropEmptyLeaf = s → (f s).dropEmptyLeaf = f s) : FullAt (a.modify q f) p := by
  rw [FullAt, state_modify]
  split
  · exact hf _ h
  · exact h

/-- What a step does after it has dropped the leaf of the state that it visits. -/
def climb (ps : Array (Option (Nat × ByteSet))) (q : Nat) (a : Automaton) : ForInStep (Nat × Automaton) :=
  if !(a.state q).isHole || q == 0 then .done (q, a)
  else
    match ps.getD q none with
    | none => .done (q, a)
    | some (parent, code) =>
      if ((a.state parent).transitions.get? code).isNone then .done (q, a)
      else .yield (parent, a.modify parent (·.eraseTransition code))

theorem trimStep_eq : trimStep ps (q, a) = climb ps q (a.modify q State.dropEmptyLeaf) := rfl

theorem dropEmptyLeaves_modify_dropEmptyLeaf :
    dropEmptyLeaves (a.modify q State.dropEmptyLeaf) = a.dropEmptyLeaves := by
  refine ext_state (by simp) fun p => ?_
  rw [state_dropEmptyLeaves, state_dropEmptyLeaves, state_modify]
  split
  · exact State.dropEmptyLeaf_idem
  · rfl

theorem climb_dropEmptyLeaves (hq : a.FullAt q) : climb ps q a.dropEmptyLeaves =
    Loop.mapStep (fun s => (s.1, s.2.dropEmptyLeaves)) (climb ps q a) := by
  have hstate : a.dropEmptyLeaves.state q = a.state q := by rw [state_dropEmptyLeaves, hq]
  have htrans : ∀ p, (a.dropEmptyLeaves.state p).transitions = (a.state p).transitions := by
    intro p
    rw [state_dropEmptyLeaves, State.transitions_dropEmptyLeaf]
  have herase : ∀ p code, a.dropEmptyLeaves.modify p (·.eraseTransition code) =
      dropEmptyLeaves (a.modify p (·.eraseTransition code)) := by
    intro p code
    rw [dropEmptyLeaves_modify]
    exact fun _ => rfl
  simp only [climb, hstate, htrans, herase]
  split
  · rfl
  · split
    · rfl
    · split <;> rfl

/-- What a step does, seen without the empty leaves. -/
theorem mapStep_trimStep : Loop.mapStep (fun s => (s.1, s.2.dropEmptyLeaves)) (trimStep ps (q, a)) =
    climb ps q a.dropEmptyLeaves := by
  rw [trimStep_eq, ← climb_dropEmptyLeaves fullAt_modify_self, dropEmptyLeaves_modify_dropEmptyLeaf]

theorem climb_full {r : Nat × Automaton} (hp : a.FullAt p)
    (h : climb ps q a = .done r ∨ climb ps q a = .yield r) : r.2.FullAt p := by
  have herase : ∀ parent code, FullAt (a.modify parent (·.eraseTransition code)) p := fun parent code =>
    hp.modify fun s hs => congrArg (State.mk _) (congrArg State.leaf hs)
  rw [climb] at h
  split at h
  · obtain rfl : (q, a) = r := by simpa using h
    exact hp
  · split at h
    · obtain rfl : (q, a) = r := by simpa using h
      exact hp
    · rename_i parent code _
      split at h
      · obtain rfl : (q, a) = r := by simpa using h
        exact hp
      · obtain rfl : (parent, a.modify parent (·.eraseTransition code)) = r := by simpa using h
        exact herase parent code

/-- What a step leaves behind: the state that it visits is full, and those that have been full are. -/
theorem trimStep_full {s r : Nat × Automaton} (h : trimStep ps s = .done r ∨ trimStep ps s = .yield r) :
    r.2.FullAt s.1 ∧ ∀ p, s.2.FullAt p → r.2.FullAt p := by
  obtain ⟨q, a⟩ := s
  rw [trimStep_eq] at h
  exact ⟨climb_full fullAt_modify_self h,
    fun p hp => climb_full (hp.modify fun s hs => by rw [hs, hs]) h⟩

theorem trimFrom_full : (trimFrom ps a q).FullAt q ∧ ∀ p, a.FullAt p → (trimFrom ps a q).FullAt p := by
  have hrun : ∀ n s, ∀ p, s.2.FullAt p → (Loop.run (trimStep ps) n s).2.FullAt p := fun n s p hp =>
    Loop.run_spec (fun s : Nat × Automaton => s.2.FullAt p)
      (fun s r hs hr => (trimStep_full (.inl hr)).2 p hs)
      (fun s r hs hr => (trimStep_full (.inr hr)).2 p hs) hp n
  refine ⟨?_, hrun a.size (q, a)⟩
  rw [trimFrom]
  cases hsize : a.size with
  | zero => exact fullAt_of_ge (by simp [Loop.run, hsize])
  | succ n =>
    rw [Loop.run]
    cases hs : trimStep ps (q, a) with
    | done r => exact (trimStep_full (.inl hs)).1
    | yield t => exact hrun n t q (trimStep_full (.inr hs)).1

/-- A trimmed tree has no empty leaves. -/
theorem dropEmptyLeaves_trim : t.trim.dropEmptyLeaves = t.trim := by
  have hfull : ∀ (qs : List Nat) (a : Automaton) p, (p ∈ qs ∨ a.FullAt p) →
      (qs.foldl (trimFrom t.parents) a).FullAt p := by
    intro qs
    induction qs with
    | nil => exact fun a p hp => hp.resolve_left (by simp)
    | cons q qs ih =>
      intro a p hp
      refine ih _ p ?_
      rw [List.mem_cons, or_assoc] at hp
      obtain rfl | hp | hp := hp
      · exact .inr trimFrom_full.1
      · exact .inl hp
      · exact .inr (trimFrom_full.2 p hp)
  refine ext_state size_dropEmptyLeaves fun p => ?_
  rw [state_dropEmptyLeaves]
  by_cases hp : p < t.size
  · exact hfull (List.range t.size) t p (.inl (List.mem_range.2 hp))
  · exact hfull (List.range t.size) t p (.inr (fullAt_of_ge (Nat.le_of_not_lt hp)))

end Automaton
end ByteMatch
