import ByteMatch.Pattern.Traversal
import ByteMatch.Proofs.Pattern.Tree

/-!
# ByteMatch.Proofs.Pattern.Traversal

A walk with a stack takes the steps of the outline.

* `Traversal.Yields`: the steps of a walk until none is left, without a bound on their number. There is
  only one list of them (`Traversal.Yields.unique`).
* `Traversal.pending`: the steps that a stack stands for. The walk takes the first one and leaves a stack
  that stands for the others (`Traversal.Below.next`).
* `Traversal.Below.run_eq`, `Traversal.Below.yields`: so it takes all of them in their order.
* `Event.Balanced`: nodes are entered and left like brackets that are opened and closed.
* `Pattern.Acyclic.traverse_exact`: where no node is below itself, all walks end with the steps of the
  outline. They follow the links to children and no others.
-/

namespace ByteMatch

variable {p q : Pattern} {root i j n : Nat} {e : Event} {es es' : List Event} {t rest : Traversal}

/-! ## Brackets -/

namespace Event

/-- The node that a step enters. -/
def entered? : Event → Option Nat
  | .enter i => some i
  | .leave _ => none

/-- Each node that is entered is left again, after all those that have been entered since. -/
inductive Balanced : List Event → Prop where
  | nil : Balanced []
  | node (i : Nat) {inner rest : List Event} :
      Balanced inner → Balanced rest → Balanced (.enter i :: inner ++ .leave i :: rest)

theorem Balanced.append (h : Balanced es) (h' : Balanced es') : Balanced (es ++ es') := by
  induction h with
  | nil => exact h'
  | node i hinner _ _ ih =>
    rw [List.append_assoc, List.cons_append]
    exact .node i hinner ih

end Event

namespace Outline

theorem eventsList_map {f : Nat → Outline} {is : List Nat} :
    eventsList (is.map f) = is.flatMap fun i => (f i).events := by
  induction is with
  | nil => rfl
  | cons i rest ih => rw [List.map_cons, eventsList, ih, List.flatMap_cons]

mutual

theorem balanced_events : ∀ o : Outline, Event.Balanced o.events
  | node i children => by
    rw [events]
    exact .node i (balanced_eventsList children) .nil

theorem balanced_eventsList : ∀ os : List Outline, Event.Balanced (eventsList os)
  | [] => .nil
  | o :: rest => (balanced_events o).append (balanced_eventsList rest)

end

mutual

/-- There are two steps for each place. -/
theorem length_events : ∀ o : Outline, o.events.length = 2 * o.size
  | node i children => by
    have hchildren := length_eventsList children
    simp only [events, size, List.length_append, List.length_cons, List.length_nil, hchildren]
    omega

theorem length_eventsList : ∀ os : List Outline, (eventsList os).length = 2 * sizeList os
  | [] => rfl
  | o :: rest => by
    rw [eventsList, sizeList, List.length_append, length_events o, length_eventsList rest, Nat.mul_add]

end

mutual

/-- Places are entered before those below them. -/
theorem entered_events : ∀ o : Outline, o.events.filterMap Event.entered? = o.preorder
  | node i children => by
    have hchildren := entered_eventsList children
    simp [events, preorder, Event.entered?, hchildren]

theorem entered_eventsList : ∀ os : List Outline,
    (eventsList os).filterMap Event.entered? = preorderList os
  | [] => rfl
  | o :: rest => by
    rw [eventsList, preorderList, List.filterMap_append, entered_events o, entered_eventsList rest]

end
end Outline

namespace Pattern.Acyclic

variable (h : p.Acyclic root)
include h

theorem events_eq (hi : p.Reaches root i) : (p.outline i).events =
    .enter i :: ((p.node i).children.flatMap fun j => (p.outline j).events) ++ [.leave i] := by
  rw [h.outline_eq hi, Outline.events, Outline.eventsList_map]

theorem enter_mem_events (hi : p.Reaches root i) : .enter j ∈ (p.outline i).events ↔ p.Reaches i j := by
  rw [← h.mem_preorder hi, ← Outline.entered_events, List.mem_filterMap]
  constructor
  · exact fun hj => ⟨.enter j, hj, rfl⟩
  · rintro ⟨e, he, hj⟩
    cases e with
    | enter k =>
      obtain rfl : k = j := Option.some.inj hj
      exact he
    | leave k => cases hj

end Pattern.Acyclic

/-! ## Walks -/

namespace Traversal

/-- Without a bound on their number, the steps of a walk until none is left. -/
inductive Yields (p : Pattern) : Traversal → List Event → Prop where
  | done {t : Traversal} : t.next? p = none → Yields p t []
  | step {t rest : Traversal} {e : Event} {es : List Event} :
      t.next? p = some (e, rest) → Yields p rest es → Yields p t (e :: es)

theorem Yields.unique (h : Yields p t es) (h' : Yields p t es') : es = es' := by
  induction h generalizing es' with
  | done hnext =>
    cases h' with
    | done _ => rfl
    | step hnext' _ =>
      rw [hnext] at hnext'
      cases hnext'
  | step hnext _ ih =>
    cases h' with
    | done hnext' =>
      rw [hnext] at hnext'
      cases hnext'
    | step hnext' hrest =>
      rw [hnext] at hnext'
      cases hnext'
      rw [ih hrest]

/-- A walk follows the links to children and no others. -/
theorem next?_congr (h : ∀ j, (q.node j).children = (p.node j).children) : t.next? q = t.next? p := by
  match t with
  | [] => rfl
  | .enter i :: rest => rw [next?, next?, h]
  | .leave i :: rest => rfl

theorem Yields.congr (h : ∀ j, (q.node j).children = (p.node j).children) (hy : Yields q t es) :
    Yields p t es := by
  induction hy with
  | done hnext => exact .done (next?_congr h ▸ hnext)
  | step hnext _ ih => exact .step (next?_congr h ▸ hnext) ih

theorem next?_eq_none_iff : t.next? p = none ↔ t = [] := by
  match t with
  | [] => simp [next?]
  | .enter i :: rest => simp [next?]
  | .leave i :: rest => simp [next?]

/-- The steps that a step on the stack stands for. A node that is still to be entered is walked through. -/
def expand (p : Pattern) : Event → List Event
  | .enter i => (p.outline i).events
  | .leave i => [.leave i]

/-- The steps that a stack stands for. -/
def pending (p : Pattern) (t : Traversal) : List Event := t.flatMap (expand p)

/-- The nodes that are still to be entered are below the root. -/
def Below (p : Pattern) (root : Nat) (t : Traversal) : Prop := ∀ i, .enter i ∈ t → p.Reaches root i

theorem pending_start : pending p (start i) = (p.outline i).events := List.append_nil _

theorem below_start : Below p i (start i) := by
  intro j hj
  obtain rfl : j = i := by simpa [start] using hj
  exact .refl

namespace Below

variable (h : p.Acyclic root)
include h

/-- A walk takes the first of the steps that its stack stands for. -/
theorem next (ht : Below p root t) (hnext : t.next? p = some (e, rest)) :
    Below p root rest ∧ pending p t = e :: pending p rest := by
  match t with
  | [] => cases hnext
  | .leave i :: below =>
    cases hnext
    exact ⟨fun j hj => ht j (List.mem_cons_of_mem _ hj), rfl⟩
  | .enter i :: below =>
    have hi := ht i List.mem_cons_self
    cases hnext
    constructor
    · intro j hj
      rcases List.mem_append.1 hj with hj | hj
      · obtain ⟨k, hk, heq⟩ := List.mem_map.1 hj
        cases heq
        exact hi.tail hk
      · exact ht j (List.mem_cons_of_mem _ ((List.mem_cons.1 hj).resolve_left Event.noConfusion))
    · rw [pending, List.flatMap_cons, expand, h.events_eq hi]
      simp [pending, expand, List.flatMap_map]

/-- After any number of steps, a walk has taken that many of those that its stack stands for. -/
theorem run_eq (ht : Below p root t) (n : Nat) : t.run p n = (pending p t).take n := by
  induction n generalizing t with
  | zero => rw [run, List.take_zero]
  | succ n ih =>
    rw [run]
    cases hnext : t.next? p with
    | none =>
      rw [next?_eq_none_iff.1 hnext]
      rfl
    | some r =>
      obtain ⟨hrest, hpending⟩ := ht.next h hnext
      rw [hpending, List.take_succ_cons, ← ih hrest]

/-- A walk ends when it has taken all the steps that its stack stands for. -/
theorem yields (ht : Below p root t) : Yields p t (pending p t) := by
  generalize hes : pending p t = es
  induction es generalizing t with
  | nil =>
    cases hnext : t.next? p with
    | none => exact .done hnext
    | some r =>
      rw [(ht.next h hnext).2] at hes
      cases hes
  | cons e es ih =>
    cases hnext : t.next? p with
    | none =>
      rw [next?_eq_none_iff.1 hnext] at hes
      cases hes
    | some r =>
      obtain ⟨hrest, hpending⟩ := ht.next h hnext
      obtain ⟨rfl, htail⟩ := List.cons.inj (hpending.symm.trans hes)
      exact .step hnext (ih hrest htail)

end Below
end Traversal

namespace Pattern

open Traversal

/-- Where no node is below itself, a walk from a node ends and takes the steps of its outline: it enters the
node, walks through the children in their order, once for each occurrence, and leaves the node. Nodes are
entered and left like brackets, only those below the start are entered, and of the links of nodes only those
to children matter. -/
theorem Acyclic.traverse_exact (h : p.Acyclic i) :
    (∀ es, Yields p (start i) es ↔ es = (p.outline i).events) ∧
    p.traverse i = (p.outline i).events ∧
    (∀ j, p.Reaches i j → (p.outline j).events =
      .enter j :: ((p.node j).children.flatMap fun k => (p.outline k).events) ++ [.leave j]) ∧
    Event.Balanced (p.outline i).events ∧
    (∀ j, .enter j ∈ (p.outline i).events ↔ p.Reaches i j) ∧
    ∀ q : Pattern, (∀ j, (q.node j).children = (p.node j).children) →
      ∀ es, Yields q (start i) es ↔ Yields p (start i) es := by
  have hyields : Yields p (start i) (p.outline i).events := pending_start ▸ below_start.yields h
  refine ⟨fun es => ⟨fun hes => hes.unique hyields, fun hes => hes ▸ hyields⟩, ?_,
    fun j hj => h.events_eq hj, Outline.balanced_events _, fun j => h.enter_mem_events .refl,
    fun q hq es => ⟨.congr hq, .congr fun j => (hq j).symm⟩⟩
  rw [traverse, below_start.run_eq h, pending_start, ← Outline.length_events, List.take_length]

/-- A class that occurs three times, once below a repetition that looks ahead to what follows it. -/
def sharedClass : Pattern where
  nodes := #[
    { kind := .group, children := [1, 2, 3] },
    { kind := .repetition 0 none, children := [3], lookAhead := some 2 },
    { kind := .alternation, children := [3, 4] },
    { kind := .charClass 1 },
    { kind := .charClass 2 }]
  root := some 0

theorem traverse_exact_sharedClass : sharedClass.Acyclic 0 ∧
    (∀ es, Yields sharedClass (start 0) es ↔ es = [.enter 0, .enter 1, .enter 3, .leave 3, .leave 1,
      .enter 2, .enter 3, .leave 3, .enter 4, .leave 4, .leave 2, .enter 3, .leave 3, .leave 0]) ∧
    Event.Balanced (sharedClass.traverse 0) := by
  have hacyclic : sharedClass.Acyclic 0 := acyclic_of_lt (by decide) (by decide)
  obtain ⟨hyields, htraverse, -, hbalanced, -⟩ := hacyclic.traverse_exact
  exact ⟨hacyclic, hyields, htraverse ▸ hbalanced⟩

end Pattern
end ByteMatch
