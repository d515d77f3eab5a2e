import ByteMatch.Proofs.Automaton.Forest
import ByteMatch.Proofs.Automaton.Ranking
import ByteMatch.Proofs.Automaton.Residual
import ByteMatch.Proofs.Automaton.Signature

/-!
# ByteMatch.Proofs.Automaton.Merge

Merging the states of a tree that accept the same strings.

* `Merging.Filed`: the signatures differ from each other, and each one is found in its row.
* `Merging.Merged`: each state that has been resolved has the signature with its number.
  `Merging.Merged.resolve` is what one step keeps.
* `Automaton.Resolving`: what holds on the walk through the tree. `Automaton.Resolving.enter` and
  `Automaton.Resolving.leave` are its two moves, and `Automaton.ResolveLoop` counts them.
* `Automaton.resolveAll_spec`: the loop ends when all states of the tree have been resolved.
-/

namespace ByteMatch
namespace Merging

variable {tree : Automaton} {m m' : Merging} {sig : Signature} {id p q d : Nat}

/-- Whether a state is represented by a signature. -/
def Kept (m : Merging) (q : Nat) : Prop := ∃ id, m.resolution q = .kept id

theorem resolution_note {r : Resolution} : (m.note q r).resolution p =
    if q = p ∧ p < m.resolved.size then r else m.resolution p := by
  rw [resolution, resolution, note, Array.getD_eq_getD_getElem?, Array.getD_eq_getD_getElem?,
    Array.getElem?_setIfInBounds]
  by_cases hqp : q = p
  · subst hqp
    by_cases hq : q < m.resolved.size
    · simp [hq]
    · simp [hq]
  · simp [hqp]

/-! ## Finding signatures -/

/-- The signatures differ, each one is in its row, and their destinations have lower numbers. -/
structure Filed (m : Merging) : Prop where
  rows_size : m.rows.size = m.signatures.size + 1
  filed : ∀ (id : Nat) sig, m.signatures[id]? = some sig → id ∈ m.rows.getD sig.row []
  unique : ∀ (i j : Nat) sig, m.signatures[i]? = some sig → m.signatures[j]? = some sig → i = j
  below : ∀ (id : Nat) sig, m.signatures[id]? = some sig → ∀ e ∈ sig.targets, e.1 < id

theorem Filed.start {n : Nat} : Filed (start n) where
  rows_size := rfl
  filed id sig h := by simp [Merging.start] at h
  unique i j sig h := by simp [Merging.start] at h
  below id sig h := by simp [Merging.start] at h

theorem getElem?_of_find? (h : m.find? sig = some id) : m.signatures[id]? = some sig := by
  rw [find?] at h
  simpa using List.find?_some h

theorem Filed.ne_of_find? (h : m.Filed) (hfind : m.find? sig = none) (id : Nat) :
    m.signatures[id]? ≠ some sig := by
  intro hid
  rw [find?, List.find?_eq_none] at hfind
  exact absurd hid (by simpa using hfind id (h.filed id sig hid))

/-- What is in a row stays there, and a new signature is put into its row. -/
theorem mem_row_add {k i : Nat} (hrow : sig.row < m.rows.size)
    (h : i ∈ m.rows.getD k [] ∨ i = m.signatures.size ∧ k = sig.row) :
    i ∈ (m.add sig).rows.getD k [] := by
  have hk : k < m.rows.size := by
    rcases h with h | ⟨-, rfl⟩
    · by_contra hge
      rw [Array.getD_eq_getD_getElem?, Array.getElem?_eq_none (Nat.le_of_not_lt hge)] at h
      cases h
    · exact hrow
  rw [add, Array.getD_eq_getD_getElem?, Array.getElem?_push, Array.size_modify,
    if_neg (Nat.ne_of_lt hk), Array.getElem?_modify, Array.getElem?_eq_getElem hk]
  rw [Array.getD_eq_getD_getElem?, Array.getElem?_eq_getElem hk, Option.getD_some] at h
  by_cases hkr : sig.row = k
  · rcases h with h | ⟨rfl, -⟩
    · simp [hkr, h]
    · simp [hkr]
  · rcases h with h | ⟨-, rfl⟩
    · simp [hkr, h]
    · exact absurd rfl hkr

theorem getElem?_add : (m.add sig).signatures[id]? =
    if id = m.signatures.size then some sig else m.signatures[id]? := by
  rw [add, Array.getElem?_push]

theorem Filed.add (h : m.Filed) (hfind : m.find? sig = none)
    (hbelow : ∀ e ∈ sig.targets, e.1 < m.signatures.size) : (m.add sig).Filed := by
  have hrow : sig.row < m.rows.size := by
    rw [h.rows_size]
    exact Nat.lt_succ_of_le (Signature.row_le hbelow)
  refine ⟨?_, fun id s hid => ?_, fun i j s hi hj => ?_, fun id s hid e he => ?_⟩
  · rw [Merging.add, Array.size_push, Array.size_push, Array.size_modify, h.rows_size]
  · rw [getElem?_add] at hid
    split at hid
    · rename_i hlast
      exact mem_row_add hrow (.inr ⟨hlast, by rw [Option.some.inj hid]⟩)
    · exact mem_row_add hrow (.inl (h.filed id s hid))
  · rw [getElem?_add] at hi hj
    split at hi
    · split at hj
      · omega
      · rw [Option.some.inj hi] at hfind
        exact absurd hj (h.ne_of_find? hfind j)
    · split at hj
      · rw [Option.some.inj hj] at hfind
        exact absurd hi (h.ne_of_find? hfind i)
      · exact h.unique i j s hi hj
  · rw [getElem?_add] at hid
    split at hid
    · rename_i hlast
      rw [hlast]
      exact hbelow e (Option.some.inj hid ▸ he)
    · exact h.below id s hid e he

/-! ## Resolving states -/

/-- The states that have been resolved are represented by their signatures, and each signature
represents a state. What is below a resolved state has been resolved too. -/
structure Merged (tree : Automaton) (m : Merging) : Prop extends m.Filed where
  size : m.resolved.size = tree.size
  not_dropped : ∀ q, m.resolution q ≠ .dropped
  closed : ∀ q, m.Kept q → ∀ d, tree.Child q d → m.Kept d
  represented : ∀ q id, m.resolution q = .kept id →
    m.signatures[id]? = some (m.signature (tree.state q))
  origin : ∀ id < m.signatures.size, ∃ q, m.resolution q = .kept id

theorem resolution_start {n : Nat} : (start n).resolution q = .pending := by
  rw [resolution, start, Array.getD_eq_getD_getElem?, Array.getElem?_replicate]
  split <;> rfl

theorem Merged.start : Merged tree (start tree.size) where
  toFiled := .start
  size := by simp [Merging.start]
  not_dropped q := by simp [resolution_start]
  closed q := by simp [Kept, resolution_start]
  represented q id := by simp [resolution_start]
  origin id h := by simp [Merging.start] at h

theorem Merged.pending (h : Merged tree m) (hq : ¬ m.Kept q) : m.resolution q = .pending := by
  cases hres : m.resolution q with
  | pending => rfl
  | dropped => exact absurd hres (h.not_dropped q)
  | kept id => exact absurd ⟨id, hres⟩ hq

theorem Merged.id_lt (h : Merged tree m) (hq : m.resolution q = .kept id) :
    id < m.signatures.size :=
  (Array.getElem?_eq_some_iff.1 (h.represented q id hq)).1

theorem Merged.resolution_note (h : Merged tree m) (hsame : m'.resolved = m.resolved)
    (hq : q < tree.size) (p : Nat) : (m'.note q (.kept id)).resolution p =
      if p = q then .kept id else m.resolution p := by
  have hold : m'.resolution p = m.resolution p := by rw [resolution, hsame, resolution]
  rw [Merging.resolution_note, hold, hsame, h.size]
  by_cases hp : p = q
  · rw [if_pos hp, if_pos ⟨hp.symm, hp ▸ hq⟩]
  · rw [if_neg hp, if_neg fun hqp => hp hqp.1.symm]

/-- The children of a state have been resolved before it, so what is noted for another state does
not change its signature. -/
theorem signature_eq_of_resolution (h : ∀ d i, m.resolution d = .kept i → m'.resolution d = .kept i)
    (hchildren : ∀ d, tree.Child q d → m.Kept d) :
    m'.signature (tree.state q) = m.signature (tree.state q) := by
  refine signature_congr fun c d he => ?_
  obtain ⟨i, hi⟩ := hchildren d ⟨c, he⟩
  rw [h d i hi, hi]

/-- A state gets the number of its signature, which may have been added before. -/
theorem Merged.assign (h : Merged tree m) (hfiled : m'.Filed) (hsame : m'.resolved = m.resolved)
    (hkept : ∀ (i : Nat) s, m.signatures[i]? = some s → m'.signatures[i]? = some s)
    (hnew : ∀ i < m'.signatures.size, i < m.signatures.size ∨ i = id)
    (hid : m'.signatures[id]? = some (m.signature (tree.state q)))
    (hq : q < tree.size) (hfree : ¬ m.Kept q) (hchildren : ∀ d, tree.Child q d → m.Kept d) :
    Merged tree (m'.note q (.kept id)) := by
  have hres : ∀ p, (m'.note q (.kept id)).resolution p =
      if p = q then .kept id else m.resolution p := h.resolution_note hsame hq
  have hold : ∀ p i, m.resolution p = .kept i → (m'.note q (.kept id)).resolution p = .kept i := by
    intro p i hp
    have hne : p ≠ q := fun heq => hfree ⟨i, heq ▸ hp⟩
    rw [hres, if_neg hne, hp]
  have hkept' : ∀ {p}, m.Kept p → (m'.note q (.kept id)).Kept p := fun ⟨i, hi⟩ => ⟨i, hold _ i hi⟩
  have hbelow : ∀ p i, (m'.note q (.kept id)).resolution p = .kept i →
      (p = q ∧ i = id) ∨ m.resolution p = .kept i := by
    intro p i hp
    rw [hres] at hp
    split at hp
    · rename_i heq
      exact .inl ⟨heq, (Resolution.kept.inj hp).symm⟩
    · exact .inr hp
  refine ⟨⟨hfiled.rows_size, hfiled.filed, hfiled.unique, hfiled.below⟩, ?_, fun p => ?_,
    fun p hp d hchild => ?_, fun p i hp => ?_, fun i hi => ?_⟩
  · rw [note, Array.size_setIfInBounds, hsame, h.size]
  · rw [hres]
    split
    · simp
    · exact h.not_dropped p
  · obtain ⟨i, hi⟩ := hp
    rcases hbelow p i hi with ⟨rfl, -⟩ | hp
    · exact hkept' (hchildren d hchild)
    · exact hkept' (h.closed p ⟨i, hp⟩ d hchild)
  · rcases hbelow p i hp with ⟨rfl, rfl⟩ | hp
    · rw [signature_eq_of_resolution hold hchildren]
      exact hid
    · rw [signature_eq_of_resolution hold (h.closed p ⟨i, hp⟩)]
      exact hkept i _ (h.represented p i hp)
  · rcases hnew i hi with hi | rfl
    · obtain ⟨p, hp⟩ := h.origin i hi
      exact ⟨p, hold p i hp⟩
    · exact ⟨q, by rw [hres, if_pos rfl]⟩

/-- A state that is not a hole is kept when the states below it have been. -/
theorem Merged.not_acceptsNothing (ht : tree.Proper) (hlive : (tree.state q).isHole = false)
    (hchildren : ∀ d, tree.Child q d → m.Kept d) :
    (m.signature (tree.state q)).acceptsNothing = false := by
  rw [signature_eq ht, Signature.acceptsNothing]
  cases hleaf : (tree.state q).leaf with
  | some leaf => rfl
  | none =>
    have hsome : (tree.state q).transitions.isEmpty = false := by
      simpa [State.isHole, hleaf] using hlive
    obtain ⟨⟨c, d⟩, he⟩ := Transitions.isEmpty_eq_false_iff.1 hsome
    obtain ⟨id, hid⟩ := hchildren d ⟨c, he⟩
    obtain ⟨x, hx⟩ := ht.label_nonempty q c d he
    obtain ⟨c', hmem, -⟩ := (mem_targets fun e he => ht.label_nonempty q e.1 e.2 he).2
      ⟨(c, d), he, hid, hx⟩
    cases htargets : m.targets (tree.state q).transitions with
    | nil => simp [htargets] at hmem
    | cons e rest => rfl

theorem Merged.resolve (h : Merged tree m) (ht : tree.Proper) (hlive : (tree.state q).isHole = false)
    (hfree : ¬ m.Kept q) (hchildren : ∀ d, tree.Child q d → m.Kept d) :
    Merged tree (m.resolve q (tree.state q)) ∧ ∃ id, ∀ p,
      (m.resolve q (tree.state q)).resolution p = if p = q then .kept id else m.resolution p := by
  have hq := Automaton.lt_of_not_isHole hlive
  have hsome := Merged.not_acceptsNothing ht hlive hchildren
  rw [Merging.resolve, hsome]
  simp only [Bool.false_eq_true, if_false]
  cases hfind : m.find? (m.signature (tree.state q)) with
  | some id =>
    exact ⟨h.assign h.toFiled rfl (fun _ _ hi => hi) (fun _ hi => .inl hi)
      (getElem?_of_find? hfind) hq hfree hchildren, id, h.resolution_note rfl hq⟩
  | none =>
    have hbelow : ∀ e ∈ (m.signature (tree.state q)).targets, e.1 < m.signatures.size := by
      rw [signature_eq ht]
      rintro ⟨id, c⟩ he
      have hlabel : ∀ e ∈ (tree.state q).transitions.entries, ∃ x, x ∈ e.1 :=
        fun e he => ht.label_nonempty q e.1 e.2 he
      obtain ⟨x, hx⟩ := targets_nonempty hlabel _ he
      obtain ⟨⟨c', d⟩, -, hid, -⟩ := (mem_targets hlabel).1 ⟨c, he, hx⟩
      exact h.id_lt hid
    have hext : ∀ (i : Nat) s, m.signatures[i]? = some s →
        (m.add (m.signature (tree.state q))).signatures[i]? = some s := by
      intro i s hi
      rw [getElem?_add, if_neg (Nat.ne_of_lt (Array.getElem?_eq_some_iff.1 hi).1), hi]
    have hnew : ∀ i < (m.add (m.signature (tree.state q))).signatures.size,
        i < m.signatures.size ∨ i = m.signatures.size := by
      intro i hi
      rw [add, Array.size_push] at hi
      omega
    exact ⟨h.assign (h.toFiled.add hfind hbelow) rfl hext hnew
      (by rw [getElem?_add, if_pos rfl]) hq hfree hchildren, _, h.resolution_note rfl hq⟩

end Merging

/-! ## The walk through the tree -/

namespace Visit

/-- The states that a stack of visits enters. -/
def entered (visits : List Visit) : List Nat :=
  visits.filterMap fun
    | .enter q => some q
    | .leave _ => none

/-- The states that a stack of visits leaves. -/
def left (visits : List Visit) : List Nat :=
  visits.filterMap fun
    | .enter _ => none
    | .leave q => some q

/-- The children of a state that is left have been resolved by then: they are `ready`, or they are
entered or left further up in the stack. -/
def Ordered (tree : Automaton) : (Nat → Prop) → List Visit → Prop
  | _, [] => True
  | ready, .enter q :: rest => Ordered tree (fun d => ready d ∨ d = q) rest
  | ready, .leave q :: rest =>
    (∀ d, tree.Child q d → ready d) ∧ Ordered tree (fun d => ready d ∨ d = q) rest

variable {tree : Automaton} {ready ready' : Nat → Prop} {visits rest : List Visit} {qs : List Nat}
  {q : Nat}

theorem Ordered.mono (h : Ordered tree ready visits) (hready : ∀ d, ready d → ready' d) :
    Ordered tree ready' visits := by
  induction visits generalizing ready ready' with
  | nil => trivial
  | cons v rest ih =>
    cases v with
    | enter q => exact ih h fun d => Or.imp_left (hready d)
    | leave q =>
      exact ⟨fun d hd => hready d (h.1 d hd), ih h.2 fun d => Or.imp_left (hready d)⟩

theorem Ordered.enter_append (h : Ordered tree (fun d => ready d ∨ d ∈ qs) rest) :
    Ordered tree ready (qs.map enter ++ rest) := by
  induction qs generalizing ready with
  | nil => exact h.mono (by simp)
  | cons q qs ih =>
    refine ih (h.mono fun d => ?_)
    rw [List.mem_cons, or_assoc]
    exact id

@[simp] theorem entered_enter : entered (.enter q :: rest) = q :: entered rest := rfl

@[simp] theorem left_enter : left (.enter q :: rest) = left rest := rfl

@[simp] theorem left_leave : left (.leave q :: rest) = q :: left rest := rfl

@[simp] theorem entered_append_enter : entered (qs.map enter ++ rest) = qs ++ entered rest := by
  simp [entered, List.filterMap_append, List.filterMap_map]

@[simp] theorem left_append_enter : left (qs.map enter ++ rest) = left rest := by
  simp [left, List.filterMap_append, List.filterMap_map]

end Visit

namespace Automaton

open Merging Visit

variable {tree : Automaton} {m : Merging} {done : List Nat} {visits rest : List Visit} {q : Nat}

/-- The states in `done` have been entered, and resolved unless they are still to be left. -/
structure Resolving (tree : Automaton) (done : List Nat) (visits : List Visit) (m : Merging) :
    Prop where
  walk : tree.Walk 0 done (entered visits)
  nodup : (left visits).Nodup
  left_done : ∀ q ∈ left visits, q ∈ done
  kept_iff : ∀ q, m.Kept q ↔ q ∈ done ∧ q ∉ left visits
  ordered : Ordered tree m.Kept visits
  merged : Merged tree m

theorem Resolving.start : Resolving tree [] [.enter 0] (start tree.size) where
  walk := .single
  nodup := by simp [left]
  left_done q hq := by simp [left] at hq
  kept_iff q := by simp [Kept, resolution_start]
  ordered := trivial
  merged := .start

theorem Resolving.fresh (h : Resolving tree done (.enter q :: rest) m) : q ∉ done := by
  have hnodup := h.walk.nodup
  rw [entered_enter] at hnodup
  exact fun hq => (List.nodup_append.1 hnodup).2.2 q hq q List.mem_cons_self rfl

/-- A state is entered before the states below it, and left after them. -/
theorem Resolving.enter (h : Resolving tree done (.enter q :: rest) m) (hf : tree.Forest [0]) :
    Resolving tree (q :: done)
      ((tree.state q).transitions.dests.reverse.map Visit.enter ++ .leave q :: rest) m := by
  have hfree : q ∉ left rest := fun hq => h.fresh (h.left_done q hq)
  have hrest : Ordered tree (fun d => m.Kept d ∨ d = q) rest := h.ordered
  refine ⟨?_, ?_, fun p hp => ?_, fun p => ?_, .enter_append ⟨fun d hd => ?_, ?_⟩, h.merged⟩
  · rw [entered_append_enter]
    exact h.walk.visit hf (List.reverse_perm _)
  · rw [left_append_enter, left_leave]
    exact List.nodup_cons.2 ⟨hfree, h.nodup⟩
  · rw [left_append_enter, left_leave] at hp
    rcases List.mem_cons.1 hp with rfl | hp
    · exact List.mem_cons_self
    · exact List.mem_cons_of_mem _ (h.left_done p hp)
  · rw [left_append_enter, left_leave, h.kept_iff, List.mem_cons, List.mem_cons, not_or]
    constructor
    · rintro ⟨hp, hp'⟩
      exact ⟨.inr hp, fun heq => h.fresh (heq ▸ hp), hp'⟩
    · rintro ⟨hp, hne, hp'⟩
      exact ⟨hp.resolve_left hne, hp'⟩
  · exact .inr (List.mem_reverse.2 (mem_dests_iff.2 hd))
  · exact hrest.mono fun d => Or.imp_left .inl

theorem Resolving.leave (h : Resolving tree done (.leave q :: rest) m) (ht : tree.WellFormed)
    (hpos : 0 < tree.size) : Resolving tree done rest (m.resolve q (tree.state q)) := by
  have hdone : q ∈ done := h.left_done q (by simp)
  have hq : q < tree.size := (h.walk.reached q (by simp [hdone])).lt ht.target_lt hpos
  have hfree : ¬ m.Kept q := fun hkept => ((h.kept_iff q).1 hkept).2 (by simp)
  obtain ⟨hmerged, id, hres⟩ := h.merged.resolve ht.toProper (ht.productive q hq).not_isHole hfree
    h.ordered.1
  obtain ⟨hnot, hnodup⟩ := List.nodup_cons.1 (left_leave ▸ h.nodup)
  have hkept : ∀ p, (m.resolve q (tree.state q)).Kept p ↔ m.Kept p ∨ p = q := by
    intro p
    rw [Kept, Kept]
    simp only [hres]
    by_cases hp : p = q
    · simp [hp]
    · simp [hp]
  refine ⟨h.walk, hnodup, fun p hp => h.left_done p (by simp [hp]), fun p => ?_,
    h.ordered.2.mono fun d hd => (hkept d).2 hd, hmerged⟩
  rw [hkept, h.kept_iff, left_leave, List.mem_cons, not_or]
  constructor
  · rintro (⟨hp, -, hp'⟩ | rfl)
    · exact ⟨hp, hp'⟩
    · exact ⟨hdone, hnot⟩
  · rintro ⟨hp, hp'⟩
    by_cases hpq : p = q
    · exact .inr hpq
    · exact .inl ⟨hp, hpq, hp'⟩

theorem transitionCount_eq_length :
    tree.transitionCount = (tree.toList.flatMap (·.transitions.dests)).length := by
  have key : ∀ (l : List State) n, l.foldl (fun count s => count + s.transitions.size) n =
      n + (l.map fun s => s.transitions.dests.length).sum := by
    intro l
    induction l with
    | nil => simp
    | cons s l ih =>
      intro n
      rw [List.foldl_cons, ih, List.map_cons, List.sum_cons, Transitions.dests, List.length_map,
        Transitions.size, Nat.add_assoc]
  rw [transitionCount, ← Array.foldl_toList, List.length_flatMap, key, Nat.zero_add]

/-- Each state but the root is the destination of a transition. -/
theorem size_le_transitionCount (ht : tree.WellFormed) : tree.size ≤ tree.transitionCount + 1 := by
  have hsub : List.range' 1 (tree.size - 1) ⊆ tree.toList.flatMap (·.transitions.dests) := by
    intro q hq
    rw [List.mem_range'_1] at hq
    rcases Relation.ReflTransGen.cases_tail (ht.reachable q (by omega)) with heq | ⟨p, -, hchild⟩
    · omega
    · have hp : p < tree.size := lt_of_edge hchild.choose_spec
      refine List.mem_flatMap.2 ⟨tree.state p, ?_, mem_dests_iff.2 hchild⟩
      rw [state_of_lt hp]
      exact Array.mem_toList_iff.2 (Array.getElem_mem hp)
  have hnodup : (List.range' 1 (tree.size - 1)).Nodup := List.nodup_range'
  have hle := (hnodup.subperm hsub).length_le
  rw [List.length_range', ← transitionCount_eq_length] at hle
  omega

/-- The walk through the tree with `n` visits to come: two for a state that has not been entered, and one
for a state that is still to be left. -/
def ResolveLoop (tree : Automaton) (n : Nat) (s : List Visit × Merging) : Prop :=
  ∃ done, Resolving tree done s.1 s.2 ∧ n + 2 * done.length = 2 * tree.size + (left s.1).length

/-- There is nothing left to visit. -/
def ResolveEnd (tree : Automaton) (s : List Visit × Merging) : Prop :=
  s.1 = [] ∧ ∃ done, Resolving tree done [] s.2

theorem ResolveLoop.start : ResolveLoop tree (2 * tree.size) ([.enter 0], Merging.start tree.size) :=
  ⟨[], .start, rfl⟩

theorem ResolveLoop.step {n : Nat} {s : List Visit × Merging} (h : ResolveLoop tree n s)
    (ht : tree.WellFormed) (hf : tree.Forest [0]) (hpos : 0 < tree.size) :
    Loop.Advances tree.resolveStep (ResolveLoop tree) (ResolveEnd tree) n s := by
  obtain ⟨visits, m⟩ := s
  obtain ⟨done, h, hn⟩ := h
  simp only at h hn
  have hlen := h.walk.length_le hf hpos
  match visits, h with
  | [], h => exact .inl ⟨_, rfl, rfl, done, h⟩
  | .enter q :: rest, h =>
    rw [entered_enter, List.length_cons] at hlen
    rw [left_enter] at hn
    have hpend := h.merged.pending fun hq => h.fresh ((h.kept_iff q).1 hq).1
    refine .inr ⟨n - 1, _, by omega, by simp only [resolveStep, hpend, if_true]; rfl, q :: done,
      h.enter hf, ?_⟩
    rw [left_append_enter, left_leave, List.length_cons, List.length_cons]
    omega
  | .leave q :: rest, h =>
    rw [left_leave, List.length_cons] at hn
    exact .inr ⟨n - 1, (rest, _), by omega, rfl, done, h.leave ht hpos, by simp only; omega⟩

/-- The loop ends when all states of the tree have been resolved. -/
theorem resolveAll_spec (ht : tree.WellFormed) (htree : tree.IsTree) (hpos : 0 < tree.size) :
    Loop.Ends tree.resolveStep ([.enter 0], start tree.size) ([], tree.resolveAll) ∧
      Merged tree tree.resolveAll ∧ ∀ q, q < tree.size → tree.resolveAll.Kept q := by
  have hf := ht.forest htree hpos
  have hbound : 2 * tree.size < tree.size + tree.transitionCount + 2 := by
    have := size_le_transitionCount ht
    omega
  obtain ⟨hends, hvisits, done, h⟩ :=
    Loop.ends_run (fun _ _ h => h.step ht hf hpos) ResolveLoop.start hbound
  refine ⟨hends.of_fst_nil hvisits, h.merged, fun q hq => (h.kept_iff q).2 ⟨?_, by simp [left]⟩⟩
  exact h.walk.mem_done_iff.2 (ht.reachable q hq)

end Automaton
end ByteMatch
