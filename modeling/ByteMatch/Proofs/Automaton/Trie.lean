import ByteMatch.CharSet.Build
import ByteMatch.Proofs.Automaton.Forest
import ByteMatch.Proofs.Encoding

/-!
# ByteMatch.Proofs.Automaton.Trie

Trees that are built by adding strings of bytes, one after the other.

* `Automaton.Trie`: a tree whose labels have one byte each. Each state of a `FullTrie` leads to a leaf.
* `Automaton.Trie.addChild`, `Automaton.Trie.addLeaf`: a new state, and the last byte of a string.
* `Automaton.Trie.insertBelow`: after a string has been added, all states lead to leaves if those do
  that are not on the way to the state that it was added to.
* `Automaton.Grown.insertCodePoints`: after code points have been added, the trie is full, unless nothing
  has been added.
* `Automaton.trie_chain`: the states of a single string are a trie, as they are what a hole becomes.
-/

namespace ByteMatch
namespace Automaton

variable {a b : Automaton} {p q r n : Nat} {c : ByteSet} {x : UInt8} {bytes : List UInt8}

/-- A tree all of whose states are reached from the root, with one byte in each label. -/
structure Trie (a : Automaton) : Prop where
  target_lt : ∀ p c q, a.Edge p c q → q < a.size
  single_byte : ∀ p c q, a.Edge p c q → ∃ x, c = .singleton x
  leaf_nonempty : ∀ q leaf, (a.state q).leaf = some leaf → ∃ x, x ∈ leaf
  parent_unique : ∀ p c p' c' q, a.Edge p c q → a.Edge p' c' q → p = p' ∧ c = c'
  root_orphan : ∀ p, ¬ a.Child p 0
  size_pos : 0 < a.size
  reached : ∀ q, q < a.size → a.Reaches 0 q

/-- A trie that has no state in vain. -/
structure FullTrie (a : Automaton) : Prop extends a.Trie where
  productive : ∀ q, q < a.size → a.Productive q

/-- The states that do not lead to a leaf lead to `q`. -/
def ProductiveBut (a : Automaton) (q : Nat) : Prop :=
  ∀ p, p < a.size → a.Productive p ∨ a.Reaches p q

theorem ProductiveBut.child (h : a.ProductiveBut q) (he : a.Edge q c r) : a.ProductiveBut r :=
  fun p hp => (h p hp).imp_right fun hreach => hreach.tail ⟨c, he⟩

theorem Trie.forest (h : a.Trie) : a.Forest [0] where
  target_lt := h.target_lt
  label_nonempty p c q he := by
    obtain ⟨x, rfl⟩ := h.single_byte p c q he
    exact ⟨x, ByteSet.mem_singleton.2 rfl⟩
  labels_disjoint p e he e' he' y hy hy' := by
    obtain ⟨x, hx⟩ := h.single_byte p e.1 e.2 he
    obtain ⟨x', hx'⟩ := h.single_byte p e'.1 e'.2 he'
    rw [hx, ByteSet.mem_singleton] at hy
    rw [hx', ByteSet.mem_singleton] at hy'
    rw [hx, hx', ← hy, ← hy']
  leaf_nonempty := h.leaf_nonempty
  parent_unique := h.parent_unique
  root_orphan r hr p := by
    rw [List.mem_singleton.1 hr]
    exact h.root_orphan p
  root_lt r hr := by
    rw [List.mem_singleton.1 hr]
    exact h.size_pos
  live q hq _ := ⟨0, by simp, h.reached q hq⟩

theorem state_singleton_hole : state #[State.hole] q = State.hole :=
  (state_push_hole (a := #[])).trans (state_of_ge (Nat.zero_le q))

theorem not_edge_singleton_hole : ¬ Edge #[State.hole] p c q := by
  intro he
  have := not_isHole_of_edge he
  rw [state_singleton_hole] at this
  cases this

theorem trie_hole : Trie #[State.hole] where
  target_lt p c q he := absurd he not_edge_singleton_hole
  single_byte p c q he := absurd he not_edge_singleton_hole
  leaf_nonempty q leaf hleaf := by
    rw [state_singleton_hole] at hleaf
    cases hleaf
  parent_unique p c p' c' q he := absurd he not_edge_singleton_hole
  root_orphan p hchild := hchild.elim fun c he => not_edge_singleton_hole he
  size_pos := by decide
  reached q hq := by
    obtain rfl : q = 0 := by simpa using hq
    exact .refl

/-! ## Leaves -/

section AddLeaf

variable {code : ByteSet}

theorem edge_addLeaf : Edge (a.modify q (·.addLeaf code)) p c r ↔ a.Edge p c r := by
  rw [Edge, Edge, transitions_addLeaf]

theorem reaches_addLeaf (h : a.Reaches p r) : Reaches (a.modify q (·.addLeaf code)) p r :=
  h.mono_edge fun _ _ _ => edge_addLeaf.2

theorem leaf_addLeaf {leaf : ByteSet} (hcode : ∃ x, x ∈ code)
    (hleaf : ∀ q leaf, (a.state q).leaf = some leaf → ∃ x, x ∈ leaf)
    (h : (state (a.modify q (·.addLeaf code)) p).leaf = some leaf) : ∃ x, x ∈ leaf := by
  rw [state_modify] at h
  split at h
  · obtain ⟨x, hx⟩ := hcode
    cases h
    exact ⟨x, ByteSet.mem_union.2 (.inr hx)⟩
  · exact hleaf p leaf h

theorem productive_addLeaf (h : a.Productive p) : Productive (a.modify q (·.addLeaf code)) p := by
  obtain ⟨t, leaf, ht, hleaf⟩ := h
  rw [Productive]
  by_cases htq : q = t
  · subst htq
    exact ⟨q, _, reaches_addLeaf ht, by rw [state_modify_self (lt_of_leaf hleaf)]; rfl⟩
  · exact ⟨t, leaf, reaches_addLeaf ht, by rw [state_modify_ne htq]; exact hleaf⟩

theorem WellFormed.addLeaf (h : a.WellFormed) (hcode : ∃ x, x ∈ code) :
    WellFormed (a.modify q (·.addLeaf code)) where
  target_lt p c r he := by
    rw [Array.size_modify]
    exact h.target_lt p c r (edge_addLeaf.1 he)
  label_nonempty p c r he := h.label_nonempty p c r (edge_addLeaf.1 he)
  labels_disjoint p := by
    rw [transitions_addLeaf]
    exact h.labels_disjoint p
  leaf_nonempty p leaf := leaf_addLeaf hcode h.leaf_nonempty
  acyclic r hcycle := h.acyclic r (hcycle.lift id fun _ _ hchild =>
    hchild.imp fun _ => edge_addLeaf.1)
  reachable p hp := reaches_addLeaf (h.reachable p (by rwa [Array.size_modify] at hp))
  productive p hp := productive_addLeaf (h.productive p (by rwa [Array.size_modify] at hp))

theorem IsTree.addLeaf (h : a.IsTree) : IsTree (a.modify q (·.addLeaf code)) := by
  intro p hp hne
  rw [Array.size_modify] at hp
  obtain ⟨e, he, hunique⟩ := h p hp hne
  exact ⟨e, edge_addLeaf.2 he, fun e' he' => hunique e' (edge_addLeaf.1 he')⟩

theorem Trie.addLeaf (h : a.Trie) (hq : q < a.size) (hbut : a.ProductiveBut q) (hcode : ∃ x, x ∈ code) :
    FullTrie (a.modify q (·.addLeaf code)) := by
  have hsize : (a.modify q (·.addLeaf code)).size = a.size := Array.size_modify
  refine ⟨⟨?_, ?_, ?_, ?_, ?_, ?_, ?_⟩, fun p hp => ?_⟩
  · intro p c r he
    rw [hsize]
    exact h.target_lt p c r (edge_addLeaf.1 he)
  · exact fun p c r he => h.single_byte p c r (edge_addLeaf.1 he)
  · exact fun p leaf => leaf_addLeaf hcode h.leaf_nonempty
  · exact fun p c p' c' r he he' => h.parent_unique p c p' c' r (edge_addLeaf.1 he) (edge_addLeaf.1 he')
  · exact fun p hchild => h.root_orphan p (hchild.imp fun _ => edge_addLeaf.1)
  · rw [hsize]
    exact h.size_pos
  · intro r hr
    exact reaches_addLeaf (h.reached r (hsize ▸ hr))
  · -- the states that led to no leaf lead to `q`, which has one now
    cases hbut p (hsize ▸ hp) with
    | inl hprod => exact productive_addLeaf hprod
    | inr hreach => exact ⟨q, _, reaches_addLeaf hreach, by rw [state_modify_self hq]; rfl⟩

end AddLeaf

/-! ## New states -/

/-- The automaton with a new state below `q`. -/
def addChild (a : Automaton) (q : Nat) (code : ByteSet) : Automaton :=
  (a.push State.hole).modify q (·.addTransition code a.size)

theorem size_addChild {code : ByteSet} : (a.addChild q code).size = a.size + 1 := by
  rw [addChild, Array.size_modify, Array.size_push]

theorem lt_size_addChild {code : ByteSet} : a.size < (a.addChild q code).size := by
  rw [size_addChild]
  exact Nat.lt_succ_self _

theorem edge_addChild {code : ByteSet} (hq : q < a.size)
    (hnew : (a.state q).transitions.get? code = none) :
    (a.addChild q code).Edge p c r ↔ a.Edge p c r ∨ (p = q ∧ c = code ∧ r = a.size) := by
  have hlt : q < (a.push State.hole).size := by
    rw [Array.size_push]
    omega
  have hold : Edge (a.push State.hole) p c r ↔ a.Edge p c r := by
    rw [Edge, state_push_hole, Edge]
  rw [addChild, edge_addTransition hlt, hold, or_comm]
  refine or_congr_left (and_iff_left_of_imp fun he heq => ?_)
  obtain ⟨rfl, rfl⟩ := heq
  rw [Transitions.get?_eq_some_iff.2 he] at hnew
  cases hnew

theorem leaf_addChild {code : ByteSet} : ((a.addChild q code).state p).leaf = (a.state p).leaf := by
  rw [addChild, leaf_addTransition, state_push_hole]

section AddChild

variable (h : a.Trie) (hq : q < a.size) {x : UInt8}
  (hnew : (a.state q).transitions.get? (.singleton x) = none)
include hq hnew

theorem reaches_addChild (hpath : a.Reaches p r) : (a.addChild q (.singleton x)).Reaches p r :=
  hpath.mono_edge fun _ _ _ he => (edge_addChild hq hnew).2 (.inl he)

theorem child_addChild : (a.addChild q (.singleton x)).Child q a.size :=
  ⟨_, (edge_addChild hq hnew).2 (.inr ⟨rfl, rfl, rfl⟩)⟩

include h

theorem Trie.addChild : (a.addChild q (.singleton x)).Trie := by
  have hedge : ∀ {p c r}, (a.addChild q (.singleton x)).Edge p c r ↔
      a.Edge p c r ∨ (p = q ∧ c = .singleton x ∧ r = a.size) := edge_addChild hq hnew
  refine ⟨?_, ?_, ?_, ?_, ?_, ?_, ?_⟩
  · intro p c r he
    rw [size_addChild]
    cases hedge.1 he with
    | inl he => exact Nat.lt_succ_of_lt (h.target_lt p c r he)
    | inr he => omega
  · intro p c r he
    cases hedge.1 he with
    | inl he => exact h.single_byte p c r he
    | inr he => exact ⟨x, he.2.1⟩
  · intro p leaf hleaf
    rw [leaf_addChild] at hleaf
    exact h.leaf_nonempty p leaf hleaf
  · intro p c p' c' r he he'
    cases hedge.1 he with
    | inl he =>
      cases hedge.1 he' with
      | inl he' => exact h.parent_unique p c p' c' r he he'
      | inr he' => exact absurd (h.target_lt p c r he) (by omega)
    | inr he =>
      cases hedge.1 he' with
      | inl he' => exact absurd (h.target_lt p' c' r he') (by omega)
      | inr he' => exact ⟨he.1.trans he'.1.symm, he.2.1.trans he'.2.1.symm⟩
  · intro p hp
    obtain ⟨c, he⟩ := hp
    cases hedge.1 he with
    | inl he => exact h.root_orphan p ⟨c, he⟩
    | inr he => exact absurd h.size_pos (by omega)
  · rw [size_addChild]
    omega
  · intro r hr
    rw [size_addChild] at hr
    by_cases hold : r < a.size
    · exact reaches_addChild hq hnew (h.reached r hold)
    · obtain rfl : r = a.size := by omega
      exact (reaches_addChild hq hnew (h.reached q hq)).tail (child_addChild hq hnew)

omit h in
/-- The state that may lead to no leaf is the new one now. -/
theorem ProductiveBut.addChild (hbut : a.ProductiveBut q) :
    (a.addChild q (.singleton x)).ProductiveBut a.size := by
  intro p hp
  rw [size_addChild] at hp
  by_cases hold : p < a.size
  · cases hbut p hold with
    | inl hprod =>
      obtain ⟨t, leaf, ht, hleaf⟩ := hprod
      exact .inl ⟨t, leaf, reaches_addChild hq hnew ht, by rw [leaf_addChild]; exact hleaf⟩
    | inr hreach => exact .inr ((reaches_addChild hq hnew hreach).tail (child_addChild hq hnew))
  · obtain rfl : p = a.size := by omega
    exact .inr .refl

end AddChild

/-! ## Strings of bytes -/

theorem insertBelow_cons (h : bytes ≠ []) : insertBelow a q (x :: bytes) =
    match (a.state q).transitions.get? (.singleton x) with
    | some next => insertBelow a next bytes
    | none => insertBelow (a.addChild q (.singleton x)) a.size bytes := by
  cases bytes with
  | nil => exact absurd rfl h
  | cons y bytes => rfl

theorem Trie.insertBelow (h : a.Trie) (hq : q < a.size) (hbut : a.ProductiveBut q)
    (hbytes : bytes ≠ []) : FullTrie (insertBelow a q bytes) := by
  -- on the way down, the states above the current one lead to it
  induction bytes generalizing a q with
  | nil => exact absurd rfl hbytes
  | cons x bytes ih =>
    cases bytes with
    | nil => exact h.addLeaf hq hbut ⟨x, ByteSet.mem_singleton.2 rfl⟩
    | cons y bytes =>
      rw [insertBelow_cons (by simp)]
      cases hget : (a.state q).transitions.get? (.singleton x) with
      | some next =>
        have he : a.Edge q (.singleton x) next := Transitions.get?_eq_some_iff.1 hget
        exact ih h (h.target_lt q _ next he) (hbut.child he) (by simp)
      | none =>
        exact ih (h.addChild hq hget) lt_size_addChild (hbut.addChild hq hget) (by simp)

/-- What is made from a single hole by adding strings, if any. -/
def Grown (a : Automaton) : Prop := a = #[State.hole] ∨ a.FullTrie

theorem grown_hole : Grown #[State.hole] := .inl rfl

theorem productiveBut_hole : ProductiveBut #[State.hole] 0 := by
  intro p hp
  obtain rfl : p = 0 := by simpa using hp
  exact .inr .refl

theorem Grown.insertBelow (h : a.Grown) (hbytes : bytes ≠ []) : FullTrie (insertBelow a 0 bytes) := by
  cases h with
  | inl h =>
    subst h
    exact trie_hole.insertBelow (by decide) productiveBut_hole hbytes
  | inr h => exact h.toTrie.insertBelow h.size_pos (fun p hp => .inl (h.productive p hp)) hbytes

theorem Grown.insertCodePoints (h : a.Grown) (e : Encoding) (count first : Nat) :
    Grown (insertCodePoints e count first a) := by
  induction count generalizing a first with
  | zero => exact h
  | succ count ih =>
    rw [Automaton.insertCodePoints]
    cases hbytes : e.encode first with
    | none => exact ih h (first + 1)
    | some bytes => exact ih (.inr (h.insertBelow (Encoding.encode_ne_nil hbytes))) (first + 1)

theorem modify_push_hole (a : Automaton) (f : State → State) :
    (a.push State.hole).modify a.size f = a.push (f State.hole) := by
  refine ext_state (by simp) fun q => ?_
  rw [state_modify, state_push, state_push, Array.size_push]
  by_cases hq : q = a.size
  · simp [hq]
  · simp [hq, Ne.symm hq]

/-- A chain of states is what a single string makes of a hole. -/
theorem insertBelow_push_hole (a : Automaton) (hbytes : bytes ≠ []) :
    insertBelow (a.push State.hole) a.size bytes = a ++ (chain a.size bytes).toArray := by
  induction bytes generalizing a with
  | nil => exact absurd rfl hbytes
  | cons x bytes ih =>
    cases bytes with
    | nil =>
      have hleaf : (∅ : ByteSet) ∪ .singleton x = .singleton x :=
        ByteSet.ext_mem fun y => by simp [ByteSet.not_mem_empty]
      rw [insertBelow, chain, modify_push_hole, State.addLeaf]
      show a.push ⟨∅, some (∅ ∪ .singleton x)⟩ = _
      rw [hleaf]
      rfl
    | cons y bytes =>
      have hnone : (state (a.push State.hole) a.size).transitions.get? (.singleton x) = none := by
        rw [state_push, if_pos rfl]
        rfl
      have hchild : addChild (a.push State.hole) a.size (.singleton x) =
          Array.push (a.push ⟨(∅ : Transitions).insert (.singleton x) (a.size + 1), none⟩) State.hole := by
        refine ext_state (by simp [size_addChild]) fun q => ?_
        rw [addChild, state_modify, state_push, state_push, state_push, state_push]
        by_cases hq : q = a.size
        · have hlt : a.size < a.size + 1 + 1 := by omega
          simp [hq, hlt, State.addTransition, State.hole]
        · simp [hq, Ne.symm hq]
      have hrest := ih (a.push ⟨(∅ : Transitions).insert (.singleton x) (a.size + 1), none⟩) (by simp)
      rw [insertBelow_cons (by simp), hnone]
      show insertBelow (addChild (a.push State.hole) a.size (.singleton x)) (a.push State.hole).size
        (y :: bytes) = a ++ (_ :: chain (a.size + 1) (y :: bytes)).toArray
      rw [Array.size_push] at hrest ⊢
      rw [hchild, hrest]
      generalize chain (a.size + 1) (y :: bytes) = rest
      simp

theorem insertBelow_hole (hbytes : bytes ≠ []) :
    insertBelow #[State.hole] 0 bytes = (chain 0 bytes).toArray := by
  have := insertBelow_push_hole #[] hbytes
  rwa [Array.empty_append] at this

theorem trie_chain (hbytes : bytes ≠ []) : FullTrie (chain 0 bytes).toArray := by
  have hgrown := grown_hole.insertBelow hbytes
  rwa [insertBelow_hole hbytes] at hgrown

end Automaton
end ByteMatch
