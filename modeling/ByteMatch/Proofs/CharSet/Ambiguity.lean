import ByteMatch.Proofs.CharSet.FileFormat
import ByteMatch.Proofs.CharSet.Sequence

/-!
# ByteMatch.Proofs.CharSet.Ambiguity

Sets that cannot be written to a file, as a byte both ends a character in a state and leads on from there.

* `CharSet.ambiguousState?_eq_none_iff`: the search fails for unambiguous automata, and for no others.
* `CharSet.encodeFile_ne_nonDeterministic`: a set is not refused for this reason if none of its characters
  starts with another one.
* `CharSet.Smallest`: a set that accepts the same as another one with the fewest states.
* `CharSet.encodeFile_error_iff`: unless the smallest set is too large, this is the only reason, and all sets
  with such characters are refused.
-/

namespace ByteMatch
namespace CharSet

open Automaton

variable {a : Automaton} {c d g : CharSet}

/-- What the search for an ambiguous state looks for in a state. -/
theorem ambiguous_iff {s : State} :
    (s.leaf.any fun leaf => s.transitions.entries.any (·.1.intersects leaf)) = true ↔
      ∃ label next leaf, (label, next) ∈ s.transitions.entries ∧ s.leaf = some leaf ∧
        ∃ x, x ∈ label ∧ x ∈ leaf := by
  simp only [Option.any_eq_true, List.any_eq_true, ByteSet.intersects_iff, Prod.exists]
  constructor
  · rintro ⟨leaf, hleaf, label, next, he, x, hx⟩
    exact ⟨label, next, leaf, he, hleaf, x, hx⟩
  · rintro ⟨label, next, leaf, he, hleaf, x, hx⟩
    exact ⟨leaf, hleaf, label, next, he, x, hx⟩

theorem ambiguousState?_eq_none_iff : ambiguousState? a = none ↔ a.Unambiguous := by
  rw [ambiguousState?, Array.findIdx?_eq_none_iff]
  constructor
  · intro h p label next leaf he hleaf x hx hx'
    have hp := lt_of_edge he
    have hclear := h (a.state p) (by rw [state_of_lt hp]; exact Array.getElem_mem hp)
    rw [ambiguous_iff.2 ⟨label, next, leaf, he, hleaf, x, hx, hx'⟩] at hclear
    cases hclear
  · intro h s hs
    obtain ⟨p, hp, rfl⟩ := Array.mem_iff_getElem.1 hs
    rw [← Bool.not_eq_true, ambiguous_iff]
    rintro ⟨label, next, leaf, he, hleaf, x, hx, hx'⟩
    rw [← state_of_lt hp] at he hleaf
    exact h p label next leaf he hleaf x hx hx'

theorem encodeFile_ne_nonDeterministic (h : c.WellFormed)
    (hfree : ∀ u v, c.accepts u = true → c.accepts (u ++ v) = true → v = []) (q : Nat) :
    c.encodeFile ≠ .error (.nonDeterministic q) := by
  -- the set is written as a graph that accepts the same
  obtain ⟨hwf, hsame⟩ := toGraph_toTree_spec h
  have hclear : c.toTree.toGraph.states.Unambiguous :=
    unambiguous_of_prefix_free hwf.states fun u v hu huv =>
      hfree u v (by rw [← hsame]; exact hu) (by rw [← hsame]; exact huv)
  intro herror
  rw [encodeFile] at herror
  simp only [ambiguousState?_eq_none_iff.2 hclear] at herror
  split at herror <;> cases herror

/-! ## Sets that are refused -/

/-- A well-formed set that accepts the same as `c`, and no well-formed set that does so has less states. -/
structure Smallest (g c : CharSet) : Prop where
  wellFormed : g.WellFormed
  accepts_eq : ∀ w, g.accepts w = c.accepts w
  size_le : ∀ d : CharSet, d.WellFormed → (∀ w, d.accepts w = c.accepts w) → g.size ≤ d.size

/-- A set is written in its smallest form. -/
theorem smallest_toGraph_toTree (h : c.WellFormed) : c.toTree.toGraph.Smallest c := by
  obtain ⟨hwf, hsame⟩ := toGraph_toTree_spec h
  refine ⟨hwf, hsame, fun d _ hd => ?_⟩
  by_cases hpos : 0 < c.toTree.size
  · refine (toGraph_spec (wellFormed_toTree h) form_toTree hpos).2.2 d fun w => ?_
    rw [hd, accepts_toTree h]
  · rw [toGraph_of_size_lt form_toTree (by omega)]
    omega

theorem Smallest.size_eq (hg : g.Smallest c) (hd : d.Smallest c) : g.size = d.size :=
  Nat.le_antisymm (hg.size_le d hd.wellFormed hd.accepts_eq) (hd.size_le g hg.wellFormed hg.accepts_eq)

/-- In an ambiguous automaton some string that is accepted is the start of another one, and in no other. -/
theorem exists_extension_iff (h : c.WellFormed) :
    (∃ u v, c.accepts u = true ∧ c.accepts v = true ∧ u <+: v ∧ u ≠ v) ↔ ¬ c.states.Unambiguous := by
  constructor
  · rintro ⟨u, v, hu, hv, ⟨rest, rfl⟩, hne⟩ hclear
    obtain rfl := hclear.eq_nil hu hv
    exact hne (List.append_nil u).symm
  · intro hambiguous
    by_contra hfree
    refine hambiguous (unambiguous_of_prefix_free h.states fun u v hu huv => ?_)
    by_contra hv
    refine hfree ⟨u, u ++ v, hu, huv, List.prefix_append u v, fun heq => hv ?_⟩
    exact List.self_eq_append_right.1 heq

/-- A set whose smallest form is not too large is refused if and only if one of its characters is the start of
another one, and then it is for this reason. -/
theorem encodeFile_error_iff (h : c.WellFormed) (hg : g.Smallest c) (hsize : g.size ≤ ClassFile.stateLimit) :
    ((∃ e, c.encodeFile = .error e) ↔
      ∃ u v, c.accepts u = true ∧ c.accepts v = true ∧ u <+: v ∧ u ≠ v) ∧
    ∀ e, c.encodeFile = .error e → ∃ q, e = .nonDeterministic q := by
  have hsmallest := smallest_toGraph_toTree h
  have hroom : ¬ ClassFile.stateLimit < c.toTree.toGraph.size := by
    rw [← hg.size_eq hsmallest]
    exact Nat.not_lt_of_le hsize
  have hstates := exists_extension_iff hsmallest.wellFormed
  simp only [hsmallest.accepts_eq] at hstates
  rw [hstates, ← ambiguousState?_eq_none_iff]
  simp only [encodeFile, hroom, if_false]
  cases ambiguousState? c.toTree.toGraph.states with
  | none => simp
  | some q => simp

/-- The letters from `d` to `f`, and pairs and triples that start with `a`, `b` or `c`. States 2 and 3 become
one, in which `z` is in the leaf and in a label: the pair `bz` is the start of triples. -/
def lettersAndPairs : CharSet where
  encoding := .ascii
  states := #[
    ⟨.ofList [(.singleton 0x61, 1), (.singleton 0x62, 2), (.singleton 0x63, 3)], some (.interval 0x64 0x66)⟩,
    ⟨∅, some (.interval 0x78 0x7A)⟩,
    ⟨.ofList [(.interval 0x79 0x7A, 4)], some (.singleton 0x7A)⟩,
    ⟨.ofList [(.singleton 0x7A, 5), (.singleton 0x79, 6)], some (.singleton 0x7A)⟩,
    ⟨∅, some (.interval 0x78 0x7A)⟩,
    ⟨∅, some (.interval 0x78 0x7A)⟩,
    ⟨∅, some (.interval 0x78 0x7A)⟩]
  form := .tree

theorem encodeFile_error_iff_lettersAndPairs :
    lettersAndPairs.WellFormed ∧ lettersAndPairs.toTree.toGraph.Smallest lettersAndPairs ∧
    lettersAndPairs.toTree.toGraph.size ≤ ClassFile.stateLimit ∧
    ((∃ e, lettersAndPairs.encodeFile = .error e) ↔ ∃ u v, lettersAndPairs.accepts u = true ∧
      lettersAndPairs.accepts v = true ∧ u <+: v ∧ u ≠ v) ∧
    ∀ e, lettersAndPairs.encodeFile = .error e → ∃ q, e = .nonDeterministic q := by
  have hstates : lettersAndPairs.states.WellFormed := .of_ascending (by decide +kernel) (by decide +kernel)
    (by decide +kernel) (by decide +kernel) (by decide +kernel)
  have hwf : lettersAndPairs.WellFormed :=
    ⟨hstates, fun _ => hstates.isTree (by decide +kernel)⟩
  have hsmallest := smallest_toGraph_toTree hwf
  have hsize : lettersAndPairs.toTree.toGraph.size ≤ ClassFile.stateLimit := by decide +kernel
  exact ⟨hwf, hsmallest, hsize, encodeFile_error_iff hwf hsmallest hsize⟩

end CharSet
end ByteMatch
