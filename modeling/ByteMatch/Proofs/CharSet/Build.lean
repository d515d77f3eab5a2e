import ByteMatch.Proofs.Automaton.TrieLanguage
import ByteMatch.Proofs.CharSet.NormalForm

/-!
# ByteMatch.Proofs.CharSet.Build

Character sets that are made from code points, characters and bytes are well-formed, and those of code
points accept their bytes.

* `CharSet.wellFormed_ofRange`, `CharSet.accepts_ofRange`: the code points of a range.
* `CharSet.ofRange_exact`: these are all that a range accepts, and without any the set has no states.
* `CharSet.wellFormed_ofString`, `CharSet.accepts_ofString_singleton`: a single character.
* `CharSet.wellFormed_addByteRange`: bytes that are added to a set.
-/

namespace ByteMatch
namespace CharSet

open Automaton

variable {c : CharSet} {w : List UInt8}

/-! ## Sets of code points -/

theorem wellFormed_of_trie {e : Encoding} {a : Automaton} {form : Form}
    (h : a.FullTrie) : CharSet.WellFormed ⟨e, a, form⟩ :=
  ⟨h.forest.wellFormed h.productive, fun _ => h.forest.isTree h.productive⟩

theorem wellFormed_empty (e : Encoding) : (empty e).WellFormed :=
  ⟨(wellFormed_of_size_zero rfl).1, fun _ => (wellFormed_of_size_zero rfl).2⟩

theorem wellFormed_ofEncoded (e : Encoding) (bytes : Option (List UInt8)) :
    (ofEncoded e bytes).WellFormed := by
  cases hbytes : bytes.getD [] with
  | nil =>
    rw [ofEncoded, hbytes]
    exact wellFormed_empty e
  | cons x rest =>
    rw [ofEncoded, hbytes]
    exact wellFormed_of_trie (trie_chain (by simp))

theorem wellFormed_ofString (e : Encoding) (s : String) : (ofString e s).WellFormed :=
  wellFormed_ofEncoded e (e.encodeString s)

/-- If anything has been added, the trie is full. -/
theorem fullTrie_of_grown {a : Automaton} (h : a.Grown)
    (hadded : ¬ (a.size = 1 ∧ (a.state 0).isHole = true)) : a.FullTrie := by
  cases h with
  | inl h =>
    subst h
    exact absurd ⟨rfl, rfl⟩ hadded
  | inr h => exact h

/-- The code points of a range become a well-formed set in graph form, if the encoding has any. -/
theorem wellFormed_ofRange (e : Encoding) (first last : Nat) : (ofRange e first last).WellFormed := by
  rw [ofRange]
  split
  · exact wellFormed_ofEncoded e _
  · simp only
    split
    · exact wellFormed_empty e
    · rename_i hadded
      have hfull := fullTrie_of_grown (grown_hole.insertCodePoints e _ _) hadded
      exact (wellFormed_toGraph (wellFormed_of_trie hfull)).1

/-! ## Characters of code points -/

theorem accepts_empty (e : Encoding) (w : List UInt8) : (empty e).accepts w = false :=
  acceptsFrom_of_isHole rfl

theorem accepts_ofEncoded {e : Encoding} {bytes : Option (List UInt8)} :
    (ofEncoded e bytes).accepts w = true ↔ bytes = some w ∧ w ≠ [] := by
  cases bytes with
  | none =>
    rw [show ofEncoded e none = empty e from rfl, accepts_empty]
    simp
  | some bytes =>
    by_cases hbytes : bytes = []
    · subst hbytes
      rw [show ofEncoded e (some []) = empty e from rfl, accepts_empty]
      simp
    · rw [accepts, ofEncoded, Option.getD_some, accepts_chain hbytes, Option.some_inj, eq_comm]
      exact (and_iff_left_of_imp fun h => h ▸ hbytes).symm

theorem encodeString_singleton (e : Encoding) (ch : Char) :
    e.encodeString (String.singleton ch) = e.encode ch.toNat := by
  rw [Encoding.encodeString, String.toList_singleton, Encoding.encodeChars, Encoding.encodeChars]
  cases e.encode ch.toNat with
  | none => rfl
  | some bytes => exact congrArg some (List.append_nil bytes)

/-- The set of a single code point accepts its bytes. -/
theorem accepts_ofString_singleton {e : Encoding} {ch : Char} :
    (ofString e (String.singleton ch)).accepts w = true ↔ e.encode ch.toNat = some w := by
  rw [ofString, accepts_ofEncoded, encodeString_singleton]
  exact and_iff_left_of_imp Encoding.encode_ne_nil

/-- The set of a range accepts the bytes of its code points, as far as the encoding has them. -/
theorem accepts_ofRange {e : Encoding} {first last : Nat} : (ofRange e first last).accepts w = true ↔
    ∃ n, first ≤ n ∧ n ≤ last ∧ e.encode n = some w := by
  rw [ofRange]
  split
  · rename_i heq
    subst heq
    rw [accepts_ofEncoded]
    constructor
    · rintro ⟨hw, -⟩
      exact ⟨first, Nat.le_refl _, Nat.le_refl _, hw⟩
    · rintro ⟨n, hge, hle, hw⟩
      obtain rfl := Nat.le_antisymm hge hle
      exact ⟨hw, Encoding.encode_ne_nil hw⟩
  · have hstates := grown_hole.accepts_insertCodePoints e
      (min last Encoding.lastCodePoint + 1 - first) first w
    rw [accepts_hole, or_iff_right Bool.false_ne_true] at hstates
    -- there are no characters above the last code point
    have hrange : (∃ n, first ≤ n ∧ n < first + (min last Encoding.lastCodePoint + 1 - first) ∧
        e.encode n = some w) ↔ ∃ n, first ≤ n ∧ n ≤ last ∧ e.encode n = some w := by
      refine exists_congr fun n => and_congr_right fun hge => and_congr_left fun hw => ?_
      have := Encoding.le_lastCodePoint hw
      omega
    simp only
    rw [← hrange, ← hstates]
    split
    · rename_i hhole
      rw [accepts_empty, Automaton.accepts, acceptsFrom_of_isHole hhole.2]
    · rename_i hadded
      have hfull := fullTrie_of_grown (grown_hole.insertCodePoints e _ _) hadded
      rw [(wellFormed_toGraph (wellFormed_of_trie hfull)).2]
      rfl

/-- The loops end that make a graph of the trie of a range. -/
def OfRangeEnds (e : Encoding) (first last : Nat) : Prop :=
  first ≠ last → ToGraphEnds
    ⟨e, insertCodePoints e (min last Encoding.lastCodePoint + 1 - first) first #[State.hole], .tree⟩

theorem ofRangeEnds (e : Encoding) (first last : Nat) : OfRangeEnds e first last := by
  intro _
  rcases grown_hole.insertCodePoints e (min last Encoding.lastCodePoint + 1 - first) first with
    hhole | hfull
  · rw [hhole]
    exact fun _ hsize => absurd (show 1 < 2 by decide) hsize
  · exact toGraphEnds (wellFormed_of_trie hfull)

/-- The set of a range has the code points of the range that the encoding has, and no states if there are
none. -/
theorem ofRange_exact (e : Encoding) (first last : Nat) : OfRangeEnds e first last ∧
    (∀ w, (ofRange e first last).accepts w = true ↔
      ∃ n, first ≤ n ∧ n ≤ last ∧ e.encode n = some w) ∧
    ((ofRange e first last).isEmpty = true ↔ ∀ n, first ≤ n → n ≤ last → e.encode n = none) := by
  refine ⟨ofRangeEnds e first last, fun w => accepts_ofRange, ?_⟩
  rw [isEmpty_iff (wellFormed_ofRange e first last)]
  constructor
  · intro hnone n hge hle
    rw [Option.eq_none_iff_forall_ne_some]
    intro w hw
    exact Bool.eq_false_iff.1 (hnone w) (accepts_ofRange.2 ⟨n, hge, hle, hw⟩)
  · intro hnone w
    rw [← Bool.not_eq_true, accepts_ofRange]
    rintro ⟨n, hge, hle, hw⟩
    rw [hnone n hge hle] at hw
    cases hw

/-! ## Bytes -/

theorem exists_mem_interval (first last : UInt8) : ∃ x, x ∈ ByteSet.interval first last :=
  ⟨first, by
    rw [ByteSet.mem_interval]
    simp only [UInt8.le_iff_toNat_le]
    omega⟩

theorem wellFormed_addByteRange {first last : Nat} {d : CharSet} (h : c.WellFormed)
    (hd : c.addByteRange first last = .ok d) : d.WellFormed := by
  rw [addByteRange] at hd
  split at hd
  · cases hd
    have hbytes := exists_mem_interval (UInt8.ofNat first) (UInt8.ofNat last)
    cases hempty : c.isEmpty with
    | true => exact wellFormed_of_trie (trie_hole.addLeaf (by decide) productiveBut_hole hbytes)
    | false => exact ⟨h.states.addLeaf hbytes, fun hform => (h.tree hform).addLeaf⟩
  · cases hd

end CharSet
end ByteMatch
