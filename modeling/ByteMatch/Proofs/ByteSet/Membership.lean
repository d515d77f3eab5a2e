import ByteMatch.ByteSet

/-!
# ByteMatch.Proofs.ByteSet.Membership

Byte sets seen through their members. The operations on words act bit by bit, so each operation on
sets is the one on members of the same name, and a set is known by its members.

* `ByteSet.ext_mem`: two sets with the same members are equal.
* `ByteSet.mem_union`, `ByteSet.mem_inter`, `ByteSet.mem_sdiff`: the operations.
* `ByteSet.isEmpty_eq_false_iff`, `ByteSet.intersects_iff`: the tests.
* `ByteSet.mem_ofPredicate`, `ByteSet.mem_interval`, `ByteSet.mem_singleton`: sets of given members.
-/

namespace ByteMatch
namespace ByteSet

variable {a b : ByteSet} {x : UInt8}

/-- A byte is a member when its bit is set in its word. -/
theorem mem_iff : x ∈ a ↔ (a.word x).toBitVec.getLsbD (x.toNat % 64) = true := by
  show ((a.word x >>> x.toUInt64) &&& 1 != 0) = true ↔ _
  rw [bne_iff_ne, ne_eq, ← UInt64.toBitVec_inj]
  have hshift : (x.toUInt64.toBitVec % 64#64).toNat = x.toNat % 64 := by
    simp [BitVec.toNat_umod]
  have hone : ∀ w : BitVec 64, w &&& 1#64 = 0#64 ↔ w.getLsbD 0 = false := by
    intro w
    constructor
    · intro h
      have := congrArg (·.getLsbD 0) h
      simpa using this
    · intro h
      apply BitVec.eq_of_getLsbD_eq
      intro i hi
      rw [BitVec.getLsbD_and, BitVec.getLsbD_one]
      cases i with
      | zero => rw [h]; rfl
      | succ i => simp
  have hbv : (a.word x >>> x.toUInt64 &&& 1).toBitVec =
      ((a.word x).toBitVec >>> (x.toNat % 64)) &&& 1#64 := by
    simp [UInt64.toBitVec_and, UInt64.toBitVec_shiftRight, BitVec.ushiftRight_eq']
  rw [hbv]
  show ¬ _ &&& 1#64 = 0#64 ↔ _
  rw [hone, Bool.not_eq_false, BitVec.getLsbD_ushiftRight, Nat.add_zero]

theorem word_union : (a ∪ b).word x = a.word x ||| b.word x := by
  unfold word
  split
  · rfl
  · split
    · rfl
    · split <;> rfl

theorem word_inter : (a ∩ b).word x = a.word x &&& b.word x := by
  unfold word
  split
  · rfl
  · split
    · rfl
    · split <;> rfl

theorem word_compl : a.compl.word x = ~~~ a.word x := by
  unfold word
  split
  · rfl
  · split
    · rfl
    · split <;> rfl

@[simp] theorem mem_union : x ∈ a ∪ b ↔ x ∈ a ∨ x ∈ b := by
  simp [mem_iff, word_union]

@[simp] theorem mem_inter : x ∈ a ∩ b ↔ x ∈ a ∧ x ∈ b := by
  simp [mem_iff, word_inter]

@[simp] theorem mem_compl : x ∈ a.compl ↔ x ∉ a := by
  simp [mem_iff, word_compl, Nat.mod_lt]

@[simp] theorem mem_sdiff : x ∈ a \ b ↔ x ∈ a ∧ x ∉ b := by
  show x ∈ a ∩ b.compl ↔ _
  simp

@[simp] theorem not_mem_empty : x ∉ (∅ : ByteSet) := by
  have h : (∅ : ByteSet).word x = 0 := by
    show empty.word x = 0
    simp [word, empty]
  simp [mem_iff, h]

@[simp] theorem contains_iff : a.contains x = true ↔ x ∈ a := Iff.rfl

theorem word_ofNat {k i : Nat} (hi : i < 64) (hk : k < 4) :
    a.word (UInt8.ofNat (64 * k + i)) =
      if k = 0 then a.word0 else if k = 1 then a.word1 else if k = 2 then a.word2 else a.word3 := by
  have hx : (UInt8.ofNat (64 * k + i)).toNat = 64 * k + i := by
    rw [UInt8.toNat_ofNat']
    omega
  unfold word
  simp only [UInt8.lt_iff_toNat_lt, hx, UInt8.reduceToNat]
  have h0 : 64 * k + i < 64 ↔ k = 0 := by omega
  have h1 : 64 * k + i < 128 ↔ k = 0 ∨ k = 1 := by omega
  have h2 : 64 * k + i < 192 ↔ k = 0 ∨ k = 1 ∨ k = 2 := by omega
  simp only [h0, h1, h2]
  by_cases e0 : k = 0
  · simp [e0]
  · by_cases e1 : k = 1
    · simp [e1]
    · simp [e0, e1]

theorem word_congr {k : Nat} (hk : k < 4) (h : ∀ x, x ∈ a ↔ x ∈ b) :
    a.word (UInt8.ofNat (64 * k)) = b.word (UInt8.ofNat (64 * k)) := by
  apply UInt64.toBitVec_inj.1
  apply BitVec.eq_of_getLsbD_eq
  intro i hi
  have hmod : (UInt8.ofNat (64 * k + i)).toNat % 64 = i := by
    rw [UInt8.toNat_ofNat']
    omega
  have hbit := h (UInt8.ofNat (64 * k + i))
  rw [mem_iff, mem_iff, hmod, Bool.coe_iff_coe, word_ofNat hi hk, word_ofNat hi hk] at hbit
  have hfirst : 64 * k = 64 * k + 0 := rfl
  rw [hfirst, word_ofNat (by omega) hk, word_ofNat (by omega) hk]
  exact hbit

theorem ext_mem (h : ∀ x, x ∈ a ↔ x ∈ b) : a = b := by
  ext1
  · exact word_congr (k := 0) (by omega) h
  · exact word_congr (k := 1) (by omega) h
  · exact word_congr (k := 2) (by omega) h
  · exact word_congr (k := 3) (by omega) h

theorem isEmpty_iff_eq : a.isEmpty = true ↔ a = ∅ := by
  show _ ↔ a = empty
  rw [ByteSet.ext_iff]
  simp [isEmpty, empty, and_assoc]

theorem isEmpty_iff : a.isEmpty = true ↔ ∀ x, x ∉ a := by
  rw [isEmpty_iff_eq]
  constructor
  · rintro rfl x
    exact not_mem_empty
  · intro h
    exact ext_mem fun x => by simp [h x]

theorem isEmpty_eq_false_iff : a.isEmpty = false ↔ ∃ x, x ∈ a := by
  rw [← Bool.not_eq_true, isEmpty_iff]
  simp

theorem intersects_iff : a.intersects b = true ↔ ∃ x, x ∈ a ∧ x ∈ b := by
  simp [intersects, isEmpty_eq_false_iff]

/-! ## Sets of given members -/

theorem word_eq : a.word x = if x.toNat / 64 = 0 then a.word0 else if x.toNat / 64 = 1 then a.word1
    else if x.toNat / 64 = 2 then a.word2 else a.word3 := by
  have hx : x.toNat < 256 := x.toNat_lt
  have h := word_ofNat (a := a) (k := x.toNat / 64) (Nat.mod_lt x.toNat (by decide : 0 < 64)) (by omega)
  rwa [Nat.div_add_mod, UInt8.ofNat_toNat] at h

theorem getLsbD_bit {n : UInt64} {i : Nat} :
    ((1 : UInt64) <<< n).toBitVec.getLsbD i = decide (i = n.toNat % 64) := by
  have hlt : n.toNat % 64 < 64 := Nat.mod_lt _ (by decide)
  have hword : ((1 : UInt64) <<< n).toBitVec = BitVec.twoPow 64 (n.toNat % 64) := by
    rw [UInt64.toBitVec_shiftLeft, BitVec.twoPow_eq, BitVec.shiftLeft_eq', BitVec.toNat_umod]
    rfl
  rw [hword, BitVec.getLsbD_twoPow]
  simp [hlt, eq_comm]

theorem getLsbD_setBit {w : UInt64} {n i : Nat} (hn : n < 64) (set : Bool) :
    (if set then w ||| (1 <<< UInt64.ofNat n) else w).toBitVec.getLsbD i =
      (w.toBitVec.getLsbD i || (decide (i = n) && set)) := by
  have hmod : (UInt64.ofNat n).toNat % 64 = n := by
    rw [UInt64.toNat_ofNat']
    omega
  cases set with
  | false => simp
  | true =>
    rw [if_pos rfl, UInt64.toBitVec_or, BitVec.getLsbD_or, getLsbD_bit, hmod, Bool.and_true]

/-- The bits of a word that is filled from the truth values of a predicate. -/
theorem getLsbD_wordOf (p : UInt8 → Bool) (base : Nat) {i : Nat} (hi : i < 64) :
    (wordOf p base).toBitVec.getLsbD i = p (UInt8.ofNat (base + i)) := by
  have hbits : ∀ n, n ≤ 64 → ((List.range n).foldl (fun w i =>
      if p (UInt8.ofNat (base + i)) then w ||| (1 <<< UInt64.ofNat i) else w) 0).toBitVec.getLsbD i =
      (decide (i < n) && p (UInt8.ofNat (base + i))) := by
    intro n
    induction n with
    | zero =>
      intro _
      simp
    | succ n ih =>
      intro hn
      rw [List.range_succ, List.foldl_append, List.foldl_cons, List.foldl_nil,
        getLsbD_setBit (by omega), ih (by omega)]
      by_cases h : i = n
      · subst h
        rw [decide_eq_false (Nat.lt_irrefl i), decide_eq_true (Nat.lt_succ_self i), decide_eq_true rfl,
          Bool.false_and, Bool.false_or]
      · have hlt : i < n + 1 ↔ i < n := by omega
        rw [decide_eq_false h, Bool.false_and, Bool.or_false, decide_eq_decide.2 hlt]
  rw [wordOf, hbits 64 (Nat.le_refl 64), decide_eq_true hi, Bool.true_and]

@[simp] theorem mem_ofPredicate {p : UInt8 → Bool} : x ∈ ofPredicate p ↔ p x = true := by
  have hx : x.toNat < 256 := x.toNat_lt
  have hword : (ofPredicate p).word x = wordOf p (64 * (x.toNat / 64)) := by
    have hk : x.toNat / 64 = 0 ∨ x.toNat / 64 = 1 ∨ x.toNat / 64 = 2 ∨ x.toNat / 64 = 3 := by omega
    rw [word_eq]
    rcases hk with hk | hk | hk | hk <;> simp [ofPredicate, hk]
  rw [mem_iff, hword, getLsbD_wordOf p _ (Nat.mod_lt _ (by decide)), Nat.div_add_mod,
    UInt8.ofNat_toNat]

@[simp] theorem mem_interval {first last : UInt8} :
    x ∈ interval first last ↔ (first ≤ x ∧ x ≤ last) ∨ (last ≤ x ∧ x ≤ first) := by
  simp [interval]

@[simp] theorem mem_singleton {y : UInt8} : x ∈ singleton y ↔ x = y := by
  have hx : x.toNat < 256 := x.toNat_lt
  have hy : y.toNat < 256 := y.toNat_lt
  have hword : (singleton y).word x =
      if x.toNat / 64 = y.toNat / 64 then 1 <<< y.toUInt64 else 0 := by
    have hk : x.toNat / 64 = 0 ∨ x.toNat / 64 = 1 ∨ x.toNat / 64 = 2 ∨ x.toNat / 64 = 3 := by omega
    rw [word_eq]
    unfold singleton
    simp only [UInt8.lt_iff_toNat_lt, UInt8.reduceToNat]
    by_cases h0 : y.toNat < 64
    · have hj : y.toNat / 64 = 0 := by omega
      rcases hk with hk | hk | hk | hk <;> simp [h0, hj, hk]
    · by_cases h1 : y.toNat < 128
      · have hj : y.toNat / 64 = 1 := by omega
        rcases hk with hk | hk | hk | hk <;> simp [h0, h1, hj, hk]
      · by_cases h2 : y.toNat < 192
        · have hj : y.toNat / 64 = 2 := by omega
          rcases hk with hk | hk | hk | hk <;> simp [h0, h1, h2, hj, hk]
        · have hj : y.toNat / 64 = 3 := by omega
          rcases hk with hk | hk | hk | hk <;> simp [h0, h1, h2, hj, hk]
  rw [mem_iff, hword, ← UInt8.toNat_inj]
  by_cases h : x.toNat / 64 = y.toNat / 64
  · have hamount : y.toUInt64.toNat % 64 = y.toNat % 64 := by simp
    rw [if_pos h, getLsbD_bit, hamount]
    simp only [decide_eq_true_eq]
    omega
  · rw [if_neg h]
    simp
    omega

theorem mem_toList : x ∈ a.toList ↔ x ∈ a := by
  rw [toList, List.mem_filter, contains_iff, allBytes, List.mem_map]
  refine ⟨And.right, fun h => ⟨⟨x.toNat, List.mem_range.2 x.toNat_lt, UInt8.ofNat_toNat⟩, h⟩⟩

end ByteSet
end ByteMatch
