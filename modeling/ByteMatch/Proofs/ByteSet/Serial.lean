import ByteMatch.ByteSet.Serial
import ByteMatch.Proofs.ByteSet.Membership

/-!
# ByteMatch.Proofs.ByteSet.Serial

Reading the serial form of a byte set gives the set back.

The map of a set is a number of zeros, the span from the first to the last byte that is not zero, and
zeros again. The indicator tells where the span starts. The zeros at the end make no difference to
the reader, so it does not matter whether they are written.

* `ByteSet.ofLeBytes_leBytes`: a set is known by the 32 bytes of its map.
* `ByteSet.ofSerial?_serial`: the indicator announces as many bytes as follow, and they are read as the
  set that they were written for.
* `ByteSet.leBytes_ofLeBytes`: a map is known by its set, up to the zeros at its end.
* `ByteSet.length_serial_le`: so no bytes that are read as a set are fewer than those of its serial form.
-/

namespace ByteMatch
namespace ByteSet

variable {s : ByteSet} {x : UInt8}

/-! ## The map -/

theorem mem_ofLeBytes {bytes : List UInt8} :
    x ∈ ofLeBytes bytes ↔ (bytes.getD (x.toNat / 8) 0).toNat.testBit (x.toNat % 8) = true :=
  mem_ofPredicate

theorem ofLeBytes_congr {l l' : List UInt8} (h : ∀ i, l.getD i 0 = l'.getD i 0) :
    ofLeBytes l = ofLeBytes l' :=
  ext_mem fun x => by rw [mem_ofLeBytes, mem_ofLeBytes, h]

theorem getD_append_zeros (l : List UInt8) (n i : Nat) :
    (l ++ List.replicate n 0).getD i 0 = l.getD i 0 := by
  simp only [List.getD_eq_getElem?_getD, List.getElem?_append, List.getElem?_replicate]
  split
  · rfl
  · rename_i hi
    rw [List.getElem?_eq_none (Nat.le_of_not_lt hi)]
    split <;> rfl

/-- Zeros at the end of the map may be left out. -/
theorem ofLeBytes_append_zeros (l : List UInt8) (n : Nat) :
    ofLeBytes (l ++ List.replicate n 0) = ofLeBytes l :=
  ofLeBytes_congr (getD_append_zeros l n)

theorem length_wordBytes {w : UInt64} : (wordBytes w).length = 8 := by
  simp [wordBytes]

theorem length_leBytes : s.leBytes.length = mapLength := by
  simp [leBytes, length_wordBytes, mapLength]

theorem testBit_wordBytes {w : UInt64} {i j : Nat} (hi : i < 8) (hj : j < 8) :
    ((wordBytes w).getD i 0).toNat.testBit j = w.toBitVec.getLsbD (8 * i + j) := by
  have hget : (wordBytes w).getD i 0 = (w >>> UInt64.ofNat (8 * i)).toUInt8 := by
    simp [wordBytes, List.getD_eq_getElem?_getD, hi]
  have hamount : (UInt64.ofNat (8 * i)).toNat % 64 = 8 * i := by
    rw [UInt64.toNat_ofNat']
    omega
  rw [hget, UInt64.toNat_toUInt8, UInt64.toNat_shiftRight, hamount, Nat.testBit_mod_two_pow,
    Nat.testBit_shiftRight, decide_eq_true hj, Bool.true_and]
  rfl

theorem getD_leBytes {k i : Nat} (hk : k < 4) (hi : i < 8) : s.leBytes.getD (8 * k + i) 0 =
    (wordBytes (if k = 0 then s.word0 else if k = 1 then s.word1 else if k = 2 then s.word2
      else s.word3)).getD i 0 := by
  have hcases : k = 0 ∨ k = 1 ∨ k = 2 ∨ k = 3 := by omega
  simp only [leBytes, List.getD_eq_getElem?_getD]
  rcases hcases with rfl | rfl | rfl | rfl
  · rw [List.getElem?_append_left (by simp [length_wordBytes]; omega),
      List.getElem?_append_left (by simp [length_wordBytes]; omega),
      List.getElem?_append_left (by simp [length_wordBytes]; omega)]
    simp
  · rw [List.getElem?_append_left (by simp [length_wordBytes]; omega),
      List.getElem?_append_left (by simp [length_wordBytes]; omega),
      List.getElem?_append_right (by simp [length_wordBytes])]
    simp [length_wordBytes]
  · rw [List.getElem?_append_left (by simp [length_wordBytes]; omega),
      List.getElem?_append_right (by simp [length_wordBytes])]
    simp [length_wordBytes]
  · rw [List.getElem?_append_right (by simp [length_wordBytes])]
    simp [length_wordBytes]

theorem ofLeBytes_leBytes : ofLeBytes s.leBytes = s := by
  refine ext_mem fun x => ?_
  have hx : x.toNat < 256 := x.toNat_lt
  have hindex : x.toNat / 8 = 8 * (x.toNat / 64) + x.toNat / 8 % 8 := by omega
  have hbit : 8 * (x.toNat / 8 % 8) + x.toNat % 8 = x.toNat % 64 := by omega
  rw [mem_ofLeBytes, hindex, getD_leBytes (by omega) (Nat.mod_lt _ (by decide)),
    testBit_wordBytes (Nat.mod_lt _ (by decide)) (Nat.mod_lt _ (by decide)), hbit, mem_iff, word_eq]

/-! ## The span -/

theorem eq_zeros_append_dropWhile (l : List UInt8) :
    l = List.replicate (l.length - (l.dropWhile (· == 0)).length) 0 ++ l.dropWhile (· == 0) := by
  induction l with
  | nil => rfl
  | cons b l ih =>
    by_cases hb : b = 0
    · have hle : (l.dropWhile (· == 0)).length ≤ l.length := (List.dropWhile_sublist _).length_le
      subst hb
      rw [List.dropWhile_cons_of_pos rfl, List.length_cons, Nat.succ_sub hle, List.replicate_succ,
        List.cons_append, ← ih]
    · rw [List.dropWhile_cons_of_neg (by simpa using hb), Nat.sub_self]
      rfl

theorem exists_dropTrailingZeros (l : List UInt8) :
    ∃ n, l = dropTrailingZeros l ++ List.replicate n 0 := by
  refine ⟨l.reverse.length - (l.reverse.dropWhile (· == 0)).length, ?_⟩
  have h := congrArg List.reverse (eq_zeros_append_dropWhile l.reverse)
  rwa [List.reverse_append, List.reverse_reverse, List.reverse_replicate] at h

theorem length_dropTrailingZeros_le (l : List UInt8) : (dropTrailingZeros l).length ≤ l.length := by
  obtain ⟨n, hn⟩ := exists_dropTrailingZeros l
  have := congrArg List.length hn
  rw [List.length_append] at this
  omega

/-- The map consists of zeros, the span and zeros again. -/
theorem exists_span (s : ByteSet) : ∃ n, s.leBytes =
    List.replicate (mapLength - (s.leBytes.dropWhile (· == 0)).length) 0 ++
      (dropTrailingZeros (s.leBytes.dropWhile (· == 0)) ++ List.replicate n 0) := by
  obtain ⟨n, hn⟩ := exists_dropTrailingZeros (s.leBytes.dropWhile (· == 0))
  refine ⟨n, ?_⟩
  rw [← hn, ← length_leBytes (s := s)]
  exact eq_zeros_append_dropWhile s.leBytes

/-! ## Round trip -/

/-- The reader accepts an indicator with the position and the length of the bytes that follow. -/
theorem ofSerial?_eq (position field : Nat) (bytes : List UInt8) (hposition : position < 32)
    (hfield : field < 8)
    (hlength : bytes.length = if field = 7 then mapLength - position else field + 1)
    (hfits : position + bytes.length ≤ mapLength) :
    serialLength (UInt8.ofNat (position + 32 * field)) = bytes.length ∧
      ofSerial? (UInt8.ofNat (position + 32 * field)) bytes =
        some (ofLeBytes (List.replicate position 0 ++ bytes.reverse)) := by
  have hnat : (UInt8.ofNat (position + 32 * field)).toNat = position + 32 * field := by
    rw [UInt8.toNat_ofNat']
    omega
  have hhigh : (position + 32 * field) / 32 = field := by omega
  have hlow : (position + 32 * field) % 32 = position := by omega
  have hserial : serialLength (UInt8.ofNat (position + 32 * field)) = bytes.length := by
    rw [serialLength, hnat, hhigh, hlow, hlength]
  refine ⟨hserial, ?_⟩
  rw [ofSerial?, hserial, hnat, hlow, if_pos ⟨rfl, hfits⟩]

theorem ofSerial?_serial (s : ByteSet) : s.serial.2.length = serialLength s.serial.1 ∧
    ofSerial? s.serial.1 s.serial.2 = some s := by
  obtain ⟨n, hn⟩ := exists_span s
  have htop : (s.leBytes.dropWhile (· == 0)).length ≤ s.leBytes.length :=
    (List.dropWhile_sublist _).length_le
  have hwhole := eq_zeros_append_dropWhile s.leBytes
  have hset := ofLeBytes_leBytes (s := s)
  rw [length_leBytes] at htop hwhole
  simp only [serial]
  generalize s.leBytes.dropWhile (· == 0) = high at *
  have hle := length_dropTrailingZeros_le high
  have hread : ofLeBytes (List.replicate (mapLength - high.length) 0 ++ dropTrailingZeros high) = s := by
    rw [← ofLeBytes_append_zeros _ n, List.append_assoc, ← hn, hset]
  have hmap : mapLength = 32 := rfl
  split
  · -- without a byte that is not zero, the byte that is written is a zero at the end of the map
    rename_i hspan
    have hempty : s = ofLeBytes [] := by
      rw [← hread, hspan, List.append_nil]
      exact ofLeBytes_append_zeros [] _
    refine ⟨rfl, ?_⟩
    rw [hempty, ← ofLeBytes_append_zeros [] 1]
    rfl
  · rename_i hspan
    have hpos := List.length_pos_iff.2 hspan
    split
    · obtain ⟨hserial, hcode⟩ := ofSerial?_eq (mapLength - high.length)
        ((dropTrailingZeros high).length - 1) (dropTrailingZeros high).reverse (by omega) (by omega)
        (by rw [List.length_reverse, if_neg (by omega)]; omega) (by rw [List.length_reverse]; omega)
      refine ⟨hserial.symm, ?_⟩
      rw [hcode, List.reverse_reverse, hread]
    · -- the zeros at the end are written too
      obtain ⟨hserial, hcode⟩ := ofSerial?_eq (mapLength - high.length) 7 high.reverse (by omega)
        (by omega) (by rw [List.length_reverse, if_pos rfl]; omega)
        (by rw [List.length_reverse]; omega)
      refine ⟨hserial.symm, ?_⟩
      rw [hcode, List.reverse_reverse, ← hwhole, hset]

/-- The reader only refuses bytes that are not as many as announced, or that do not fit into the map. -/
theorem ofSerial?_eq_none_iff {indicator : UInt8} {bytes : List UInt8} :
    ofSerial? indicator bytes = none ↔ bytes.length ≠ serialLength indicator ∨
      mapLength < indicator.toNat % 32 + serialLength indicator := by
  simp only [ofSerial?, ite_eq_right_iff, reduceCtorEq, imp_false]
  omega

/-! ## The shortest form -/

/-- Each bit of the map stands for a byte. -/
theorem ofNat_mem_ofLeBytes {l : List UInt8} {i j : Nat} (hi : i < mapLength) (hj : j < 8) :
    UInt8.ofNat (8 * i + j) ∈ ofLeBytes l ↔ (l.getD i 0).toNat.testBit j = true := by
  have hi' : i < 32 := hi
  have hx : (UInt8.ofNat (8 * i + j)).toNat = 8 * i + j := by
    rw [UInt8.toNat_ofNat']
    omega
  have hbyte : (8 * i + j) / 8 = i := by omega
  have hbit : (8 * i + j) % 8 = j := by omega
  rw [mem_ofLeBytes, hx, hbyte, hbit]

theorem getD_leBytes_ofLeBytes (l : List UInt8) {i : Nat} (hi : i < mapLength) :
    (ofLeBytes l).leBytes.getD i 0 = l.getD i 0 := by
  refine UInt8.toNat_inj.1 (Nat.eq_of_testBit_eq fun j => ?_)
  by_cases hj : j < 8
  · rw [Bool.eq_iff_iff, ← ofNat_mem_ofLeBytes hi hj, ofLeBytes_leBytes, ofNat_mem_ofLeBytes hi hj]
  · have hhigh : ∀ b : UInt8, b.toNat.testBit j = false := by
      intro b
      refine Nat.testBit_lt_two_pow (Nat.lt_of_lt_of_le b.toNat_lt ?_)
      exact Nat.pow_le_pow_right (by decide) (Nat.le_of_not_lt hj)
    rw [hhigh, hhigh]

/-- The map of a set that has been given by its map, with the zeros that were missing at the end. -/
theorem leBytes_ofLeBytes {l : List UInt8} (h : l.length ≤ mapLength) :
    (ofLeBytes l).leBytes = l ++ List.replicate (mapLength - l.length) 0 := by
  refine List.ext_getElem ?_ fun i hi hi' => ?_
  · rw [length_leBytes, List.length_append, List.length_replicate]
    omega
  · rw [length_leBytes] at hi
    have hbyte := getD_leBytes_ofLeBytes l hi
    rw [← getD_append_zeros l (mapLength - l.length)] at hbyte
    have hmap : i < (ofLeBytes l).leBytes.length := by rwa [length_leBytes]
    rwa [List.getD_eq_getElem?_getD, List.getD_eq_getElem?_getD, List.getElem?_eq_getElem hmap,
      List.getElem?_eq_getElem hi'] at hbyte

theorem dropTrailingZeros_append_zeros (l : List UInt8) (n : Nat) :
    dropTrailingZeros (l ++ List.replicate n 0) = dropTrailingZeros l := by
  rw [dropTrailingZeros, dropTrailingZeros, List.reverse_append, List.reverse_replicate,
    List.dropWhile_append_of_pos]
  simp

/-- Zeros on both sides are not part of the span. -/
theorem length_span_le (l : List UInt8) (n : Nat) :
    (dropTrailingZeros ((l ++ List.replicate n 0).dropWhile (· == 0))).length ≤ l.length := by
  induction l with
  | nil =>
    have hzeros : (List.replicate n (0 : UInt8)).dropWhile (· == 0) = [] := by simp
    rw [List.nil_append, hzeros]
    exact Nat.le_refl 0
  | cons b l ih =>
    by_cases hb : b = 0
    · subst hb
      rw [List.cons_append, List.dropWhile_cons_of_pos rfl]
      exact Nat.le_succ_of_le ih
    · rw [List.cons_append, List.dropWhile_cons_of_neg (by simpa using hb), ← List.cons_append,
        dropTrailingZeros_append_zeros]
      exact length_dropTrailingZeros_le _

/-- No bytes that are read as a set are fewer than those of its serial form. -/
theorem length_serial_le {indicator : UInt8} {bytes : List UInt8}
    (h : ofSerial? indicator bytes = some s) : s.serial.2.length ≤ bytes.length := by
  have hmap : mapLength = 32 := rfl
  rw [ofSerial?] at h
  simp only [Option.ite_none_right_eq_some, Option.some.injEq] at h
  obtain ⟨⟨hlength, hfits⟩, hset⟩ := h
  -- what is left of the map after its zeros, and the span in it
  have hhigh : s.leBytes.dropWhile (· == 0) =
      (bytes.reverse ++ List.replicate (mapLength - (indicator.toNat % 32 + bytes.length)) 0).dropWhile
        (· == 0) := by
    rw [← hset, leBytes_ofLeBytes (by simpa using hfits), List.append_assoc,
      List.dropWhile_append_of_pos (by simp), List.length_append, List.length_replicate,
      List.length_reverse]
  have hspan := length_span_le bytes.reverse (mapLength - (indicator.toNat % 32 + bytes.length))
  have htop := (List.dropWhile_sublist (· == 0) (l := bytes.reverse ++
    List.replicate (mapLength - (indicator.toNat % 32 + bytes.length)) (0 : UInt8))).length_le
  rw [← hhigh] at hspan htop
  rw [List.length_append, List.length_replicate, List.length_reverse] at htop
  rw [List.length_reverse] at hspan
  have hindicator := indicator.toNat_lt
  rw [serialLength] at hlength
  simp only [serial]
  split
  · -- an indicator announces one byte at least
    rw [List.length_singleton]
    split at hlength <;> omega
  · split
    · rwa [List.length_reverse]
    · -- a span of eight bytes can only be announced by the escape, and then the map is filled
      rw [List.length_reverse]
      split at hlength <;> omega

end ByteSet
end ByteMatch
