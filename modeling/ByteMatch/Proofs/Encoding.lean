import ByteMatch.Encoding

/-!
# ByteMatch.Proofs.Encoding

The bytes of characters.

The first bytes of a character tell how many it has, so no character starts with the bytes of another
one.

* `Encoding.lengthAt`: the length of the character at the beginning of some bytes.
* `Encoding.lengthAt_encode`: it is that of the character, whatever follows it.
* `Encoding.encode_ne_nil`, `Encoding.prefix_free`: characters have bytes, and tell themselves apart.
-/

namespace ByteMatch
namespace Encoding

variable {e : Encoding} {n m : Nat} {u v : List UInt8}

/-- The length of a character in UTF-16, from the most significant byte of its first unit. -/
def utf16Length (b : UInt8) : Nat := if 0xD8 ≤ b ∧ b < 0xE0 then 4 else 2

/-- The length of a character in UTF-8, from its first byte. -/
def utf8Length (b : UInt8) : Nat :=
  if b < 0x80 then 1 else if b < 0xE0 then 2 else if b < 0xF0 then 3 else 4

/-- The number of bytes of the character that some bytes start with. -/
def lengthAt : Encoding → List UInt8 → Nat
  | utf8, b :: _ => utf8Length b
  | utf16le, _ :: b :: _ => utf16Length b
  | utf16be, b :: _ => utf16Length b
  | utf32le, _ => 4
  | utf32be, _ => 4
  | _, _ => 1

theorem lengthAt_pos (e : Encoding) (bytes : List UInt8) : 0 < e.lengthAt bytes := by
  rw [lengthAt.eq_def]
  split
  · rw [utf8Length]
    split
    · decide
    · split
      · decide
      · split <;> decide
  · rw [utf16Length]
    split <;> decide
  · rw [utf16Length]
    split <;> decide
  · decide
  · decide
  · decide

theorem toNat_ofNat_of_lt {k : Nat} (h : k < 256) : (UInt8.ofNat k).toNat = k := by
  rw [UInt8.toNat_ofNat', Nat.mod_eq_of_lt h]

theorem isScalar_iff : isScalar n = true ↔ n < 0xD800 ∨ (0xE000 ≤ n ∧ n ≤ 0x10FFFF) := by
  simp only [isScalar, Bool.or_eq_true, Bool.and_eq_true, decide_eq_true_eq]
  rfl

theorem le_lastCodePoint (h : e.encode n = some u) : n ≤ lastCodePoint := by
  rw [encode] at h
  split at h
  · rename_i hscalar
    rw [isScalar_iff] at hscalar
    rw [lastCodePoint]
    omega
  · cases h

theorem utf8Length_utf8Bytes (h : n ≤ lastCodePoint) (v : List UInt8) :
    lengthAt utf8 (utf8Bytes n ++ v) = (utf8Bytes n).length := by
  rw [lastCodePoint] at h
  have hlength : ∀ k, k < 256 → utf8Length (UInt8.ofNat k) =
      if k < 0x80 then 1 else if k < 0xE0 then 2 else if k < 0xF0 then 3 else 4 := by
    intro k hk
    simp only [utf8Length, UInt8.lt_iff_toNat_lt, toNat_ofNat_of_lt hk]
    rfl
  rw [utf8Bytes]
  split
  · rename_i hone
    rw [List.singleton_append, lengthAt, hlength n (by omega), if_pos hone]
    rfl
  · split
    · rw [List.cons_append, lengthAt, hlength _ (by omega), if_neg (by omega), if_pos (by omega)]
      rfl
    · split
      · rw [List.cons_append, lengthAt, hlength _ (by omega), if_neg (by omega), if_neg (by omega),
          if_pos (by omega)]
        rfl
      · rw [List.cons_append, lengthAt, hlength _ (by omega), if_neg (by omega), if_neg (by omega),
          if_neg (by omega)]
        rfl

/-- The most significant byte of the first unit is that of a surrogate only in a pair. -/
theorem utf16Units_length (h : isScalar n = true) : ∃ unit rest, utf16Units n = unit :: rest ∧
    utf16Length (UInt8.ofNat (unit / 256)) = 2 * (unit :: rest).length := by
  rw [isScalar_iff] at h
  have hlength : ∀ k, k < 256 → utf16Length (UInt8.ofNat k) =
      if 0xD8 ≤ k ∧ k < 0xE0 then 4 else 2 := by
    intro k hk
    simp only [utf16Length, UInt8.le_iff_toNat_le, UInt8.lt_iff_toNat_lt, toNat_ofNat_of_lt hk]
    rfl
  rw [utf16Units]
  split
  · refine ⟨n, [], rfl, ?_⟩
    rw [hlength _ (by omega), if_neg (by omega)]
    rfl
  · refine ⟨_, _, rfl, ?_⟩
    rw [hlength _ (by omega), if_pos (by omega)]
    rfl

theorem length_flatMap_of_two {units : List Nat} {f : Nat → List UInt8} (hf : ∀ unit, (f unit).length = 2) :
    (units.flatMap f).length = 2 * units.length := by
  induction units with
  | nil => rfl
  | cons unit rest ih =>
    rw [List.flatMap_cons, List.length_append, hf, ih, List.length_cons]
    omega

/-- The first bytes of a character tell its length, whatever follows it. -/
theorem lengthAt_encode (h : e.encode n = some u) (v : List UInt8) :
    e.lengthAt (u ++ v) = u.length := by
  rw [encode] at h
  split at h
  · rename_i hscalar
    obtain ⟨unit, rest, hunits, hlength⟩ := utf16Units_length hscalar
    cases e with
    | utf8 =>
      obtain rfl := Option.some.inj h
      refine utf8Length_utf8Bytes ?_ v
      have := isScalar_iff.1 hscalar
      rw [lastCodePoint]
      omega
    | utf16le =>
      obtain rfl := Option.some.inj h
      rw [hunits, length_flatMap_of_two fun _ => rfl, ← hlength]
      rfl
    | utf16be =>
      obtain rfl := Option.some.inj h
      rw [hunits, length_flatMap_of_two fun _ => rfl, ← hlength]
      rfl
    | utf32le =>
      obtain rfl := Option.some.inj h
      rfl
    | utf32be =>
      obtain rfl := Option.some.inj h
      rfl
    | latin1 =>
      rw [encodeScalar] at h
      split at h
      · obtain rfl := Option.some.inj h
        rfl
      · cases h
    | ascii =>
      rw [encodeScalar] at h
      split at h
      · obtain rfl := Option.some.inj h
        rfl
      · cases h
  · cases h

theorem encode_ne_nil (h : e.encode n = some u) : u ≠ [] := by
  have hlength := lengthAt_encode h []
  have hpos := lengthAt_pos e (u ++ [])
  rw [hlength] at hpos
  exact List.length_pos_iff.1 hpos

/-- No character starts with the bytes of another one. -/
theorem prefix_free (h : e.encode n = some u) (h' : e.encode m = some (u ++ v)) : v = [] := by
  have hlength := lengthAt_encode h v
  have hlength' := lengthAt_encode h' []
  rw [List.append_nil, hlength, List.length_append] at hlength'
  exact List.length_eq_zero_iff.1 (by omega)

end Encoding
end ByteMatch
