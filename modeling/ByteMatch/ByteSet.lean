/-!
# ByteMatch.ByteSet

Sets of byte values, the labels on the transitions of a character automaton.

* `ByteSet`: a map of 256 bits in four words.
* `ByteSet.contains`: membership, the view through which the operations are described.
* `ByteSet.before`: the order of labels within a state. Word 0, which holds bytes 0 to 63,
  compares first, and the words compare as numbers. It is a strict total order
  (`lt_irrefl`, `lt_trans`, `lt_or_eq_or_gt`).
-/

namespace ByteMatch

/-- A set of byte values. Byte `b` belongs to the set when bit `b % 64` of word `b / 64` is set. -/
@[ext] structure ByteSet where
  word0 : UInt64
  word1 : UInt64
  word2 : UInt64
  word3 : UInt64
deriving DecidableEq, Repr, Inhabited

namespace ByteSet

def empty : ByteSet := ⟨0, 0, 0, 0⟩

def all : ByteSet := ⟨~~~0, ~~~0, ~~~0, ~~~0⟩

instance : EmptyCollection ByteSet := ⟨empty⟩

def word (s : ByteSet) (b : UInt8) : UInt64 :=
  if b < 64 then s.word0
  else if b < 128 then s.word1
  else if b < 192 then s.word2
  else s.word3

/-- Membership. The amount of a shift counts modulo the width of the word. -/
def contains (s : ByteSet) (b : UInt8) : Bool :=
  (s.word b >>> b.toUInt64) &&& 1 != 0

instance : Membership UInt8 ByteSet := ⟨fun s b => s.contains b = true⟩

instance (b : UInt8) (s : ByteSet) : Decidable (b ∈ s) :=
  inferInstanceAs (Decidable (s.contains b = true))

def singleton (b : UInt8) : ByteSet :=
  let bit : UInt64 := 1 <<< b.toUInt64
  if b < 64 then ⟨bit, 0, 0, 0⟩
  else if b < 128 then ⟨0, bit, 0, 0⟩
  else if b < 192 then ⟨0, 0, bit, 0⟩
  else ⟨0, 0, 0, bit⟩

instance : Union ByteSet :=
  ⟨fun a b => ⟨a.word0 ||| b.word0, a.word1 ||| b.word1, a.word2 ||| b.word2, a.word3 ||| b.word3⟩⟩

instance : Inter ByteSet :=
  ⟨fun a b => ⟨a.word0 &&& b.word0, a.word1 &&& b.word1, a.word2 &&& b.word2, a.word3 &&& b.word3⟩⟩

def compl (s : ByteSet) : ByteSet := ⟨~~~s.word0, ~~~s.word1, ~~~s.word2, ~~~s.word3⟩

instance : SDiff ByteSet := ⟨fun a b => a ∩ b.compl⟩

def symmDiff (a b : ByteSet) : ByteSet :=
  ⟨a.word0 ^^^ b.word0, a.word1 ^^^ b.word1, a.word2 ^^^ b.word2, a.word3 ^^^ b.word3⟩

def isEmpty (s : ByteSet) : Bool :=
  s.word0 == 0 && s.word1 == 0 && s.word2 == 0 && s.word3 == 0

def intersects (a b : ByteSet) : Bool := !(a ∩ b).isEmpty

/-- The bits of a word, from the truth values of 64 consecutive bytes. -/
def wordOf (p : UInt8 → Bool) (base : Nat) : UInt64 :=
  (List.range 64).foldl
    (fun w i => if p (UInt8.ofNat (base + i)) then w ||| (1 <<< UInt64.ofNat i) else w) 0

def ofPredicate (p : UInt8 → Bool) : ByteSet :=
  ⟨wordOf p 0, wordOf p 64, wordOf p 128, wordOf p 192⟩

/-- The bytes between two ends, which may come in any order and belong to the set. -/
def interval (first last : UInt8) : ByteSet :=
  ofPredicate fun b => (first ≤ b && b ≤ last) || (last ≤ b && b ≤ first)

def ofList (bytes : List UInt8) : ByteSet :=
  bytes.foldl (fun s b => s ∪ singleton b) ∅

def allBytes : List UInt8 := (List.range 256).map UInt8.ofNat

def toList (s : ByteSet) : List UInt8 := allBytes.filter s.contains

def size (s : ByteSet) : Nat := s.toList.length

/-! ## Order -/

/-- The order of labels: the first word in which two sets differ decides. -/
def before (a b : ByteSet) : Bool :=
  if a.word0 ≠ b.word0 then a.word0 < b.word0
  else if a.word1 ≠ b.word1 then a.word1 < b.word1
  else if a.word2 ≠ b.word2 then a.word2 < b.word2
  else a.word3 < b.word3

instance : LT ByteSet := ⟨fun a b => a.before b = true⟩

instance (a b : ByteSet) : Decidable (a < b) :=
  inferInstanceAs (Decidable (a.before b = true))

instance : Ord ByteSet := ⟨fun a b => compareOfLessAndEq a b⟩

theorem lt_iff {a b : ByteSet} : a < b ↔
    a.word0.toNat < b.word0.toNat ∨ (a.word0.toNat = b.word0.toNat ∧
    (a.word1.toNat < b.word1.toNat ∨ (a.word1.toNat = b.word1.toNat ∧
    (a.word2.toNat < b.word2.toNat ∨ (a.word2.toNat = b.word2.toNat ∧
      a.word3.toNat < b.word3.toNat))))) := by
  show a.before b = true ↔ _
  unfold before
  simp only [ne_eq, ← UInt64.toNat_inj, UInt64.lt_iff_toNat_lt]
  split
  · simp; omega
  · split
    · simp; omega
    · split <;> simp <;> omega

theorem lt_irrefl (a : ByteSet) : ¬ a < a := by
  rw [lt_iff]; omega

theorem lt_trans {a b c : ByteSet} (hab : a < b) (hbc : b < c) : a < c := by
  rw [lt_iff] at *; omega

theorem lt_asymm {a b : ByteSet} (hab : a < b) : ¬ b < a :=
  fun hba => lt_irrefl a (lt_trans hab hba)

theorem lt_or_eq_or_gt (a b : ByteSet) : a < b ∨ a = b ∨ b < a := by
  rw [lt_iff, lt_iff, ByteSet.ext_iff]
  simp only [← UInt64.toNat_inj]
  omega

end ByteSet
end ByteMatch
