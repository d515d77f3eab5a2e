import ByteMatch.ByteSet

/-!
# ByteMatch.ByteSet.Serial

The compact form of byte sets in class files.

The map of a set is 32 bytes, the least significant first. Its serial form is an indicator byte
and the significant bytes of the map, the most significant first. The low five bits of the
indicator are the position of the lowest byte that is not zero. The high three bits are the number
of bytes that follow less one, or 7 for all bytes from that position to the end of the map. The
empty set has indicator 0 and a single zero byte.

* `ByteSet.leBytes`, `ByteSet.ofLeBytes`: the map as 32 bytes.
* `ByteSet.serial`, `ByteSet.ofSerial?`: the serial form and its reader.
* `ByteSet.serialLength`: the number of bytes that an indicator announces.
-/

namespace ByteMatch
namespace ByteSet

/-- The number of bytes of the map of a set. -/
def mapLength : Nat := 32

/-- The eight bytes of a word, the least significant first. -/
def wordBytes (w : UInt64) : List UInt8 :=
  (List.range 8).map fun i => (w >>> UInt64.ofNat (8 * i)).toUInt8

/-- The 32 bytes of the map of a set, the least significant first. -/
def leBytes (s : ByteSet) : List UInt8 :=
  wordBytes s.word0 ++ wordBytes s.word1 ++ wordBytes s.word2 ++ wordBytes s.word3

/-- The set with the given map. Bytes that are missing at the end count as zero. -/
def ofLeBytes (bytes : List UInt8) : ByteSet :=
  ofPredicate fun b => (bytes.getD (b.toNat / 8) 0).toNat.testBit (b.toNat % 8)

/-- The number of bytes that follow an indicator. -/
def serialLength (indicator : UInt8) : Nat :=
  if indicator.toNat / 32 = 7 then mapLength - indicator.toNat % 32
  else indicator.toNat / 32 + 1

def dropTrailingZeros (bytes : List UInt8) : List UInt8 :=
  (bytes.reverse.dropWhile (· == 0)).reverse

/-- The indicator and the bytes that follow it. Spans of less than eight bytes are cut at the
highest byte that is not zero, longer ones run to the end of the map. -/
def serial (s : ByteSet) : UInt8 × List UInt8 :=
  let high := s.leBytes.dropWhile (· == 0)
  let position := mapLength - high.length
  match dropTrailingZeros high with
  | [] => (0, [0])
  | span =>
    if span.length < 8 then
      (UInt8.ofNat (position + 32 * (span.length - 1)), span.reverse)
    else
      (UInt8.ofNat (position + 32 * 7), high.reverse)

/-- The set with the given serial form, if the bytes are as many as the indicator announces and
fit into the map. -/
def ofSerial? (indicator : UInt8) (bytes : List UInt8) : Option ByteSet :=
  let position := indicator.toNat % 32
  if bytes.length = serialLength indicator ∧ position + bytes.length ≤ mapLength then
    some (ofLeBytes (List.replicate position 0 ++ bytes.reverse))
  else none

end ByteSet
end ByteMatch
