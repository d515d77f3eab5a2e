/-!
# ByteMatch.CharSet.Checksum

The checksum of class files: the cyclic redundancy check of 32 bits with the reflected polynomial
`0xEDB88320`, modulo the largest prime below `2 ^ 16`.
-/

namespace ByteMatch
namespace Checksum

/-- Shifts the register by one bit. The bit that leaves it decides on adding the polynomial. -/
def shiftBit (r : UInt32) : UInt32 :=
  if r &&& 1 = 1 then (r >>> 1) ^^^ 0xEDB88320 else r >>> 1

/-- Feeds one byte into the register, the least significant bit first. -/
def shiftByte (r : UInt32) (b : UInt8) : UInt32 :=
  (List.range 8).foldl (fun r _ => shiftBit r) (r ^^^ b.toUInt32)

/-- The cyclic redundancy check of 32 bits. -/
def crc32 (bytes : List UInt8) : UInt32 := ~~~(bytes.foldl shiftByte 0xFFFFFFFF)

/-- The largest prime below `2 ^ 16`. -/
def modulus : Nat := 65521

def checksum (bytes : List UInt8) : Nat := (crc32 bytes).toNat % modulus

end Checksum
end ByteMatch
