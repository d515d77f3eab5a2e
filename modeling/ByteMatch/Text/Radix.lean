/-!
# ByteMatch.Text.Radix

Numbers in base sixteen and fields of a fixed width.

* `Text.hexDigits`: the digits of a number in base sixteen, in lower case.
* `Text.padLeft`: a text filled up on the left to a width.
* `Text.hexWord`: a number of 64 bits, negative ones as their two's complement.
-/

namespace ByteMatch
namespace Text

/-- A text filled up on the left with `fill` to `width` characters. -/
def padLeft (width : Nat) (fill : Char) (s : String) : String :=
  String.ofList (List.replicate (width - s.length) fill) ++ s

/-- The digits of `n` in base sixteen, in lower case, at least one. -/
def hexDigits (n : Nat) : String := String.ofList (Nat.toDigits 16 n)

def upperHexDigits (n : Nat) : String := (hexDigits n).map Char.toUpper

/-- The digits of `n` in base sixteen, filled up with zeros to `width` digits. -/
def hexPadded (width n : Nat) : String := padLeft width '0' (hexDigits n)

/-- The digits of a number of 64 bits in base sixteen, filled up with zeros to `width` digits.
A negative number is written as its two's complement. -/
def hexWord (width : Nat) (n : Int) : String := hexPadded width (n % 0x10000000000000000).toNat

/-- `0x` and the digits of `n` in base sixteen, filled up with zeros to `width` digits. -/
def hexLiteral (width n : Nat) : String := "0x" ++ hexPadded width n

/-- A number in base ten, filled up with blanks to `width` characters. -/
def decimalColumn (width n : Nat) : String := padLeft width ' ' (toString n)

/-- Two digits in base sixteen for each byte, in lower case. -/
def hexBytes (bytes : List UInt8) : String :=
  String.join (bytes.map fun b => hexPadded 2 b.toNat)

end Text
end ByteMatch
