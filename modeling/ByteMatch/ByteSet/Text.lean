import ByteMatch.ByteSet.Ranges
import ByteMatch.Text.Radix

/-!
# ByteMatch.ByteSet.Text

The two written forms of a byte set.

* `ByteSet.listing`: the members in upper case base sixteen, separated by commas.
* `ByteSet.rangeListing`: the runs of members, separated by blanks.
-/

namespace ByteMatch
namespace ByteSet

/-- The members, two upper case digits in base sixteen each, separated by commas. -/
def listing (s : ByteSet) : String :=
  String.intercalate "," (s.toList.map fun b => Text.padLeft 2 '0' (Text.upperHexDigits b.toNat))

/-- One run of bytes: a single literal, or two joined by a dash. -/
def rangeText (r : UInt8 × UInt8) : String :=
  if r.1 = r.2 then Text.hexLiteral 2 r.1.toNat
  else Text.hexLiteral 2 r.1.toNat ++ "-" ++ Text.hexLiteral 2 r.2.toNat

def rangeListing (s : ByteSet) : String :=
  "Code[" ++ String.intercalate " " (s.ranges.map rangeText) ++ "]"

end ByteSet
end ByteMatch
