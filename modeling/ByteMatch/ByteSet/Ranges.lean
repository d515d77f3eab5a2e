import ByteMatch.ByteSet

/-!
# ByteMatch.ByteSet.Ranges

Byte sets as lists of inclusive ranges, the form in which transitions are loaded into a machine.

* `ByteSet.ranges`: the maximal runs of members, ascending.
* `ByteSet.ofRanges`: the union of intervals, whose ends may come in any order.
-/

namespace ByteMatch
namespace ByteSet

/-- Extends the runs of the bytes that follow by one byte: the first run grows if it starts at
the next byte, else the byte is a run of its own. -/
def extendRuns (b : UInt8) : List (UInt8 × UInt8) → List (UInt8 × UInt8)
  | [] => [(b, b)]
  | (first, last) :: more =>
    if b.toNat + 1 = first.toNat then (b, last) :: more
    else (b, b) :: (first, last) :: more

/-- The maximal runs of consecutive members, ascending, each with its first and last byte. -/
def ranges (s : ByteSet) : List (UInt8 × UInt8) := s.toList.foldr extendRuns []

def ofRanges (rs : List (UInt8 × UInt8)) : ByteSet :=
  rs.foldl (fun s r => s ∪ interval r.1 r.2) ∅

end ByteSet
end ByteMatch
