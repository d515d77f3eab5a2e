import ByteMatch.CharSet.Algebra

/-!
# ByteMatch.CharSet.Build

Character sets from code points, characters and bytes.

* `CharSet.ofRange`: the code points of a range that the encoding has.
* `CharSet.ofString`: a single character, which may be a sequence of code points.
* `CharSet.ofCased`: a character with those that differ from it by case only.
* `CharSet.addByteRange`: bytes as characters of their own.
-/

namespace ByteMatch
namespace Automaton

/-- Adds a string of bytes below state `q`, with new states where the path is missing. -/
def insertBelow : Automaton → Nat → List UInt8 → Automaton
  | a, _, [] => a
  | a, q, [b] => a.modify q (·.addLeaf (.singleton b))
  | a, q, b :: rest =>
    let code := ByteSet.singleton b
    match (a.state q).transitions.get? code with
    | some next => insertBelow a next rest
    | none =>
      let next := a.size
      insertBelow ((a.push State.hole).modify q (·.addTransition code next)) next rest

/-- The states of a single string of bytes, the first of which has number `q`. -/
def chain : Nat → List UInt8 → List State
  | _, [] => []
  | _, [b] => [⟨∅, some (.singleton b)⟩]
  | q, b :: rest =>
    ⟨(∅ : Transitions).insert (.singleton b) (q + 1), none⟩ :: chain (q + 1) rest

/-- Adds the bytes of `count` code points from `first` on, those that the encoding has. -/
def insertCodePoints (e : Encoding) : Nat → Nat → Automaton → Automaton
  | 0, _, a => a
  | count + 1, first, a =>
    let a := match e.encode first with
      | some bytes => insertBelow a 0 bytes
      | none => a
    insertCodePoints e count (first + 1) a

end Automaton

/-- For each character with other cases, the next character with the same letter. Most cycles
have two members, some have three. Of two entries with the same key the later one counts. -/
structure CaseFolding where
  entries : List (Char × Char)

namespace CaseFolding

def next? (f : CaseFolding) (c : Char) : Option Char :=
  (f.entries.reverse.find? (·.1 = c)).map (·.2)

/-- Follows the table from `c` until it ends or comes back to a character seen before. -/
def follow (f : CaseFolding) : Nat → Char → List Char → List Char
  | 0, _, _ => []
  | steps + 1, c, seen =>
    match f.next? c with
    | none => []
    | some d => if d ∈ seen then [] else d :: follow f steps d (d :: seen)

/-- The other characters reached from `c`, in the order of the table. Each is the value of an
entry, so there are no more steps than entries. -/
def others (f : CaseFolding) (c : Char) : List Char := f.follow f.entries.length c [c]

end CaseFolding

namespace CharSet

/-- The set of one character with the given bytes. No bytes make no character. -/
def ofEncoded (e : Encoding) (bytes : Option (List UInt8)) : CharSet :=
  { empty e with states := (Automaton.chain 0 (bytes.getD [])).toArray }

/-- The set of the code points from `first` to `last` that the encoding has. -/
def ofRange (e : Encoding) (first last : Nat) : CharSet :=
  if first = last then ofEncoded e (e.encode first)
  else
    let count := min last Encoding.lastCodePoint + 1 - first
    let states := Automaton.insertCodePoints e count first #[State.hole]
    if states.size = 1 ∧ (Automaton.state states 0).isHole then empty e
    else toGraph ⟨e, states, .tree⟩

/-- The set of one character, the whole text. It is empty if the encoding lacks one of the code
points. -/
def ofString (e : Encoding) (s : String) : CharSet := ofEncoded e (e.encodeString s)

/-- The set of one character and, if case does not matter, of the other cases of it. A text of
several code points has no other cases. -/
def ofCased (e : Encoding) (s : String) (f : CaseFolding) (ignoreCase : Bool) :
    Except CharSetError CharSet :=
  match ignoreCase, s.toList with
  | true, [c] =>
    (f.others c).foldlM (fun set d => set.union (ofString e (String.singleton d))) (ofString e s)
  | _, _ => .ok (ofString e s)

/-- Adds the bytes between two ends as characters, whatever the encoding. -/
def addByteRange (c : CharSet) (first last : Nat) : Except CharSetError CharSet :=
  if first < 256 ∧ last < 256 then
    let states := if c.isEmpty then #[State.hole] else c.states
    let bytes := ByteSet.interval (UInt8.ofNat first) (UInt8.ofNat last)
    .ok { c with states := states.modify 0 (·.addLeaf bytes) }
  else .error (.invalidByteRange first last)

end CharSet
end ByteMatch
