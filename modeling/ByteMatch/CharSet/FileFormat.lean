import ByteMatch.ByteSet.Serial
import ByteMatch.CharSet
import ByteMatch.CharSet.Checksum
import ByteMatch.Store
import ByteMatch.Text.Radix

/-!
# ByteMatch.CharSet.FileFormat

The binary format of class files. All numbers have two bytes, the least significant first.

```
header       magic, length of the name, states, transition records, leaf records
name         the name of the encoding
transitions  a record for each state with transitions: state, count, pairs of destination and label
leaves       a record for each state with a leaf: state, leaf
checksum     of all that precedes
```

Labels and leaves are in the serial form of byte sets.

* `CharSet.encodeFile`: the bytes of a set, in the form of the smallest graph. A set that is too
  large is refused, and so is one in which a leaf has bytes in common with a transition.
* `CharSet.decodeFile`: reading the bytes of a file. The checksum is verified first.
* `CharSet.save`, `CharSet.load`: the same with files of a store.
-/

namespace ByteMatch

/-- What is wrong with the contents of a class file. -/
inductive Flaw where
  | nameNotUtf8
  | invalidByteSet
  | trailingBytes
  | stateOutOfRange
deriving DecidableEq, Repr

/-- Why a class file cannot be loaded. -/
inductive FileError where
  | checksumMismatch (expected found : Nat)
  | unsupportedVersion (magic : Nat)
  | unknownEncoding (name : String)
  | truncated
  | corrupt (flaw : Flaw)
  | store (e : StoreError)
deriving DecidableEq, Repr

/-- Why a set cannot be stored in a file. -/
inductive Unwritable where
  | tooManyStates (count : Nat)
  | nonDeterministic (state : Nat)
deriving DecidableEq, Repr

namespace Flaw

def message : Flaw → String
  | nameNotUtf8 => "encoding name is not UTF-8"
  | invalidByteSet => "invalid byte set"
  | trailingBytes => "trailing bytes after last record"
  | stateOutOfRange => "state index out of range"

end Flaw

def unknownEncodingMessage (name : String) : String := s!"unknown encoding `{name}`"

namespace FileError

/-- The text of an error. A failure of the store has none. -/
def message : FileError → String
  | checksumMismatch expected found =>
    "checksum mismatch (expected " ++ Text.hexLiteral 4 expected ++ ", found " ++
      Text.hexLiteral 4 found ++ ")"
  | unsupportedVersion magic => "unsupported file format version " ++ Text.hexLiteral 4 magic
  | unknownEncoding name => unknownEncodingMessage name
  | truncated => "truncated class file"
  | corrupt flaw => "corrupt class file: " ++ flaw.message
  | store _ => ""

end FileError

namespace Unwritable

def message : Unwritable → String
  | tooManyStates count => s!"too many states ({count})"
  | nonDeterministic state => s!"state {state} is non-deterministic"

end Unwritable

namespace ClassFile

/-- The number at the start of a class file, which names the version of the format. -/
def magic : Nat := 0x7EB3

/-- The highest number of states in a file. -/
def stateLimit : Nat := 65521

/-! ## Writing -/

/-- The two bytes of a number. -/
def numberBytes (n : Nat) : List UInt8 := [UInt8.ofNat (n % 256), UInt8.ofNat (n / 256)]

def codeBytes (code : ByteSet) : List UInt8 := code.serial.1 :: code.serial.2

/-- The record of the transitions of a state, if it has any. -/
def transitionEntry (q : Nat) (s : State) : List UInt8 :=
  if s.transitions.isEmpty then []
  else
    numberBytes q ++ numberBytes s.transitions.size ++
      s.transitions.entries.flatMap fun (code, dest) => numberBytes dest ++ codeBytes code

def leafEntry (q : Nat) (leaf : ByteSet) : List UInt8 := numberBytes q ++ codeBytes leaf

/-- All that precedes the checksum. -/
def body (e : Encoding) (states : Automaton) : List UInt8 :=
  let name := e.name.toUTF8.toList
  let leaves := states.leaves
  numberBytes magic ++ numberBytes name.length ++ numberBytes states.size ++
    numberBytes (states.countP (!·.transitions.isEmpty)) ++ numberBytes leaves.length ++ name ++
    (states.toList.zipIdx.flatMap fun (s, q) => transitionEntry q s) ++
    leaves.flatMap fun (q, leaf) => leafEntry q leaf

/-- A text of bytes, followed by its checksum. -/
def sealed (bytes : List UInt8) : List UInt8 := bytes ++ numberBytes (Checksum.checksum bytes)

/-! ## Reading -/

/-- A reader takes bytes from the front of its input. -/
abbrev Reader := StateT (List UInt8) (Except FileError)

def readByte : Reader UInt8 := fun
  | b :: rest => .ok (b, rest)
  | [] => .error .truncated

def readBytes (n : Nat) : Reader (List UInt8) := fun input =>
  if n ≤ input.length then .ok (input.splitAt n) else .error .truncated

/-- Takes a number of two bytes. -/
def readNumber : Reader Nat := do
  let low ← readByte
  let high ← readByte
  pure (low.toNat + 256 * high.toNat)

/-- Takes a byte set in serial form. -/
def readCode : Reader ByteSet := do
  let indicator ← readByte
  let bytes ← readBytes (ByteSet.serialLength indicator)
  match ByteSet.ofSerial? indicator bytes with
  | some code => pure code
  | none => throw (.corrupt .invalidByteSet)

/-- Takes the same kind of item a number of times, after items that have been taken before. -/
def readOnto {α : Type} (item : Reader α) : Nat → List α → Reader (List α)
  | 0, taken => pure taken.reverse
  | n + 1, taken => do
    let next ← item
    readOnto item n (next :: taken)

def readMany {α : Type} (item : Reader α) (n : Nat) : Reader (List α) := readOnto item n []

def readTransition : Reader (Nat × ByteSet) := do
  let dest ← readNumber
  let code ← readCode
  pure (dest, code)

def readTransitionRecord : Reader (Nat × List (Nat × ByteSet)) := do
  let q ← readNumber
  let count ← readNumber
  let transitions ← readMany readTransition count
  pure (q, transitions)

def readLeafRecord : Reader (Nat × ByteSet) := do
  let q ← readNumber
  let leaf ← readCode
  pure (q, leaf)

/-- What the records of a file say. -/
structure Contents where
  encoding : Encoding
  stateCount : Nat
  transitions : List (Nat × List (Nat × ByteSet))
  leaves : List (Nat × ByteSet)

def readEncoding (length : Nat) : Reader Encoding := do
  let name ← readBytes length
  match String.fromUTF8? ⟨name.toArray⟩ with
  | none => throw (.corrupt .nameNotUtf8)
  | some name =>
    match Encoding.ofName? name with
    | some e => pure e
    | none => throw (.unknownEncoding name)

def readContents : Reader Contents := do
  let version ← readNumber
  let nameLength ← readNumber
  let stateCount ← readNumber
  let transitionCount ← readNumber
  let leafCount ← readNumber
  if version ≠ magic then throw (.unsupportedVersion version)
  let encoding ← readEncoding nameLength
  let transitions ← readMany readTransitionRecord transitionCount
  let leaves ← readMany readLeafRecord leafCount
  pure { encoding, stateCount, transitions, leaves }

/-- Changes a state, which has to exist. -/
def change (states : Automaton) (q : Nat) (f : State → State) : Except FileError Automaton :=
  if q < states.size then .ok (states.modify q f) else .error (.corrupt .stateOutOfRange)

def enterTransitions (count : Nat) (states : Automaton) (record : Nat × List (Nat × ByteSet)) :
    Except FileError Automaton := do
  let states ← change states record.1 id
  record.2.foldlM (fun states (dest, code) =>
    if dest < count then change states record.1 (·.addTransition code dest)
    else throw (.corrupt .stateOutOfRange)) states

def enterLeaf (states : Automaton) (record : Nat × ByteSet) : Except FileError Automaton :=
  change states record.1 fun s => { s with leaf := some record.2 }

/-- The automaton that the records describe. Of two records for the same state and label, or for
the same leaf, the later one counts. -/
def Contents.automaton (c : Contents) : Except FileError Automaton := do
  let holes : Automaton := Array.replicate c.stateCount State.hole
  let states ← c.transitions.foldlM (enterTransitions c.stateCount) holes
  c.leaves.foldlM enterLeaf states

end ClassFile

namespace CharSet

/-- A state of an automaton in which a byte of the leaf also leads to another state. -/
def ambiguousState? (states : Automaton) : Option Nat :=
  states.findIdx? fun s =>
    s.leaf.any fun leaf => s.transitions.entries.any (·.1.intersects leaf)

def encodeFile (c : CharSet) : Except Unwritable (List UInt8) :=
  -- a graph may come from a file and need not be the smallest one
  let g := c.toTree.toGraph
  if ClassFile.stateLimit < g.size then .error (.tooManyStates g.size)
  else
    match ambiguousState? g.states with
    | some q => .error (.nonDeterministic q)
    | none => .ok (ClassFile.sealed (ClassFile.body c.encoding g.states))

def decodeFile (data : List UInt8) : Except FileError CharSet := do
  if data.length < 2 then throw .truncated
  -- the checksum comes first, and nothing else is read from a damaged file
  let (body, tail) := data.splitAt (data.length - 2)
  let (found, _) ← ClassFile.readNumber tail
  let expected := Checksum.checksum body
  if found ≠ expected then throw (.checksumMismatch expected found)
  let (contents, rest) ← ClassFile.readContents body
  if !rest.isEmpty then throw (.corrupt .trailingBytes)
  let states ← contents.automaton
  pure { encoding := contents.encoding, states, form := .graph }

def load (s : Store) (path : Path) : Except FileError CharSet := do
  let data ← (s.read path).mapError .store
  decodeFile data

/-- Writes a class file into a store, with the directories on the way to it. The answer is whether
the set could be stored. -/
def save (c : CharSet) (s : Store) (path : Path) : Except StoreError Bool × Store :=
  match c.encodeFile with
  | .error _ => (.ok false, s)
  | .ok data =>
    match s.writeBelow path data with
    | (.ok (), s) => (.ok true, s)
    | (.error e, s) => (.error e, s)

end CharSet
end ByteMatch
