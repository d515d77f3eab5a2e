import ByteMatch.Toml.Value

/-!
# ByteMatch.Toml.Table

Adding statements to a table.

A table may be named by a header once. Dotted keys may add to a table only if dotted keys have made
it, and nothing may be added to a table or an array between brackets.

* `Entries.descend`: changes the table at a path, and makes the tables on the way.
* `Entries.addPair`: adds a key with its value.
* `Document.apply`: a statement of a document.
-/

namespace ByteMatch
namespace Toml

/-- The parts of a dotted key, before the last one and the last one itself. -/
structure Key where
  path : List String
  last : String
deriving DecidableEq, Repr

def Key.parts (k : Key) : List String := k.path ++ [k.last]

namespace Entries

/-- Changes the table at a path. Tables on the way that do not exist are made, and the last element
of an array of tables stands for the array. Dotted keys do not lead through tables with headers. -/
def descend (byDots : Bool) (change : Origin → Entries → Option Entries) :
    List String → Origin → Entries → Option Entries
  | [], origin, entries => change origin entries
  | key :: path, _, entries =>
    match entries.lookup key with
    | none => do
      let made := if byDots then Origin.dotted else Origin.implied
      let inner ← descend byDots change path made []
      pure (entries.set key (.table made inner))
    | some (.table origin inner) => do
      if origin = .literal ∨ (byDots ∧ origin = .header) then none
      let inner ← descend byDots change path origin inner
      pure (entries.set key (.table origin inner))
    | some (.array .header elements) =>
      match elements.getLast? with
      | some (.table origin inner) => do
        let inner ← descend byDots change path origin inner
        pure (entries.set key (.array .header (elements.dropLast ++ [.table origin inner])))
      | _ => none
    | some _ => none

/-- Adds a key that does not exist yet. -/
def insertNew (key : String) (v : Value) (entries : Entries) : Option Entries :=
  if (entries.lookup key).isSome then none else some (entries ++ [(key, v)])

/-- Adds a key with its value to a table. -/
def addPair (k : Key) (v : Value) (origin : Origin) (entries : Entries) : Option Entries :=
  entries.descend true
    (fun origin inner =>
      if (origin == .dotted) == k.path.isEmpty then none else inner.insertNew k.last v)
    k.path origin

/-- The table with some keys between brackets. -/
def ofPairs (pairs : List (Key × Value)) : Option Entries :=
  pairs.foldlM (fun entries (k, v) => entries.addPair k v .literal) []

end Entries

/-- A statement of a document. -/
inductive Statement where
  | pair (k : Key) (v : Value)
  | header (k : Key)
  /-- A header of a further element of an array of tables. -/
  | element (k : Key)

/-- A table that is being built, and the path of the header that keys are added below. -/
structure Document where
  root : Entries
  current : List String

namespace Document

def empty : Document := ⟨[], []⟩

/-- Gives a table its header. -/
def openTable (key : String) (_ : Origin) (entries : Entries) : Option Entries :=
  match entries.lookup key with
  | none => some (entries ++ [(key, .table .header [])])
  | some (.table .implied inner) => some (entries.set key (.table .header inner))
  | some _ => none

/-- Adds an element to an array of tables. -/
def openElement (key : String) (_ : Origin) (entries : Entries) : Option Entries :=
  match entries.lookup key with
  | none => some (entries ++ [(key, .array .header [.table .header []])])
  | some (.array .header elements) =>
    some (entries.set key (.array .header (elements ++ [.table .header []])))
  | some _ => none

def apply (d : Document) : Statement → Option Document
  | .pair k v => do
    let root ← d.root.descend false (fun origin inner => inner.addPair k v origin) d.current .header
    pure { d with root }
  | .header k => do
    let root ← d.root.descend false (openTable k.last) k.path .header
    pure ⟨root, k.parts⟩
  | .element k => do
    let root ← d.root.descend false (openElement k.last) k.path .header
    pure ⟨root, k.parts⟩

def ofStatements (statements : List Statement) : Option Entries :=
  (statements.foldlM apply empty).map (·.root)

end Document
end Toml
end ByteMatch
