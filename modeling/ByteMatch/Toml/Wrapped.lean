import ByteMatch.Toml.Value

/-!
# ByteMatch.Toml.Wrapped

Tables that stand for another value.

* `Value.unwrapped?`: a value in which such tables have been replaced, at any depth.
-/

namespace ByteMatch
namespace Toml

/-- A table with this key stands for the value of the key. -/
def valueKey : String := "___figment_value_value"

/-- A table cannot have this key, which is kept for the number of the place that a value is
from. -/
def placeKey : String := "___figment_value_id"

/-- What a table with the given entries stands for. -/
def Entries.meaning? (origin : Origin) (entries : Entries) : Option Value :=
  if entries.any (·.1 == placeKey) then none
  else some ((entries.lookup valueKey).getD (.table origin entries))

mutual

/-- The value, with every table in it replaced by what it stands for. There is none if a table
has a key that it cannot have. -/
def Value.unwrapped? : Value → Option Value
  | .array origin elements => do pure (.array origin (← unwrappedElements? elements))
  | .table origin entries => do Entries.meaning? origin (← unwrappedEntries? entries)
  | .string s => some (.string s)
  | .integer n => some (.integer n)
  | .float text => some (.float text)
  | .boolean b => some (.boolean b)
  | .dateTime text => some (.dateTime text)

def unwrappedElements? : List Value → Option (List Value)
  | [] => some []
  | v :: rest => do
    let v ← v.unwrapped?
    pure (v :: (← unwrappedElements? rest))

def unwrappedEntries? : List (String × Value) → Option (List (String × Value))
  | [] => some []
  | (key, v) :: rest => do
    let v ← v.unwrapped?
    pure ((key, v) :: (← unwrappedEntries? rest))

end

end Toml
end ByteMatch
