/-!
# ByteMatch.Toml.Value

The values of TOML, a text format for configurations.

* `Value`: strings, numbers, dates, arrays and tables.
* `Value.table`: a table also tells how it came to be, as this decides whether a later line may
  add to it.
-/

namespace ByteMatch
namespace Toml

/-- How a table or an array came to be. -/
inductive Origin where
  /-- It stands between brackets, and nothing can be added. -/
  | literal
  /-- It has a header of its own. -/
  | header
  /-- It is named by a longer header. -/
  | implied
  /-- It is named by a dotted key. -/
  | dotted
deriving DecidableEq, Repr

inductive Value where
  | string (s : String)
  | integer (n : Int)
  /-- A number with a fraction or an exponent, as it is written. -/
  | float (text : String)
  | boolean (b : Bool)
  /-- A date, a time or both, as it is written. -/
  | dateTime (text : String)
  | array (origin : Origin) (elements : List Value)
  | table (origin : Origin) (entries : List (String × Value))
deriving Repr, Inhabited

/-- Keys with their values, in the order in which they were added. -/
abbrev Entries := List (String × Value)

namespace Entries

/-- The entries with another value for a key. -/
def set (entries : Entries) (key : String) (v : Value) : Entries :=
  if entries.any (·.1 == key) then entries.map fun e => if e.1 == key then (key, v) else e
  else entries ++ [(key, v)]

end Entries
end Toml
end ByteMatch
