import ByteMatch.Toml.Number
import ByteMatch.Toml.Table

/-!
# ByteMatch.Toml.Document

Documents: lines with keys and values, and headers of tables.

* `Reader.value`: a value. Arrays and tables between brackets may be nested to some depth.
* `Toml.parse?`: the table that a text describes.
-/

namespace ByteMatch
namespace Toml

/-- The number of parts of a dotted key, and of arrays and tables around a value, stays below this
limit. -/
def nestingLimit : Nat := 80

namespace Reader

/-! ## Keys -/

def keyPart : Reader String :=
  basicString <|> literalString <|>
  (do
    let cs ← many1 (satisfy fun c => c.isAlphanum || c == '_' || c == '-')
    pure (String.ofList cs))

/-- A key with blanks around its parts. -/
def key : Reader Key := do
  let parts ← sepBy1 (blanks *> keyPart <* blanks) (char '.')
  match parts.getLast? with
  | some last =>
    if parts.length < nestingLimit then pure ⟨parts.dropLast, last⟩ else failure
  | none => failure

def pair (value : Reader Value) : Reader (Key × Value) := do
  let k ← key
  char '='
  blanks
  let v ← value
  pure (k, v)

/-! ## Values -/

/-- A value that does not consist of others. -/
def scalar : Reader Value :=
  (do return .string (← string)) <|>
  (do return .dateTime (← dateTime)) <|>
  (do return .float (← float)) <|>
  (do return .integer (← integer)) <|>
  (do
    text "true"
    pure (.boolean true)) <|>
  (do
    text "false"
    pure (.boolean false))

/-- An array, which may have a comma after its last element. -/
def array (value : Reader Value) : Reader Value := do
  char '['
  let elements ← sepBy (gap *> value <* gap) (char ',')
  if !elements.isEmpty then
    let _ ← optional (char ',')
  gap
  char ']'
  pure (.array .literal elements)

/-- A table between brackets. -/
def inlineTable (value : Reader Value) : Reader Value := do
  char '{'
  blanks
  let pairs ← sepBy (pair value <* blanks) (char ',')
  char '}'
  match Entries.ofPairs pairs with
  | some entries => pure (.table .literal entries)
  | none => failure

/-- A value with at most `depth` arrays and tables around its parts. -/
def value : Nat → Reader Value
  | 0 => scalar
  | depth + 1 => scalar <|> array (value depth) <|> inlineTable (value depth)

/-! ## Statements -/

def header : Reader Statement :=
  (do
    text "[["
    let k ← key
    text "]]"
    pure (.element k)) <|>
  (do
    char '['
    let k ← key
    char ']'
    pure (.header k))

/-- A line. Comments and empty lines are no statements. -/
def line : Reader (Option Statement) :=
  (do
    comment
    lineEnd
    pure none) <|>
  (do
    newline
    pure none) <|>
  (do
    let h ← header
    lineRest
    pure (some h)) <|>
  (do
    let (k, v) ← pair (value (nestingLimit - 1))
    lineRest
    pure (some (.pair k v)))

/-- The statements of a text, which may start with a byte order mark. -/
def statements : Reader (List Statement) := do
  let _ ← optional (char '\ufeff')
  blanks
  let lines ← many (line <* blanks)
  atEnd
  pure (lines.filterMap id)

end Reader

def parse? (s : String) : Option Entries := do
  let (statements, _) ← Reader.statements s.toList
  Document.ofStatements statements

end Toml
end ByteMatch
