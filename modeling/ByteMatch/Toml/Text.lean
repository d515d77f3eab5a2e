import ByteMatch.Toml.Reader

/-!
# ByteMatch.Toml.Text

Strings: with escapes between quotes or as they are between apostrophes, and over one line or
several.

Up to two quotes in a row may stand in a string over several lines, also before its end.

* `Reader.string`: a string.
-/

namespace ByteMatch
namespace Toml
namespace Reader

/-! ## Escapes -/

def hexDigit : Reader Nat := do
  let c ← satisfy fun c => c.isDigit || ('a' ≤ c && c ≤ 'f') || ('A' ≤ c && c ≤ 'F')
  pure
    (if c.isDigit then c.toNat - '0'.toNat
    else if 'a' ≤ c then c.toNat - 'a'.toNat + 10
    else c.toNat - 'A'.toNat + 10)

/-- A number with `count` digits in base sixteen. -/
def hexNumber : Nat → Nat → Reader Nat
  | 0, value => pure value
  | count + 1, value => do hexNumber count (16 * value + (← hexDigit))

/-- A character that is given by its code point with `count` digits. -/
def codePoint (count : Nat) : Reader Char := do
  let n ← hexNumber count 0
  if n.isValidChar then pure (Char.ofNat n) else failure

/-- What stands for a character after a backslash. -/
def escaped : Reader Char := do
  match ← satisfy fun _ => true with
  | 'b' => pure '\x08'
  | 't' => pure '\t'
  | 'n' => pure '\n'
  | 'f' => pure '\x0c'
  | 'r' => pure '\r'
  | '"' => pure '"'
  | '\\' => pure '\\'
  | 'u' => codePoint 4
  | 'U' => codePoint 8
  | _ => failure

/-! ## One line -/

/-- A plain character other than two. -/
def plainExcept (a b : Char) : Reader Char := satisfy fun c => isPlain c && c != a && c != b

/-- A character of a string with escapes. -/
def basicChar : Reader Char := plainExcept '"' '\\' <|> (char '\\' *> escaped)

/-- A string with escapes in one line. -/
def basicString : Reader String := do
  char '"'
  let cs ← many basicChar
  char '"'
  pure (String.ofList cs)

/-- A string without escapes in one line. -/
def literalString : Reader String := do
  char '\''
  let cs ← many (plainExcept '\'' '\'')
  char '\''
  pure (String.ofList cs)

/-! ## Several lines -/

/-- A backslash at the end of a line. It stands for nothing, like all blanks and ends of lines
after it. -/
def continuation : Reader (List Char) := do
  char '\\'
  blanks
  newline
  let _ ← many (newline <|> (satisfy fun c => c == ' ' || c == '\t') *> pure ())
  pure []

def lineBreak : Reader (List Char) := do
  newline
  pure ['\n']

/-- One or two delimiters that are not followed by another one. -/
def looseDelimiters (d : Char) : Reader (List Char) := fun cs =>
  match cs with
  | a :: b :: c :: rest =>
    if a = d ∧ b ≠ d then some ([d], b :: c :: rest)
    else if a = d ∧ b = d ∧ c ≠ d then some ([d, d], c :: rest)
    else none
  | _ => none

/-- Delimiters before the three that end a string. -/
def lastDelimiters (d : Char) : Reader (List Char) := do
  let closing := chars [d, d, d]
  (do
    chars [d, d]
    closing
    pure [d, d]) <|>
  (do
    char d
    closing
    pure [d]) <|>
  (do
    closing
    pure [])

/-- A string over several lines, given how its other parts are read. An end of a line right after
the start does not count. -/
def multiline (d : Char) (part : Reader (List Char)) : Reader String := do
  chars [d, d, d]
  let _ ← optional newline
  let parts ← many (part <|> lineBreak <|> looseDelimiters d)
  let last ← lastDelimiters d
  pure (String.ofList (parts.flatten ++ last))

def multilineBasic : Reader String :=
  multiline '"' (continuation <|> (do return [← basicChar]))

def multilineLiteral : Reader String :=
  multiline '\'' (do return [← plainExcept '\'' '\''])

def string : Reader String :=
  multilineBasic <|> basicString <|> multilineLiteral <|> literalString

end Reader
end Toml
end ByteMatch
