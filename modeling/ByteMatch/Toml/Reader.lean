/-!
# ByteMatch.Toml.Reader

Reading text from the left. A reader answers a value and the characters that are left, or it fails
and another one may be tried.

* `Reader.many`: as often as possible. A reader that consumes nothing runs at most once for each
  character that is left.
-/

namespace ByteMatch
namespace Toml

/-- Reads a value from the beginning of some characters. -/
abbrev Reader := StateT (List Char) Option

namespace Reader

def satisfy (p : Char → Bool) : Reader Char
  | c :: rest => if p c then some (c, rest) else none
  | [] => none

def char (c : Char) : Reader Unit := do
  let _ ← satisfy (· == c)

def chars : List Char → Reader Unit
  | [] => pure ()
  | c :: rest => do
    char c
    chars rest

def text (s : String) : Reader Unit := chars s.toList

def atEnd : Reader Unit
  | [] => some ((), [])
  | _ => none

/-- Reads as often as possible, at most `count` times. -/
def manyTo (r : Reader α) : Nat → List Char → List α × List Char
  | 0, cs => ([], cs)
  | count + 1, cs =>
    match r cs with
    | some (a, rest) =>
      let (more, left) := manyTo r count rest
      (a :: more, left)
    | none => ([], cs)

def many (r : Reader α) : Reader (List α) := fun cs => some (r.manyTo cs.length cs)

/-- Reads as often as possible, and at least once. -/
def many1 (r : Reader α) : Reader (List α) := do
  let first ← r
  let more ← many r
  pure (first :: more)

/-- Reads a list with separators, at least one element. -/
def sepBy1 (r : Reader α) (separator : Reader Unit) : Reader (List α) := do
  let first ← r
  let more ← many (separator *> r)
  pure (first :: more)

def sepBy (r : Reader α) (separator : Reader Unit) : Reader (List α) :=
  sepBy1 r separator <|> pure []

/-- Also answers the characters that are consumed. -/
def withText (r : Reader α) : Reader (α × String) := fun cs =>
  (r cs).map fun (a, rest) => ((a, String.ofList (cs.take (cs.length - rest.length))), rest)

/-! ## Blanks and lines -/

def blanks : Reader Unit := do
  let _ ← many (satisfy fun c => c == ' ' || c == '\t')

def newline : Reader Unit := char '\n' <|> text "\r\n"

/-- Whether a character may stand in a text that is not structured further: no control character
but the tab. -/
def isPlain (c : Char) : Bool := c == '\t' || (' ' ≤ c && c != '\x7f')

def comment : Reader Unit := do
  char '#'
  let _ ← many (satisfy isPlain)

/-- The end of a line or of the text. -/
def lineEnd : Reader Unit := newline <|> atEnd

/-- What may stand after a statement in its line. -/
def lineRest : Reader Unit := do
  blanks
  let _ ← optional comment
  lineEnd

/-- Blanks, comments and ends of lines. -/
def gap : Reader Unit := do
  blanks
  let _ ← many do
    let _ ← optional comment
    newline
    blanks

end Reader
end Toml
end ByteMatch
