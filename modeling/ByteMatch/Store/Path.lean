/-!
# ByteMatch.Store.Path

Paths, the ways to files.

* `Path`: the names between the slashes, as they are written.
* `Path.steps`: the names that lead on. Empty names and dots do not.
* `Path.join`: a path that goes on where another one ends.
* `Path.trimmed`: a path without the names at its ends that do not lead on.
-/

namespace ByteMatch

/-- A path, as the names between its slashes. Different paths may lead to the same file. -/
structure Path where
  names : List String
deriving DecidableEq, Repr

/-- How a path ends. -/
inductive PathEnd where
  /-- With the name of a file or a directory. -/
  | name
  /-- With a slash, so that the last name is that of a directory. -/
  | slash
  /-- With a dot, which stands for the directory that has been reached. -/
  | dot
deriving DecidableEq, Repr

namespace Path

def ofString (s : String) : Path := ⟨s.splitOn "/"⟩

/-- Writes a path, with a slash between names. -/
def text (p : Path) : String := String.intercalate "/" p.names

/-- Whether a name leads nowhere. -/
def isIdle (name : String) : Bool := name.isEmpty || name == "."

/-- The names that lead on. Two dots lead to the directory above. -/
def steps (p : Path) : List String := p.names.filter (!isIdle ·)

def directory (p : Path) : List String := p.steps.dropLast

def isRooted (p : Path) : Bool := p.names.head? == some "" && p.names.length ≠ 1

/-- The path that starts where `base` ends. A slash at the end of `base` serves as the one between
the two. A path that starts with a slash does not need `base`. -/
def join (base p : Path) : Path :=
  if p.isRooted then p
  else if base.names.getLast? = some "" then ⟨base.names.dropLast ++ p.names⟩
  else ⟨base.names ++ p.names⟩

/-- The path without idle names at its ends. Those between steps stay as they are written. -/
def trimmed (p : Path) : Path :=
  if p.isRooted then p
  else ⟨((p.names.dropWhile isIdle).reverse.dropWhile isIdle).reverse⟩

/-- How the path ends. A dot counts also if slashes follow it. -/
def ending (p : Path) : PathEnd :=
  if (p.names.reverse.dropWhile String.isEmpty).head? = some "." then .dot
  else if p.names.getLast? = some "" then .slash
  else .name

end Path
end ByteMatch
