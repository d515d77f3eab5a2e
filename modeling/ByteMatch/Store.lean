import ByteMatch.Store.Path

/-!
# ByteMatch.Store

A store of files in a tree of directories.

* `Location`: where a file is. There is one location for each file, but many paths lead to it.
* `Store.locate`: follows a path. Every step leads out of a directory that exists.
* `Store.read`, `Store.write`: whole files.
* `Store.createDirectories`: the directories on the way to a file.
* `StoreError`: why a file cannot be read or written.
-/

namespace ByteMatch

inductive StoreError where
  | notFound
  | isADirectory
  | notADirectory
  | alreadyExists
  /-- A name has the character with number zero in it. -/
  | invalidName
  /-- A name is longer than a directory can hold. -/
  | nameTooLong
deriving DecidableEq, Repr

/-- The names from the root of the store to a file or a directory. The directories above the root
are reached by two dots each, and nothing else is known of them. -/
abbrev Location := List String

/-- The location of the directory above. -/
def Location.above (l : Location) : Location :=
  if l.all (· == "..") then l ++ [".."] else l.dropLast

/-- What there is at a location. -/
inductive StoreEntry where
  | file (bytes : List UInt8)
  | directory
deriving DecidableEq, Repr

/-- Files with their contents, and directories. -/
structure Store where
  files : List (Location × List UInt8)
  directories : List Location

namespace Store

def empty : Store := ⟨[], []⟩

/-- What there is at a location. The root is always a directory. -/
def entry? (s : Store) (l : Location) : Option StoreEntry :=
  match s.files.find? (·.1 = l) with
  | some (_, bytes) => some (.file bytes)
  | none =>
    if l.all (· == "..") || s.directories.contains l then some .directory else none

/-! ## Following paths -/

/-- The number of bytes that a name can have. -/
def nameLimit : Nat := 255

/-- Names can be looked up only if they have no character with number zero. -/
def checkNames (names : List String) : Except StoreError Unit :=
  if names.any (·.contains '\x00') then .error .invalidName else .ok ()

def enter (s : Store) (l : Location) : Except StoreError Unit :=
  match s.entry? l with
  | some .directory => .ok ()
  | some (.file _) => .error .notADirectory
  | none => .error .notFound

/-- The location that a name leads to from a directory. There need be nothing at it. -/
def step (s : Store) (l : Location) (name : String) : Except StoreError Location := do
  s.enter l
  if name = ".." then pure l.above
  else if name.utf8ByteSize > nameLimit then throw .nameTooLong
  else pure (l ++ [name])

/-- The location that names lead to from the root. -/
def follow (s : Store) (names : List String) : Except StoreError Location := do
  checkNames names
  names.foldlM s.step []

/-- The location that a path leads to. If it does not end with a name, there is a directory. -/
def locate (s : Store) (p : Path) : Except StoreError Location := do
  let l ← s.follow p.steps
  if p.ending ≠ .name then s.enter l
  pure l

def isFile (s : Store) (p : Path) : Bool :=
  match s.locate p with
  | .ok l => (s.entry? l).any (· ≠ .directory)
  | .error _ => false

def isDirectory (s : Store) (names : List String) : Bool :=
  match s.follow names with
  | .ok l => s.entry? l == some .directory
  | .error _ => false

/-! ## Files -/

def read (s : Store) (p : Path) : Except StoreError (List UInt8) := do
  match s.entry? (← s.locate p) with
  | some (.file bytes) => pure bytes
  | some .directory => throw .isADirectory
  | none => throw .notFound

/-- The location of a file to be written. A slash at the end is refused once the directory of the
file has been reached, whatever the last name stands for. -/
def target (s : Store) (p : Path) : Except StoreError Location := do
  checkNames p.steps
  if p.ending = .slash then
    s.enter (← s.follow p.directory)
    throw .isADirectory
  else s.locate p

/-- Writes a file, in place of one at the same location. -/
def write (s : Store) (p : Path) (bytes : List UInt8) : Except StoreError Store := do
  let l ← s.target p
  if s.entry? l = some .directory then throw .isADirectory
  pure { s with files := (l, bytes) :: s.files.filter (·.1 ≠ l) }

/-! ## Directories -/

def createDirectory (s : Store) (names : List String) : Except StoreError Store := do
  let l ← s.follow names
  if (s.entry? l).isSome then throw .alreadyExists
  pure { s with directories := l :: s.directories }

def ensureDirectory (s : Store) (names : List String) : Except StoreError Unit × Store :=
  match s.createDirectory names with
  | .ok s => (.ok (), s)
  | .error e => if s.isDirectory names then (.ok (), s) else (.error e, s)

/-- Creates a directory, given by the names from the last one to the first. If one is missing on
the way to it, that one comes first. -/
def createUpward (s : Store) : List String → Except StoreError Unit × Store
  | [] => (.ok (), s)
  | name :: above =>
    let names := (name :: above).reverse
    match s.ensureDirectory names with
    | (.error .notFound, s) =>
      match s.createUpward above with
      | (.ok (), s) => s.ensureDirectory names
      | (.error e, s) => (.error e, s)
    | done => done

/-- Creates the directories that names lead through. Those created before an error stay. -/
def createDirectories (s : Store) (names : List String) : Except StoreError Unit × Store :=
  s.createUpward names.reverse

/-- Writes a file into a directory that exists. -/
def place (s : Store) (p : Path) (bytes : List UInt8) : Except StoreError Unit × Store :=
  match s.write p bytes with
  | .ok s => (.ok (), s)
  | .error e => (.error e, s)

/-- Writes a file, after the directories on the way to it. -/
def writeBelow (s : Store) (p : Path) (bytes : List UInt8) : Except StoreError Unit × Store :=
  match s.createDirectories p.directory with
  | (.ok (), s) => s.place p bytes
  | (.error e, s) => (.error e, s)

/-- Writes a file. Directories on the way to it are created as far as that is possible. -/
def put (s : Store) (p : Path) (bytes : List UInt8) : Except StoreError Unit × Store :=
  (s.createDirectories p.directory).2.place p bytes

end Store
end ByteMatch
