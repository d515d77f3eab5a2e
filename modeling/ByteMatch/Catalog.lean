import ByteMatch.CharSet.Build
import ByteMatch.CharSet.FileFormat

/-!
# ByteMatch.Catalog

Character sets that have been loaded from files, and the set of all characters of each encoding.

* `Catalog.load`: reads each file only once.
* `Catalog.any`: the set of all characters, from a file of the search path if there is one.
* `Catalog.unite`: the union of sets from files.
* `CharSet.inverse`: the characters of the encoding that are not in a set.
-/

namespace ByteMatch

inductive CatalogError where
  | load (e : FileError)
  | combine (e : CharSetError)
deriving DecidableEq, Repr

/-- The sets loaded so far, and where to look for files. -/
structure Catalog where
  searchPath : Option Path
  /-- Each set with the steps to its file. -/
  loaded : List (List String × CharSet)
  anySets : List (Encoding × CharSet)

namespace Catalog

def empty (searchPath : Option Path) : Catalog := ⟨searchPath, [], []⟩

/-- The path of a file of the search path. There is one directory for each encoding. -/
def pathOf (r : Catalog) (e : Encoding) (name : Path) : Option Path :=
  r.searchPath.map fun base => (base.join (.ofString e.name)).join name

/-- The set in a file, which is read unless it has been read before. -/
def load (r : Catalog) (s : Store) (path : Path) : Except FileError CharSet × Catalog :=
  match r.loaded.find? (·.1 = path.steps) with
  | some (_, c) => (.ok c, r)
  | none =>
    match CharSet.load s path with
    | .ok c => (.ok c, { r with loaded := (path.steps, c) :: r.loaded })
    | .error e => (.error e, r)

/-- Adds the sets of files to a set. Files that do not exist are left out. -/
def addFiles (s : Store) : List Path → CharSet → Catalog →
    Except CatalogError CharSet × Catalog
  | [], total, r => (.ok total, r)
  | path :: rest, total, r =>
    match r.load s path with
    | (.ok c, r) =>
      match total.union c with
      | .ok total => addFiles s rest total r
      | .error e => (.error (.combine e), r)
    | (.error (.store .notFound), r) => addFiles s rest total r
    | (.error e, r) => (.error (.load e), r)

def unite (r : Catalog) (s : Store) (e : Encoding) (paths : List Path) :
    Except CatalogError CharSet × Catalog :=
  addFiles s paths (CharSet.empty e) r

/-- The set of all characters from the search path, unless the file is missing, damaged, empty or
made for another encoding. -/
def prebuiltAny (r : Catalog) (s : Store) (e : Encoding) : Option CharSet × Catalog :=
  match r.pathOf e (.ofString "any") with
  | none => (none, r)
  | some path =>
    if s.isFile path then
      match r.load s path with
      | (.ok c, r) => (if c.encoding = e ∧ !c.isEmpty then some c else none, r)
      | (.error _, r) => (none, r)
    else (none, r)

def any (r : Catalog) (s : Store) (e : Encoding) : CharSet × Catalog :=
  match r.anySets.find? (·.1 = e) with
  | some (_, c) => (c, r)
  | none =>
    let (prebuilt, r) := r.prebuiltAny s e
    let c := prebuilt.getD (CharSet.ofRange e 0 Encoding.lastCodePoint)
    (c, { r with anySets := (e, c) :: r.anySets })

end Catalog

namespace CharSet

/-- The characters of the encoding that are not in the set. -/
def inverse (c : CharSet) (r : Catalog) (s : Store) : Except CharSetError CharSet × Catalog :=
  let (whole, r) := r.any s c.encoding
  (whole.difference c, r)

end CharSet
end ByteMatch
