import PegCompiler.Files.Access

/-!
A file system as a value: the files with their bytes, the directories, and the directory that paths
start from. A place is the list of names from the root down to a file or a directory. Paths are
followed name by name, so that double dots lead to the directory above the one reached so far.
-/

namespace PegCompiler

abbrev FilePlace := List Text

structure FileTree where
  files : List (FilePlace × Bytes) := []
  directories : List FilePlace := []
  working : FilePlace := []
  deriving Repr

namespace FileTree

/-- A directory is there if it was made or if something is below it. -/
def isDirectory (tree : FileTree) (place : FilePlace) : Bool :=
  place.isPrefixOf tree.working || tree.directories.any place.isPrefixOf
    || tree.files.any fun (file, _) => place.isPrefixOf file && place.length < file.length

def file? (tree : FileTree) (place : FilePlace) : Option Bytes := tree.files.lookup place

/-- Goes down from a place; everything but the last name has to be a directory. -/
def follow (tree : FileTree) (place : FilePlace) : List Text → Except FileTrouble FilePlace
  | [] => .ok place
  | name :: rest =>
    if tree.isDirectory place then
      tree.follow (if name = Path.dot ++ Path.dot then place.dropLast else place ++ [name]) rest
    else if (tree.file? place).isSome then .error .notDirectory
    else .error .missing

def resolve (tree : FileTree) (path : Path) : Except FileTrouble FilePlace :=
  if path.isNameable then tree.follow (if path.slashes = 0 then tree.working else []) path.names
  else .error .unnameable

def read (tree : FileTree) (path : Path) : Except FileTrouble Bytes := do
  let place ← tree.resolve path
  if tree.isDirectory place then throw .directory
  match tree.file? place with
  | some bytes => return bytes
  | none => throw .missing

def makeDirectory (tree : FileTree) (path : Path) : Except FileTrouble FileTree := do
  let place ← tree.resolve path
  if tree.isDirectory place || (tree.file? place).isSome then throw .present
  return { tree with directories := tree.directories ++ [place] }

/-- The files with the bytes of one replaced, or with one more file at the end. -/
def put (place : FilePlace) (bytes : Bytes) :
    List (FilePlace × Bytes) → List (FilePlace × Bytes)
  | [] => [(place, bytes)]
  | (file, old) :: rest =>
    if file = place then (file, bytes) :: rest else (file, old) :: put place bytes rest

theorem lookup_put_self (place : FilePlace) (bytes : Bytes) (files : List (FilePlace × Bytes)) :
    (put place bytes files).lookup place = some bytes := by
  induction files with
  | nil => simp [put]
  | cons entry rest ih =>
    obtain ⟨file, old⟩ := entry
    by_cases h : file = place
    · simp [put, h]
    · have hb : (place == file) = false := beq_eq_false_iff_ne.2 (Ne.symm h)
      simp only [put, h, if_false, List.lookup_cons, hb, ih]

def write (tree : FileTree) (path : Path) (bytes : Bytes) : Except FileTrouble FileTree := do
  let place ← tree.resolve path
  if tree.isDirectory place then throw .directory
  return { tree with files := put place bytes tree.files }

/-- A change of the tree as a step; one that fails leaves the tree alone. -/
def step (change : FileTree → Except FileTrouble FileTree) :
    StateM FileTree (Except FileTrouble Unit) := fun tree =>
  match change tree with
  | .ok tree => (.ok (), tree)
  | .error trouble => (.error trouble, tree)

instance : Files (StateM FileTree) where
  read path := return (← get).read path
  isDirectory path := do
    let tree ← get
    match tree.resolve path with
    | .ok place => return tree.isDirectory place
    | .error _ => return false
  makeDirectory path := step (·.makeDirectory path)
  write path bytes := step (·.write path bytes)

end FileTree

end PegCompiler
