import PegCompiler.Files.Fault

/-!
The operations on files that a command needs, in whatever `m` carries them out, and the making of a
directory with all directories above it in terms of them.
-/

namespace PegCompiler

abbrev Bytes := List Nat

/-- A place where files are. Each operation either does what it is asked for or says why not. -/
class Files (m : Type → Type) where
  read : Path → m (Except FileTrouble Bytes)
  isDirectory : Path → m Bool
  makeDirectory : Path → m (Except FileTrouble Unit)
  /-- Gives a file its bytes; the file is made if it is not there, its directory is not. -/
  write : Path → Bytes → m (Except FileTrouble Unit)

namespace Files

variable {m : Type → Type} [Monad m] [Files m]

/-- Makes a directory whose parent is there; one that is there already is as good. -/
def ensure (path : Path) (answer : Except FileTrouble Unit) : m (Except FileFault Unit) := do
  match answer with
  | .ok () => return .ok ()
  | .error trouble =>
    if trouble ≠ .missing ∧ (← isDirectory path) then return .ok ()
    return .error ⟨trouble, path⟩

/-- Makes the directory whose names, last one first, are given, and those above it that are
missing. -/
def makeAll (slashes : Nat) : (reversed : List Text) → m (Except FileFault Unit)
  | [] => do
    let path : Path := ⟨slashes, []⟩
    ensure path (← makeDirectory path)
  | name :: above => do
    let path : Path := ⟨slashes, (name :: above).reverse⟩
    match ← makeDirectory path with
    | .error .missing =>
      match ← makeAll slashes above with
      | .error fault => return .error fault
      | .ok () => ensure path (← makeDirectory path)
    | answer => ensure path answer

def makeDirectories (path : Path) : m (Except FileFault Unit) :=
  makeAll path.slashes path.names.reverse

end Files

end PegCompiler
