import PegCompiler.Text.Lines

/-!
Paths to files: names one below the other, from the root or from the working directory. Separators
in a row, single dots and a separator at the end say nothing and are dropped. Double dots stay,
because only the file system knows what they lead to.
-/

namespace PegCompiler

structure Path where
  /-- The separators in front: none for a path from the working directory, else one or two. -/
  slashes : Nat
  names : List Text
  deriving DecidableEq, Repr

namespace Path

def separator : CodePoint := '/'

def dot : Text := "."

/-- Two separators in front are kept, more than two are one. -/
def ofText (t : Text) : Path :=
  let slashes := (t.takeWhile (· = separator)).length
  let names := (Text.splitAt separator t).filter fun name : Text => name ≠ [] ∧ name ≠ dot
  ⟨if slashes ≤ 2 then slashes else 1, names⟩

def shown (path : Path) : Text :=
  if path.slashes = 0 ∧ path.names = [] then "."
  else List.replicate path.slashes separator ++ Text.join [separator] path.names

def parent (path : Path) : Path := { path with names := path.names.dropLast }

/-- No file has a name with a null character in it. -/
def isNameable (path : Path) : Bool := path.names.all (!·.contains (CodePoint.scalar '\x00'))

end Path

end PegCompiler
