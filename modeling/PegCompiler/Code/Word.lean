import PegCompiler.Value.Basic

/-!
Words of code. A rule is compiled to a list of words, which are numbers: opcodes, operands and
lengths. One kind of word is not: a bound of a range in a tree built by hand can be a text, and such
a bound goes into the code as it is.
-/

namespace PegCompiler

inductive Word
  | number (n : Int)
  | text (t : Text)
  deriving DecidableEq, Repr

namespace Word

instance : Coe Int Word := ⟨number⟩

def number? : Word → Option Int
  | number n => some n
  | text _ => none

def value : Word → Value
  | number n => .integer n
  | text t => .text t

/-- The form of a word in a listing and in emitted code. -/
def shown (word : Word) : Text := word.value.shown

/-- Numbers as words. -/
def ofInts (ns : List Int) : List Word := ns.map number

/-- Words as numbers, if all of them are. -/
def toInts? (ws : List Word) : Option (List Int) := ws.mapM number?

theorem toInts?_ofInts (ns : List Int) : toInts? (ofInts ns) = some ns := by
  induction ns with
  | nil => rfl
  | cons n rest ih =>
    simp only [toInts?, ofInts] at ih
    simp [toInts?, ofInts, number?, ih]

end Word

end PegCompiler
