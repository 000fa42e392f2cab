import PegCompiler.Text.Decomposition

/-!
The normal form of names: decomposed, and then composed again as far as possible. Names that look
the same because one of them has ligatures, full-width letters or marks of their own have the same
normal form.
-/

namespace PegCompiler

namespace NormalForm

/-- The code point that two of them compose. -/
def composed? (first second : Nat) : Option Nat :=
  if second < 128 then none
  else (Hangul.composed? first second).or
    ((compositions.find? fun (_, a, b) => a = first && b = second).map Prod.fst)

/-- What was passed of a text: the last letter, and the marks behind it that could not be composed
with it, the last one first. -/
structure Group where
  letter : Nat
  marks : List Nat := []

/-- The letter of a group composed with `n`, unless a mark stands in between that hides it. -/
def Group.compose? (group : Group) (n : Nat) : Option Group :=
  match group.marks with
  | [] => (composed? group.letter n).map fun letter => ⟨letter, []⟩
  | mark :: _ =>
    if Decomposition.combiningClass mark < Decomposition.combiningClass n then
      (composed? group.letter n).map fun letter => { group with letter }
    else none

def Group.numbers (group : Group) : List Nat := group.letter :: group.marks.reverse

/-- Composes the letter of a group with what follows. -/
def composeFrom (group : Group) : List Nat → List Nat
  | [] => group.numbers
  | n :: rest =>
    match group.compose? n with
    | some group => composeFrom group rest
    | none =>
      if Decomposition.combiningClass n = 0 then group.numbers ++ composeFrom ⟨n, []⟩ rest
      else composeFrom { group with marks := n :: group.marks } rest

/-- Marks at the beginning belong to nothing. -/
def compose : List Nat → List Nat
  | [] => []
  | n :: rest =>
    if Decomposition.combiningClass n = 0 then composeFrom ⟨n, []⟩ rest else n :: compose rest

end NormalForm

/-- The normal form of a name. -/
def Text.normalForm (t : Text) : Text :=
  (NormalForm.compose (Decomposition.ofNumbers (t.map CodePoint.toNat))).map CodePoint.ofNat

end PegCompiler
