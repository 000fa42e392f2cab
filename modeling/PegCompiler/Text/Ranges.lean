import PegCompiler.Text.CodePoint

/-!
Sets of code points given as ascending ranges, and maps that move whole ranges. The tables of the
Unicode properties are written with them.
-/

namespace PegCompiler

/-- Ascending ranges of code point numbers, both ends included. -/
abbrev Ranges := List (Nat × Nat)

namespace Ranges

def contains : Ranges → Nat → Bool
  | [], _ => false
  | (lo, hi) :: rest, n => if n < lo then false else decide (n ≤ hi) || contains rest n

end Ranges

/-- Every `step`-th number from `first` to `last` is moved by `offset`. -/
structure Shift where
  first : Nat
  last : Nat
  step : Nat
  offset : Int

namespace Shift

def covers (shift : Shift) (n : Nat) : Bool :=
  shift.first ≤ n && n ≤ shift.last && (n - shift.first) % shift.step == 0

/-- The image of `n` under the first shift that covers it; a number not covered stays. -/
def image (shifts : List Shift) (n : Nat) : Nat :=
  match shifts.find? (covers · n) with
  | some shift => ((n : Int) + shift.offset).toNat
  | none => n

/-- The numbers that some shift moves to `n`. -/
def sources (shifts : List Shift) (n : Nat) : List Nat :=
  shifts.filterMap fun shift =>
    let source := ((n : Int) - shift.offset).toNat
    if shift.covers source && (source : Int) + shift.offset == (n : Int) then some source else none

end Shift

end PegCompiler
