import PegCompiler.Text.CodePoint

/-!
Places in a text. Offsets count code points from zero, lines and columns from one. They are whole
numbers of either sign, because a place can be made by hand.
-/

namespace PegCompiler

structure Position where
  offset : Int
  line : Int
  column : Int
  deriving DecidableEq, Repr, Inhabited

/-- The piece of a text from `start` up to `stop`; `source` names the text. -/
structure Location where
  source : Option Text
  start : Position
  stop : Position
  deriving DecidableEq, Repr, Inhabited

namespace Location

/-- Line and column of the start, after the name of the source if there is one. -/
def shown (location : Location) : Text :=
  let place := Text.ofInt location.start.line ++ ":" ++ Text.ofInt location.start.column
  match location.source with
  | none | some [] => place
  | some source => source ++ ":" ++ place

end Location

end PegCompiler
