import PegCompiler.Grammar.Location
import PegCompiler.Text.Index
import PegCompiler.Value.Basic

/-!
Places in a parsed input. A line ends at a line feed, a carriage return, both of them together, or
one of the separators 2028 and 2029. An offset may lie beyond the end of the input, and a negative
one counts from the end where the input is looked at; in what is reported it stays as it is.
-/

namespace PegCompiler

/-- The piece of an input between two offsets, in any order. -/
structure Span where
  source : Option Text
  start : Position
  stop : Position
  deriving DecidableEq, Repr

namespace Place

def endsLine (c : CodePoint) : Bool := [0x0A, 0x0D, 0x2028, 0x2029].contains c.toNat

/-- The number of the last line of a text that begins at `offset`, and where that line begins. -/
def lastLine (offset line start : Nat) : Text → Nat × Nat
  | [] => (line, start)
  | .scalar '\r' :: .scalar '\n' :: rest => lastLine (offset + 2) (line + 1) (offset + 2) rest
  | c :: rest =>
    if endsLine c then lastLine (offset + 1) (line + 1) (offset + 1) rest
    else lastLine (offset + 1) line start rest

/-- Line and start of line at an offset; what comes behind it does not matter. -/
def lineAt (input : Text) (offset : Int) : Nat × Nat := lastLine 0 1 0 (Index.upTo input offset)

def position (input : Text) (offset : Int) : Position :=
  let (line, start) := lineAt input offset
  ⟨offset, line, offset - start + 1⟩

def span (input : Text) (source : Option Text) (start stop : Int) : Span :=
  ⟨source, position input start, position input stop⟩

/-- The line around an offset, and the offset where it begins. -/
def lineAround (input : Text) (offset : Int) : Nat × Text :=
  let start := (lineAt input offset).2
  let before := (Index.upTo input offset).drop start
  (start, before ++ (Index.behind input offset).takeWhile (!endsLine ·))

def positionValue (position : Position) : Value := .record [
  ("offset", .integer position.offset), ("line", .integer position.line),
  ("column", .integer position.column)]

/-- The position that a value with these fields stands for. -/
def position? (value : Value) : Option Position :=
  match value.field? "offset", value.field? "line", value.field? "column" with
  | some (.integer offset), some (.integer line), some (.integer column) =>
    some ⟨offset, line, column⟩
  | _, _, _ => none

@[simp] theorem position?_positionValue (position : Position) :
    position? (positionValue position) = some position := rfl

end Place

namespace Span

/-- The span as user code sees it. -/
def value (span : Span) : Value :=
  let source : Value := match span.source with
    | none => .null
    | some source => .text source
  .record [("source", source), ("start", Place.positionValue span.start),
    ("end", Place.positionValue span.stop)]

/-- The span that a value stands for. -/
def ofValue? (value : Value) : Option Span := do
  let start ← value.field? "start" >>= Place.position?
  let stop ← value.field? "end" >>= Place.position?
  match value.field? "source" with
  | some (.text source) => some ⟨source, start, stop⟩
  | some .null => some ⟨none, start, stop⟩
  | _ => none

@[simp] theorem ofValue?_value : (span : Span) → ofValue? span.value = some span
  | ⟨none, _, _⟩ => rfl
  | ⟨some _, _, _⟩ => rfl

end Span

end PegCompiler
