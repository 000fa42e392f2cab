import PegCompiler.Run.Entry
import PegCompiler.Run.Place
import PegCompiler.Text.Lines

/-!
The error of a parse that does not match, or that user code ends. User code may place its error
anywhere, with any value in place of a span; an excerpt is shown where the value reads as a span.
-/

namespace PegCompiler

inductive ErrorPlace
  | span (span : Span)
  | given (value : Value)

namespace ErrorPlace

def value : ErrorPlace → Value
  | span s => s.value
  | given value => value

def span? : ErrorPlace → Option Span
  | span s => some s
  | given value => Span.ofValue? value

/-- A place that user code gives counts as the span it is the value of. -/
theorem span?_of_value {place : ErrorPlace} {s : Span} (same : place.value = s.value) :
    place.span? = some s := by
  cases place with
  | span other =>
    have read := congrArg Span.ofValue? same
    simpa [span?, value] using read
  | given value =>
    obtain rfl : value = s.value := same
    exact Span.ofValue?_value s

end ErrorPlace

/-- The message of an error that user code makes can be any value. -/
structure ParseError where
  message : Value
  expected : Option (List Entry)
  found : Option Text
  place : ErrorPlace

namespace ParseError

/-- The message above the line it is about, with a caret below the place where the span starts. -/
def excerpt (message : Text) (span : Span) (input : Text) : Text :=
  let start := span.start
  let (lineStart, line) := Place.lineAround input start.offset
  let position := Text.ofInt start.line ++ ":" ++ Text.ofInt start.column
  let place := match span.source with
    | none | some [] => position
    | some source => source ++ ":" ++ position
  Text.unlines ["Error: " ++ message, " --> " ++ place, line,
    Text.blanks (start.offset - lineStart).toNat ++ "^"]

/-- The message, if it is a text. -/
def message? (error : ParseError) : Option Text :=
  match error.message with
  | .text message => some message
  | _ => none

/-- The excerpt of `input` for an error whose place is a span. -/
def format? (error : ParseError) (input : Text) : Option Text :=
  error.place.span?.map fun span => excerpt error.message.shown span input

end ParseError

end PegCompiler
