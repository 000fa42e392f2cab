import PegCompiler.Run.Place

/-!
Traces: what happened to the rules during a parse, and how it is printed. Every line shows the span,
the kind of event and the rule, indented by the number of rules that are being run.
-/

namespace PegCompiler

inductive TraceKind
  | enter
  | matched
  | failed
  | other (name : Text)
  deriving DecidableEq, Repr

structure TraceEvent where
  kind : TraceKind
  rule : Text
  start : Int
  stop : Int
  result : Option Value := none
  deriving Repr

namespace TraceKind

def name : TraceKind → Text
  | enter => "rule.enter"
  | matched => "rule.match"
  | failed => "rule.fail"
  | other name => name

end TraceKind

namespace Trace

/-- `t` filled up with blanks to at least `width`. -/
def padded (width : Nat) (t : Text) : Text := t ++ Text.blanks (width - t.length)

def spanText (input : Text) (event : TraceEvent) : Text :=
  let place (offset : Int) : Text :=
    let position := Place.position input offset
    Text.ofInt position.line ++ ":" ++ Text.ofInt position.column
  place event.start ++ "-" ++ place event.stop

def line (input : Text) (indent : Int) (event : TraceEvent) : Text :=
  padded 20 (spanText input event) ++ " " ++ padded 10 event.kind.name ++ " "
    ++ Text.blanks (2 * indent.toNat) ++ event.rule

/-- The lines of events, and the indentation behind them. The line of a rule that ends stands as far
in as the line where it began. -/
def lines (input : Text) (indent : Int) : List TraceEvent → List Text × Int
  | [] => ([], indent)
  | event :: rest =>
    let entering := event.kind = .enter
    let here := if entering then indent else indent - 1
    let behind := if entering then indent + 1 else here
    let (others, final) := lines input behind rest
    (line input here event :: others, final)

end Trace

end PegCompiler
