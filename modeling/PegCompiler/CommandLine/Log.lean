import PegCompiler.Compile.Output

/-!
What the command line says about a compilation while it goes on: its events as lines of a log.
Warnings are always said, once for the reader and once for the log; everything else is for those
who look into the compiler.
-/

namespace PegCompiler.Log

inductive Level
  | debug
  | warning
  deriving DecidableEq, Repr

inductive Source
  | compiler
  | diagnostics
  | matching
  deriving DecidableEq, Repr

def levelName : Level → Text
  | .debug => "DEBUG"
  | .warning => "WARNING"

def sourceName : Source → Text
  | .compiler => "pegc.compiler"
  | .diagnostics => "pegc.compiler.session"
  | .matching => "pegc.compiler.passes.inference_match_result"

def line (level : Level) (source : Source) (message : Text) : Text :=
  "[" ++ levelName level ++ "] " ++ sourceName source ++ ": " ++ message

def placed (d : Diagnostic) : Text :=
  let place : Text := match d.location with
    | none => "None"
    | some location => location.shown
  d.message ++ " (" ++ place ++ ")"

/-- A warning for the reader. -/
def warning (d : Diagnostic) : Text :=
  let place : Text := match d.location with
    | none => []
    | some location => " (" ++ location.shown ++ ")"
  "[WARN] " ++ d.message ++ place

/-- What match inference says before it warns. -/
def preliminary : Finding → List Text
  | .unsettledVerdict rule =>
    [line .debug .matching ("match inference for rule " ++ rule ++ " did not settle")]
  | _ => []

def ofDiagnostic (debug : Bool) (d : Diagnostic) : List Text :=
  match d.severity with
  | .fatal => []
  | .error => if debug then [line .debug .diagnostics ("error: " ++ placed d)] else []
  | .warning => (if debug then preliminary d.finding else [])
      ++ [warning d, line .warning .diagnostics (placed d)]
  | .info => if debug then [line .debug .diagnostics d.message] else []

def ofEvent (debug : Bool) : Event → List Text
  | .found d => ofDiagnostic debug d
  | .stage name steps =>
    if debug then
      [line .debug .compiler ("stage " ++ name ++ ": " ++ Text.ofNat steps ++ " pass(es)")]
    else []
  | .pass pass => if debug then [line .debug .compiler ("  pass " ++ pass.name)] else []

def ofEvents (debug : Bool) (events : List Event) : List Text := events.flatMap (ofEvent debug)

/-- The warnings among the events. -/
def warnings (events : List Event) : Nat :=
  events.countP fun
    | .found d => d.severity = .warning
    | _ => false

end PegCompiler.Log
