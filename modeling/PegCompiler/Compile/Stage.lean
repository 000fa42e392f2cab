import PegCompiler.Compile.Pass

/-!
Compiling in stages. All passes of a stage run even if one of them reports errors; then the stage
rejects the grammar with all its problems, and the next stage does not begin. A fatal error rejects
at once. Everything that happens is kept as a list of events in order.
-/

namespace PegCompiler

/-- A step of a stage: a pass, or diagnostics that a caller has ready. -/
inductive Step
  | pass (pass : Pass)
  | report (diagnostics : List Diagnostic)

structure Stage where
  name : Text
  steps : List Step

inductive Event
  | stage (name : Text) (steps : Nat)
  | pass (pass : Pass)
  | found (diagnostic : Diagnostic)
  deriving Repr

/-- How a compilation went. -/
structure Compilation where
  grammar : Grammar
  events : List Event := []
  failure : Option Failure := none

namespace Stage

def check : Stage := ⟨"check", List.map .pass [
  .undefinedRules, .duplicateRules, .duplicateLabels, .ambiguousLabels, .leftRecursion,
  .idleRepetitions, .unusedRules]⟩

def transform : Stage := ⟨"transform", [.pass .proxies]⟩

def generate : Stage := ⟨"generate", List.map .pass [.reporting, .matching, .lowering, .emission]⟩

/-- The stages of a complete compilation. -/
def standard : List Stage := [check, transform, generate]

end Stage

/-- The diagnostics of a stage so far, and how many of them are errors. -/
structure Record where
  problems : List Diagnostic := []
  errors : Nat := 0

namespace Record

/-- Takes a diagnostic down; a fatal one is a rejection. -/
def add (record : Record) (diagnostic : Diagnostic) : Except Rejection Record :=
  match diagnostic.severity with
  | .fatal => .error ⟨diagnostic.message, diagnostic.location, []⟩
  | .error => .ok ⟨record.problems ++ [diagnostic], record.errors + 1⟩
  | .warning | .info => .ok { record with problems := record.problems ++ [diagnostic] }

/-- Takes diagnostics down up to a fatal one; also gives those that were looked at. -/
def addAll (record : Record) : List Diagnostic → List Diagnostic × Except Rejection Record
  | [] => ([], .ok record)
  | diagnostic :: rest =>
    match record.add diagnostic with
    | .error rejection => ([diagnostic], .error rejection)
    | .ok record =>
      let (seen, outcome) := record.addAll rest
      (diagnostic :: seen, outcome)

end Record

namespace Stage

def stepEvents : Step → List Event
  | .pass pass => [.pass pass]
  | .report _ => []

def runStep (settings : Settings) (g : Grammar) : Step → PassResult
  | .pass pass => pass.run settings g
  | .report diagnostics => ⟨g, diagnostics, none⟩

/-- Runs the steps from the one with this number on; a step is announced before it runs. -/
def runSteps (settings : Settings) (number : Nat) (record : Record) (g : Grammar) :
    List Step → Compilation × Record
  | [] => ({ grammar := g }, record)
  | step :: rest =>
    let announced : Diagnostic := ⟨.passStarted number, none⟩
    let record := { record with problems := record.problems ++ [announced] }
    let result := runStep settings g step
    let (seen, outcome) := record.addAll result.found
    let events := [.found announced] ++ stepEvents step ++ seen.map Event.found
    match outcome, result.failure with
    | .error rejection, _ => (⟨result.grammar, events, some (.rejected rejection)⟩, record)
    | .ok record, some failure => (⟨result.grammar, events, some failure⟩, record)
    | .ok record, none =>
      let (compilation, record) := runSteps settings (number + 1) record result.grammar rest
      ({ compilation with events := events ++ compilation.events }, record)

def run (settings : Settings) (g : Grammar) (stage : Stage) : Compilation :=
  let announced : Diagnostic := ⟨.stageStarted stage.name, none⟩
  let (compilation, record) := runSteps settings 0 { problems := [announced] } g stage.steps
  let events := [.found announced, .stage stage.name stage.steps.length] ++ compilation.events
  let failure := match compilation.failure with
    | some failure => some failure
    | none =>
      if record.errors = 0 then none
      else some (.rejected {
        message := "Stage '" ++ stage.name ++ "' contains " ++ Text.ofNat record.errors
          ++ " error(s)."
        problems := record.problems })
  { compilation with events, failure }

/-- Runs stages up to one that fails. -/
def runAll (settings : Settings) (g : Grammar) : List Stage → Compilation
  | [] => { grammar := g }
  | stage :: rest =>
    let compilation := stage.run settings g
    match compilation.failure with
    | some _ => compilation
    | none =>
      let further := runAll settings compilation.grammar rest
      { further with events := compilation.events ++ further.events }

end Stage

end PegCompiler
