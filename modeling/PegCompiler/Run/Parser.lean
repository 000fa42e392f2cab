import PegCompiler.Compile.Output
import PegCompiler.Run.Linking
import PegCompiler.Run.Machine
import PegCompiler.Run.UserCode

/-!
Parsers: a compiled grammar is loaded once and then parses any number of inputs, each from a fresh
state.
-/

namespace PegCompiler

/-- How a parse ended, and the events of its trace in order. -/
structure Parse where
  outcome : Except Raise Value
  events : List TraceEvent := []

namespace Program

/-- What a rule records for an expectation of the tables. -/
def entry? : Expectation → Option Entry
  | .rule name => some (.rule name)
  | .literal value ignoreCase => some (.literal value ignoreCase)
  | .charClass members => some (.charClass members)
  | .any => some .any
  | .unknown _ => none

/-- What a user function does, if its body is a script. -/
def userCode? (f : UserFunction) : Option UserCode :=
  let params := f.params.map Text.normalForm
  (Script.read? f.body).map fun script state values => script.run state (params.zip values)

/-- A rule with its instructions, in which references go to places. -/
def rule? (places : List Nat) (r : Rule) : Option (Text × List Instr) := do
  return (r.name, Linking.code places (← Instr.decode? (← r.words)))

/-- Where a parse begins that starts with this rule. -/
def start? (places : List Nat) (g : Grammar) (name : Value) : Option (Value × Nat) := do
  let place ← g.rules.findIdx? fun r => name.same (.text r.name)
  return (name, (places[place]?).getD place)

/-- Loads a compiled grammar, with the meaning that `meaning?` gives its user functions. -/
def load (meaning? : UserFunction → Option UserCode) (g : Grammar) (settings : Settings) :
    Except Failure Program := do
  let some tables := g.tables | throw .nothingEmitted
  let some matchers := g.matchers? | throw .unreadableClass
  let some functions := tables.functions.mapM meaning? | throw .unreadableCode
  let some entries := tables.expectations.mapM entry? | throw .nothingEmitted
  let places := Linking.places g.ruleNames
  let some rules := g.rules.mapM (rule? places) | throw .nothingEmitted
  let some starts := settings.startRules.mapM (start? places g) | throw .nothingEmitted
  return {
    rules, matchers, entries, functions, starts
    object := Emit.exportedObject? settings
    literals := tables.literals
    cache := settings.cache
    trace := settings.trace }

/-- The exported object hides one of these names, which a parse looks for. -/
def hides (program : Program) (names : List String) : Bool :=
  names.any fun name => Loading.hides program.object (Text.ofString name)

/-- The place of the rule to start with: one of the start rules, the first of them if none is
asked for. What the exported object hides is no longer there to be called. -/
def startPlace (program : Program) (asked : Option Value) : Except Raise Nat := do
  if program.hides ["parse", "_START_RULES"] then throw .wrongType
  let name := asked.getD ((program.starts.map Prod.fst).headD .null)
  match program.starts.find? (·.1.same name) with
  | some (_, place) =>
    if program.hides ["ParserState", "_init", "_define"] then throw .wrongType
    return place
  | none =>
    if program.hides ["ValueError"] then throw .wrongType
    throw (.invalidValue ("Can't start parsing from rule \"" ++ name.shown ++ "\"."))

/-- Parses an input; `fuel` bounds the depth of calls and the rounds of every loop. -/
def parse (program : Program) (fuel : Nat) (input : Text) (source : Option Text)
    (start : Option Value) : Parse :=
  match program.startPlace start with
  | .error raised => { outcome := .error raised }
  | .ok place =>
    let world : World := { state := { input, source } }
    let (outcome, world) := (Machine.rule program fuel place).run.run world
    let outcome := match outcome with
      | .error raised => .error raised
      | .ok result => (world.state.finish result).1
    ⟨outcome, world.events.reverse⟩

end Program

/-- Compiles and loads a grammar whose user code is in scripts. There is no program if the options
ask for another output than a parser. -/
def Grammar.toProgram (g : Grammar) (options : Options) : Except Failure (Option Program) := do
  let (settings, compiled, _) ← (g.compile Stage.standard options none).outcome
  match settings.output with
  | .one .parser => return some (← Program.load Program.userCode? compiled settings)
  | _ => return none

end PegCompiler
