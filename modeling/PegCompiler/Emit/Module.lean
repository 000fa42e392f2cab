import PegCompiler.Emit.Body
import PegCompiler.Emit.ClassPattern
import PegCompiler.Emit.UserCode
import PegCompiler.Grammar.Basic
import PegCompiler.Options

/-!
The emitted module: the constant tables, a function that defines the user code, one that defines a
parse function for every rule, and the entry point. With the memo table on, a rule is run at most
once at every position; with tracing on, it reports when it is entered and how it ends.
-/

namespace PegCompiler

inductive ModuleFault
  | body (fault : EmitFault)
  /-- A class built by hand holds a text that has no pattern. -/
  | classText (text : Text)
  | unknownExpectation (entry : Text)
  | notLowered
  | dependencies (value : Value)
  | dependencyPath (value : Value)
  deriving Repr

def ModuleFault.message : ModuleFault → Text
  | body fault => fault.message
  | classText text => "No pattern for " ++ text.quoted
  | unknownExpectation entry => "Unknown expectation type (" ++ entry ++ ")"
  | notLowered => "The grammar has no words"
  | dependencies value => "Not a record: " ++ value.shown
  | dependencyPath value => "Not a path: " ++ value.shown

namespace Emit

def version : Text := "0.1.0"

/-- Fields of a written record. -/
def record (fields : List (Text × Text)) : Text :=
  "\x7b" ++ Text.join ", " (fields.map fun (name, value) => name.quoted ++ ": " ++ value) ++ "\x7d"

def classPart : ClassPart → Text
  | .char c => Text.quoted [c]
  | .range lo hi => Value.writtenRow [.text [lo], .text [hi]]
  | .loose [t] => t.quoted
  | .loose texts => Value.writtenRow (texts.map .text)

def expectation : Expectation → Except ModuleFault Text
  | .rule name => .ok (record [("type", Text.quoted "rule"), ("description", name.quoted)])
  | .literal value ignoreCase => .ok (record [("type", Text.quoted "literal"),
      ("text", value.quoted), ("ignore_case", truth ignoreCase)])
  | .charClass members => .ok (record [("type", Text.quoted "class"),
      ("parts", "[" ++ Text.join ", " (members.parts.map classPart) ++ "]"),
      ("inverted", truth members.inverted), ("ignore_case", truth members.ignoreCase)])
  | .any => .ok (record [("type", Text.quoted "any")])
  | .unknown entry => .error (.unknownExpectation entry)

/-- The statement that compiles the pattern of a class. -/
def classConstant (index : Nat) (members : CharClass) : Except ModuleFault Text :=
  match ClassPattern.pattern members with
  | .error unwritable => .error (.classText unwritable.text)
  | .ok pattern =>
    let flags : Text := if members.ignoreCase then ", regex.IGNORECASE" else []
    .ok ("_r" ++ Text.ofNat index ++ " = regex.compile(" ++ pattern.quoted ++ flags ++ ")")

def constants (tables : Tables) : Except ModuleFault (List Text) := do
  let literals := tables.literals.mapIdx fun index literal =>
    "_c" ++ Text.ofNat index ++ " = " ++ literal.quoted
  let classes ← tables.classes.zipIdx.mapM fun (members, index) => classConstant index members
  let expectations ← tables.expectations.zipIdx.mapM fun (entry, index) => do
    return "_e" ++ Text.ofNat index ++ " = " ++ (← expectation entry)
  return literals ++ classes ++ expectations

/-- The names of the user functions, each with a comma behind it. -/
def functionNames (functions : List UserFunction) : Text :=
  Text.join " " (functions.mapIdx fun index _ => "_f" ++ Text.ofNat index ++ ",")

def functionHeading (index : Nat) (function : UserFunction) : Text :=
  "def _f" ++ Text.ofNat index ++ "(" ++ Text.join ", " function.params ++ "):"

def userFunction (index : Nat) (function : UserFunction) : List Text :=
  [] :: functionHeading index function :: block (userCode function.body)

/-- The function that defines all user code. -/
def initFunction (initializer : Option Initializer) (functions : List UserFunction) : List Text :=
  let helpers : List Text := List.map Text.ofString [
    "text = state.text", "offset = state.offset", "location = state.location",
    "expected = state.expected", "error = state.error"]
  let initial : List Text := match initializer with
    | none => []
    | some initializer => [] :: userCode initializer.code
  let definitions := (functions.mapIdx userFunction).flatten
  let result : Text := "return (" ++ functionNames functions ++ ")"
  "def _init(input, options, state):" :: indented (helpers ++ initial ++ definitions ++ [[], result])

/-- Reports an event of a rule, which spans the input from where the rule began up to `stop`. -/
def traceCall (kind : Text) (rule : Text) (result : Option Text) (stop : Text) : Text :=
  let value : Text := match result with
    | none => []
    | some result => ", \"result\": " ++ result
  "tracer.trace(\x7b\"type\": \"" ++ kind ++ "\", \"rule\": " ++ rule.quoted ++ value
    ++ ", \"location\": state.compute_location(start_pos, " ++ stop ++ ")\x7d)"

/-- Reports how a rule ended. -/
def traceResult (rule result : Text) : List Text := [
  "if " ++ result ++ " is not FAILED:",
  "    " ++ traceCall "rule.match" rule (some result) "state.pos",
  "else:",
  "    " ++ traceCall "rule.fail" rule none "start_pos"]

/-- Looks the rule up in the memo table and ends if its outcome here is known. Positions and rules
share one key, which is different for different pairs. -/
def memoLookup (trace : Bool) (rule : Text) (ruleCount index : Nat) : List Text :=
  let tracing := if trace then traceResult rule "cached[1]" else []
  ["key = state.pos * " ++ Text.ofNat ruleCount ++ " + " ++ Text.ofNat index,
    "cached = _cache.get(key)", "if cached is not None:"]
    ++ indented ([Text.ofString "state.pos = cached[0]"] ++ tracing
      ++ [Text.ofString "return cached[1]"])
    ++ [[]]

/-- The parse function of a rule; `index` is the place of the first rule of that name. -/
def ruleFunction (context : EmitContext) (settings : Settings) (index : Nat) (r : Rule) :
    Except ModuleFault (List Text) := do
  let some words := r.words | throw .notLowered
  let (outcome, emission) := rule context r.name words
  let statements ← outcome.mapError .body
  let (found, _) := (result .results).run.run emission
  let slot ← found.mapError ModuleFault.body
  let definitions := [definition .results emission.results,
    definition .positions emission.positions].filter (!·.isEmpty)
  let starting : List Text := if settings.trace then ["start_pos = state.pos"] else []
  let entering := if settings.trace then [traceCall "rule.enter" r.name none "start_pos"] else []
  let looking := if settings.cache then
    memoLookup settings.trace r.name context.ruleNames.length index else []
  let keeping : List Text :=
    if settings.cache then ["_cache[key] = (state.pos, " ++ slot.name ++ ")"] else []
  let ending := if settings.trace then traceResult r.name slot.name else []
  return ("def parse_" ++ r.name ++ "():") ::
    indented (starting ++ definitions ++ entering ++ looking ++ Statement.allLines statements
      ++ keeping ++ ending ++ [Text.ofString "return " ++ slot.name])

/-- The function that defines the parse functions and gives those of the start rules. -/
def defineFunction (g : Grammar) (tables : Tables) (settings : Settings) :
    Except ModuleFault (List Text) := do
  let context : EmitContext := ⟨tables.literals, g.ruleNames⟩
  let functions := if tables.functions.isEmpty then []
    else [functionNames tables.functions ++ " = functions"]
  let memo : List Text := if settings.cache then ["_cache = \x7b\x7d"] else []
  let tracer : List Text :=
    if settings.trace then ["tracer = options.get(\"tracer\") or DefaultTracer()"] else []
  let rules ← g.rules.mapM fun r => do
    return [] :: (← ruleFunction context settings ((g.indexOf? r.name).getD 0) r)
  let starts : List Text := settings.startRules.map fun name =>
    "    " ++ name.written ++ ": parse_" ++ name.shown ++ ","
  return "def _define(state, options, functions):" ::
    indented (functions ++ memo ++ tracer ++ rules.flatten ++ List.map Text.ofString ["", "return \x7b"]
      ++ starts ++ [Text.ofString "\x7d"])

/-- The entry point; the first start rule is the one to begin with. -/
def parseFunction (startRules : List Value) : List Text := [
  "_START_RULES = " ++ Value.writtenRow startRules,
  [],
  [],
  "def parse(input, **options):",
  "    start_rule = options.get(\"start_rule\", " ++ (startRules.headD .null).written ++ ")",
  "    if start_rule not in _START_RULES:",
  "        raise ValueError(f\"Can't start parsing from rule \\\"\x7bstart_rule\x7d\\\".\")",
  [],
  "    state = ParserState(input, options.get(\"source\"))",
  "    functions = _init(input, options, state)",
  "    rules = _define(state, options, functions)",
  "    return state.parse(rules[start_rule])",
  [],
  [],
  "SyntaxError = PegSyntaxError"]

/-- All of the module but its wrapping. -/
def topLevel (g : Grammar) (settings : Settings) : Except ModuleFault (List Text) := do
  let some tables := g.tables | throw .notLowered
  let imports : List Text :=
    (if tables.classes.isEmpty then [] else List.map Text.ofString ["import regex", ""])
      ++ [Text.ofString
        "from pegc.runtime import FAILED, DefaultTracer, ParserState, PegSyntaxError"]
  let constants ← constants tables
  let define ← defineFunction g tables settings
  return imports ++ [[]] ++ (if constants.isEmpty then [] else constants ++ [[]])
    ++ [[]] ++ initFunction g.initializer tables.functions
    ++ [[], []] ++ define
    ++ [[], []] ++ parseFunction settings.startRules

def header : List Text := [
  "# Generated by pegc " ++ version, "#", "# Do not edit: regenerate from the grammar instead.", []]

/-- The import of a dependency under its name. -/
def importLine (name : Text) (path : Value) : Except ModuleFault Text :=
  match path with
  | .text path =>
    let (before, last) := (path.splitLast? '.').getD ([], path)
    .ok <| if name = path then "import " ++ path
      else if !before.isEmpty && name = last then "from " ++ before ++ " import " ++ last
      else "import " ++ path ++ " as " ++ name
  | path => .error (.dependencyPath path)

def dependencyLines : Value → Except ModuleFault (List Text)
  | .record fields => fields.mapM fun (name, path) => importLine name path
  | value => .error (.dependencies value)

/-- The exported object, which holds the entry point. -/
def exportLines : Option Text → List Text
  | none => []
  | some name => [
      [],
      name ++ " = types.SimpleNamespace(parse=parse, SyntaxError=PegSyntaxError)",
      "__all__.append(\"" ++ name ++ "\")"]

def wrapped (settings : Settings) (topLevel : List Text) : Except ModuleFault (List Text) :=
  match settings.format with
  | .bare => .ok (header ++ topLevel)
  | .module => do
    let dependencies ← dependencyLines settings.dependencies
    let types : List Text := if settings.exportVar.isSome then ["import types"] else []
    let gap : List Text :=
      if settings.exportVar.isSome || settings.dependencies.isTrue then [[]] else []
    return header
      ++ List.map Text.ofString ["\"\"\"Parser module generated from a PEG grammar.\"\"\"", ""]
      ++ types ++ dependencies ++ gap ++ topLevel
      ++ [[], Text.ofString "__all__ = [\"parse\", \"SyntaxError\", \"PegSyntaxError\"]"]
      ++ exportLines settings.exportVar

/-- The name of the exported object, if there is one. -/
def exportedObject? (settings : Settings) : Option Text :=
  match settings.format with
  | .bare => none
  | .module => settings.exportVar

/-- What the module exports: the entry point, the error, and an object if there is one. -/
def exported (settings : Settings) : List Text :=
  match settings.format with
  | .bare => []
  | .module => List.map Text.ofString ["parse", "SyntaxError", "PegSyntaxError"]
      ++ (exportedObject? settings).toList

end Emit

namespace Grammar

/-- The text of the emitted module. -/
def emit (g : Grammar) (settings : Settings) : Except ModuleFault Text := do
  let lines ← Emit.wrapped settings (← Emit.topLevel g settings)
  return Text.unlines lines ++ [Text.newline]

end Grammar

end PegCompiler
