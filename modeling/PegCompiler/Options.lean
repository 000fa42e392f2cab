import PegCompiler.Text.VariableName
import PegCompiler.Value.Basic

/-!
Options of a compilation. They come as dynamic values, from a file or a caller, and are kept as
given; a later value of an option replaces an earlier one. `resolve` checks them once the rules of
the grammar are known and gives the settings that the compiler works with.
-/

namespace PegCompiler

inductive OptionName
  | startRules
  | cache
  | trace
  | output
  | format
  | dependencies
  | exportVar
  | collector
  deriving DecidableEq, Repr

/-- The spellings of an option; two options have a second one. -/
def OptionName.ofText? (name : Text) : Option OptionName :=
  [ (Text.ofString "allowed_start_rules", startRules), ("allowedStartRules", startRules),
    ("cache", cache), ("trace", trace), ("output", output), ("format", format),
    ("dependencies", dependencies), ("export_var", exportVar), ("exportVar", exportVar),
    ("collector", collector)].lookup name

inductive OptionError
  | unknown (name : Text)
  | output (value : Value)
  | format (value : Value)
  | exportVar (name : Text)
  | dependency (name : Text)
  /-- A value that has no elements stands where a list is needed. -/
  | noElements (value : Value)
  /-- A value stands where a name or a record is needed. -/
  | misplaced (value : Value)
  deriving Repr

def OptionError.message : OptionError → Text
  | unknown name => "Unknown option: " ++ name
  | output value => "Invalid output format: " ++ value.shown ++ "."
  | format value => "Invalid module format: " ++ value.shown ++ "."
  | exportVar name => "Invalid export variable name: " ++ name ++ "."
  | dependency name => "Invalid dependency variable name: " ++ name ++ "."
  | noElements value => "Not a list: " ++ value.shown
  | misplaced value => "Not expected here: " ++ value.shown

structure Options where
  startRules : Value := .null
  cache : Value := .bool false
  trace : Value := .bool false
  output : Value := .text "parser"
  format : Value := .text "bare"
  dependencies : Value := .record []
  exportVar : Value := .null
  collector : Value := .null
  deriving Repr, Inhabited

namespace Options

def set (options : Options) (name : OptionName) (value : Value) : Options :=
  match name with
  | .startRules => { options with startRules := value }
  | .cache => { options with cache := value }
  | .trace => { options with trace := value }
  | .output => { options with output := value }
  | .format => { options with format := value }
  | .dependencies => { options with dependencies := value }
  | .exportVar => { options with exportVar := value }
  | .collector => { options with collector := value }

/-- The options with those of a record put over them, in its order. -/
def withFields (options : Options) : List (Text × Value) → Except OptionError Options
  | [] => .ok options
  | (key, value) :: rest =>
    match OptionName.ofText? key with
    | some name => (options.set name value).withFields rest
    | none => .error (.unknown key)

/-- The options that `given` names put over the defaults; nothing given leaves the defaults. -/
def ofValue : (given : Value) → Except OptionError Options
  | .null => .ok {}
  | .record fields => withFields {} fields
  | given => .error (.misplaced given)

/-- The options with those that `given` names put over them; an empty value changes nothing. -/
def merged (options : Options) (given : Value) : Except OptionError Options :=
  match given with
  | .record fields => options.withFields fields
  | _ => if given.isTrue then .error (.misplaced given) else .ok options

end Options

inductive ModuleFormat
  | bare
  | module
  deriving DecidableEq, Repr

inductive OutputKind
  | parser
  | source
  | tree
  deriving DecidableEq, Repr

def ModuleFormat.ofValue? : Value → Option ModuleFormat
  | .text t => [(Text.ofString "bare", bare), ("module", module)].lookup t
  | _ => none

def OutputKind.ofValue? : Value → Option OutputKind
  | .text t => [(Text.ofString "parser", parser), ("source", source), ("ast", tree)].lookup t
  | _ => none

/-- What a compilation gives: one result, or several. -/
inductive Output
  | one (kind : OutputKind)
  | several (kinds : List OutputKind)
  deriving Repr

/-- Options that passed all checks. -/
structure Settings where
  startRules : List Value
  cache : Bool
  trace : Bool
  output : Output
  format : ModuleFormat
  dependencies : Value
  exportVar : Option Text
  collector : Value
  deriving Repr

namespace Options

/-- The elements of a value: those of a list, the code points of a text, the names of a record. -/
def elements (value : Value) : Except OptionError (List Value) :=
  match value with
  | .list items => .ok items
  | .text t => .ok (t.map fun c => .text [c])
  | .record fields => .ok (fields.map fun field => .text field.1)
  | _ => .error (.noElements value)

def outputKind (value : Value) : Except OptionError OutputKind :=
  match OutputKind.ofValue? value with
  | some kind => .ok kind
  | none => .error (.output value)

/-- Only a list asks for several outputs. -/
def resolveOutput : Value → Except OptionError Output
  | .list items => return .several (← items.mapM outputKind)
  | value => return .one (← outputKind value)

def resolveFormat (value : Value) : Except OptionError ModuleFormat :=
  match ModuleFormat.ofValue? value with
  | some format => .ok format
  | none => .error (.format value)

def resolveExportVar : Value → Except OptionError (Option Text)
  | .null => .ok none
  | .text name => if name.isVariableName then .ok (some name) else .error (.exportVar name)
  | value => .error (.misplaced value)

def checkDependency : Value → Except OptionError Unit
  | .text name => if name.isVariableName then .ok () else .error (.dependency name)
  | value => .error (.misplaced value)

/-- The first rule is the start rule if none is given. -/
def resolveStartRules (ruleNames : List Text) : Value → Except OptionError (List Value)
  | .null => .ok ((ruleNames.take 1).map .text)
  | value => elements value

def resolve (options : Options) (ruleNames : List Text) : Except OptionError Settings := do
  let startRules ← resolveStartRules ruleNames options.startRules
  let output ← resolveOutput options.output
  let format ← resolveFormat options.format
  let exportVar ← resolveExportVar options.exportVar
  (← elements options.dependencies).forM checkDependency
  return {
    startRules, output, format, exportVar,
    cache := options.cache.isTrue
    trace := options.trace.isTrue
    dependencies := options.dependencies
    collector := options.collector }

end Options

end PegCompiler
