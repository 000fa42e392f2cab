import PegCompiler.CommandLine.Arguments
import PegCompiler.Text.Blank
import PegCompiler.Text.Lines

/-!
Options from a file with the flags of the command line put over them. A flag sets the option under
its first spelling, where the file has it or behind all that the file has; so an option that the
file spells the second way and further behind still replaces it.
-/

namespace PegCompiler

/-- Why the dependencies of an option file cannot be added to. -/
inductive DependencyFault
  /-- Something else than a list, or an item without items of its own. -/
  | notPairs
  | notPair (index length : Nat)
  deriving Repr

namespace Dependencies

/-- The items of a value that stands for a pair. -/
def parts? : Value → Option (List Value)
  | .text t => some (t.map fun c => .text [c])
  | .list items => some items
  | .record fields => some (fields.map fun field => .text field.1)
  | _ => none

/-- Whether a value can be the name in a pair. -/
def isName : Value → Bool
  | .list _ | .record _ => false
  | _ => true

/-- Items that stand for pairs of a name and a module, the first of them at `index`. -/
def pairs (index : Nat) : List Value → Except DependencyFault (List (Value × Value))
  | [] => .ok []
  | item :: rest =>
    match parts? item with
    | none => .error .notPairs
    | some [name, module] =>
      if isName name then return (name, module) :: (← pairs (index + 1) rest)
      else .error .notPairs
    | some parts => .error (.notPair index parts.length)

/-- The dependencies that an option file gives: a record, or pairs in a row. -/
def ofValue : Value → Except DependencyFault (List (Value × Value))
  | .record fields => .ok (fields.map fun (name, module) => (.text name, module))
  | given =>
    match given, parts? given with
    | .text _, some items | .list _, some items => pairs 0 items
    | _, _ => .error .notPairs

/-- The variable and the module in the value of a flag; without a colon they are the same. -/
def ofFlag (t : Text) : Text × Text := (Text.splitFirst? ':' t).getD (t, t)

def nameOf? : Value × Value → Option (Text × Value)
  | (.text name, module) => some (name, module)
  | _ => none

/-- The dependencies of the file with those of the flags. If a name of the file is no text there is
no such record; the names in a list are enough then for the options to be refused. -/
def overlaid (given : List (Value × Value)) (flags : List Text) : Value :=
  match given.mapM nameOf? with
  | some fields =>
    let fields := fields.foldl (fun fields (name, module) => Value.setField name module fields) []
    .record <| flags.foldl (fun fields flag =>
      Value.setField (ofFlag flag).1 (.text (ofFlag flag).2) fields) fields
  | none => .list (given.map Prod.fst ++ flags.map fun flag => .text (ofFlag flag).1)

end Dependencies

namespace Arguments

/-- The rules in the value of a flag, which commas separate. -/
def ruleList (t : Text) : Value :=
  .list (((Text.splitAt ',' t).map Text.trim).filter (· ≠ []) |>.map .text)

def formatName : ModuleFormat → Text
  | .bare => "bare"
  | .module => "module"

def overlayDependencies (flags : List Text) (fields : List (Text × Value)) :
    Except DependencyFault (List (Text × Value)) := do
  if flags.isEmpty then return fields
  let given ← Dependencies.ofValue ((Value.lookup? "dependencies" fields).getD (.record []))
  return Value.setField "dependencies" (Dependencies.overlaid given flags) fields

/-- An empty value of a flag is as good as none. -/
def overlayText (name : Text) (value : Text → Value) (flag : Option Text)
    (fields : List (Text × Value)) : List (Text × Value) :=
  match flag with
  | none | some [] => fields
  | some t => Value.setField name (value t) fields

def overlayTruth (name : Text) (flag : Bool) (fields : List (Text × Value)) :
    List (Text × Value) :=
  if flag then Value.setField name (.bool true) fields else fields

def overlayFormat (flag : Option ModuleFormat) (fields : List (Text × Value)) :
    List (Text × Value) :=
  match flag with
  | none => fields
  | some format => Value.setField "format" (.text (formatName format)) fields

/-- The options of a file with the flags over them. -/
def overlay (arguments : Arguments) (fields : List (Text × Value)) :
    Except DependencyFault (List (Text × Value)) := do
  let fields := overlayText "allowed_start_rules" ruleList arguments.startRules fields
  match arguments.build with
  | none => return fields
  | some build =>
    let fields := overlayTruth "cache" build.cache fields
    let fields := overlayTruth "trace" build.trace fields
    let fields := overlayFormat build.format fields
    let fields ← overlayDependencies build.dependencies fields
    return overlayText "export_var" .text build.exportVar fields

end Arguments

end PegCompiler
