import PegCompiler.Code.Lower
import PegCompiler.Diagnostic
import PegCompiler.Emit.Loading
import PegCompiler.Options

/-!
Why a compilation ends without a result. A rejection is the normal way: the problems that a stage
found in the grammar, or one that is fatal. Everything else is a mistake in what was handed in,
such as a tree built by hand that cannot be walked over.
-/

namespace PegCompiler

/-- A grammar that is not accepted, with all problems of the stage that found it. -/
structure Rejection where
  message : Text
  location : Option Location := none
  problems : List Diagnostic := []
  deriving Repr

namespace Rejection

def problemLine (problem : Diagnostic) : Text :=
  let place : Text := match problem.location with
    | none => []
    | some location => " (" ++ location.shown ++ ")"
  "  - " ++ problem.message ++ place

/-- The message with the errors among the problems. -/
def text (rejection : Rejection) : Text :=
  let errors := rejection.problems.filter (·.severity = .error)
  Text.unlines (rejection.message :: errors.map problemLine)

end Rejection

inductive Failure
  | rejected (rejection : Rejection)
  | options (error : OptionError)
  | tree (fault : TreeFault)
  /-- A start rule that is a list or a record, which cannot be looked up. -/
  | startRule (value : Value)
  | unknownLabel (label : Limit)
  | emission (fault : ModuleFault)
  /-- A collector that takes no kind of diagnostic. -/
  | deafCollector
  /-- A parser was asked for and nothing was emitted. -/
  | nothingEmitted
  /-- The emitted code cannot be loaded. -/
  | loading (fault : LoadFault)
  /-- The exported object hides the list of exported names. -/
  | hiddenExports
  /-- A class has a pattern that cannot be read. -/
  | unreadableClass
  /-- User code that is not in the language it has to be in to be run. -/
  | unreadableCode
  deriving Repr

/-- The classes of failures that a caller can tell apart. -/
inductive FailureKind
  | rejection
  | invalidValue
  | wrongType
  | missingAttribute
  | missingKey
  | missingIndex
  | brokenInvariant
  | unreadablePattern
  | unreadableCode
  | deepIndentation
  deriving DecidableEq, Repr

namespace TreeFault

def message : TreeFault → Text
  | absentNode => "Visitor function called with no node"
  | unknownKind kind => "Visitor function for node type '" ++ kind ++ "' not defined"
  | absentProperty => "The node does not have the property"
  | incomparable => "What is compared with a number is none"
  | misplaced => "The node cannot stand here"
  | noCode => "The node has no code"

def kind : TreeFault → FailureKind
  | absentNode | unknownKind _ => .invalidValue
  | absentProperty => .missingAttribute
  | incomparable | misplaced | noCode => .wrongType

end TreeFault

namespace OptionError

def kind : OptionError → FailureKind
  | noElements _ => .wrongType
  | misplaced _ => .missingAttribute
  | _ => .invalidValue

end OptionError

namespace EmitFault

def kind : EmitFault → FailureKind
  | underflow .. | negativeIndex .. | neverUsed _ | missing => .missingIndex
  | unbalanced .. | invalidOpcode .. | leaveOutsideLoop .. => .brokenInvariant

end EmitFault

namespace ModuleFault

def kind : ModuleFault → FailureKind
  | body fault => fault.kind
  | classText _ | notLowered => .wrongType
  | unknownExpectation _ => .invalidValue
  | dependencies _ | dependencyPath _ => .missingAttribute

end ModuleFault

namespace LoadFault

def kind : LoadFault → FailureKind
  | tooDeep _ => .deepIndentation
  | _ => .unreadableCode

end LoadFault

namespace Failure

def kind : Failure → FailureKind
  | rejected _ => .rejection
  | options error => error.kind
  | tree fault => fault.kind
  | startRule _ | deafCollector | nothingEmitted => .wrongType
  | unknownLabel _ => .missingKey
  | emission fault => fault.kind
  | hiddenExports => .missingAttribute
  | unreadableClass => .unreadablePattern
  | loading fault => fault.kind
  | unreadableCode => .unreadableCode

def message : Failure → Text
  | rejected rejection => rejection.text
  | options error => error.message
  | tree fault => fault.message
  | startRule value => "Not a rule name: " ++ value.shown
  | unknownLabel label => label.value.written
  | emission fault => fault.message
  | deafCollector => "collector must provide at least one of emit_fatal_error, emit_error, "
      ++ "emit_warning, emit_info"
  | nothingEmitted => "No module was emitted"
  | loading fault => fault.message
  | hiddenExports => "The list of exported names is hidden"
  | unreadableClass => "A class has no readable pattern"
  | unreadableCode => "User code is not readable"

end Failure

end PegCompiler
