import PegCompiler.Grammar.Basic
import PegCompiler.Value.Basic

/-!
What the compiler has to say about a grammar. A finding is a cause; its severity and its wording
follow from it. A diagnostic is a finding with the place it concerns.
-/

namespace PegCompiler

inductive Severity
  | fatal
  | error
  | warning
  | info
  deriving DecidableEq, Repr

inductive Finding
  | undefinedRule (name : Text)
  | undefinedStartRule (name : Value)
  | duplicateRule (name : Text) (first : Option Location)
  | unusedRule (name : Text)
  | duplicateLabel (label : Text) (first : Option Location)
  | undefinedLabel (label : Value)
  | ambiguousLabel (label : Option Text)
  | leftRecursion (path : List Text)
  | idleRepetition (endless : Bool)
  | unsettledVerdict (rule : Text)
  | proxyReplaced (proxy target : Text)
  | stageStarted (stage : Text)
  | passStarted (index : Nat)
  | note (severity : Severity) (message : Text)
  deriving Repr

namespace Finding

def severity : Finding → Severity
  | undefinedRule _ | undefinedStartRule _ | duplicateRule .. | duplicateLabel ..
  | undefinedLabel _ | ambiguousLabel _ | leftRecursion _ => .error
  | idleRepetition endless => if endless then .error else .warning
  | unusedRule _ | unsettledVerdict _ => .warning
  | proxyReplaced .. | stageStarted _ | passStarted _ => .info
  | note severity _ => severity

def place : Option Location → Text
  | none => "elsewhere"
  | some location => "at line " ++ Text.ofInt location.start.line ++ ", column "
      ++ Text.ofInt location.start.column

def message : Finding → Text
  | undefinedRule name => "Rule \"" ++ name ++ "\" is not defined."
  | undefinedStartRule name => "Start rule \"" ++ name.shown ++ "\" is not defined."
  | duplicateRule name first => "Rule \"" ++ name ++ "\" is already defined " ++ place first ++ "."
  | unusedRule name => "Rule \"" ++ name ++ "\" not used."
  | duplicateLabel label first =>
    "Label \"" ++ label ++ "\" is already defined " ++ place first ++ "."
  | undefinedLabel label => "Label \"" ++ label.shown ++ "\" is not defined."
  | ambiguousLabel label =>
    let shown : Text := match label with
      | none | some [] => []
      | some label => "\"" ++ label ++ "\" "
    "Automatic label " ++ shown ++ "can not be used together with an action."
  | leftRecursion path =>
    "Possible infinite loop when parsing (left recursion: " ++ Text.join " -> " path ++ ")."
  | idleRepetition _ =>
    "Possible infinite loop when parsing "
      ++ "(repetition used with an expression that may not consume any input)."
  | unsettledVerdict rule =>
    "Infinity cycle detected when trying to evaluate match result of rule \"" ++ rule ++ "\"."
  | proxyReplaced proxy target =>
    "Proxy rule " ++ proxy ++ " replaced to rule " ++ target ++ "."
  | stageStarted stage => "Process stage '" ++ stage ++ "'..."
  | passStarted index => " -> Process pass " ++ Text.ofNat index
  | note _ message => message

end Finding

structure Diagnostic where
  finding : Finding
  location : Option Location := none
  deriving Repr

namespace Diagnostic

def severity (diagnostic : Diagnostic) : Severity := diagnostic.finding.severity

def message (diagnostic : Diagnostic) : Text := diagnostic.finding.message

end Diagnostic

end PegCompiler
