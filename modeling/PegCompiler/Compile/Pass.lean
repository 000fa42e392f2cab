import PegCompiler.Analysis.Matching
import PegCompiler.Analysis.Reporting
import PegCompiler.Check.Labels
import PegCompiler.Check.Progress
import PegCompiler.Compile.Failure
import PegCompiler.Proxy

/-!
The passes over a grammar. A pass gives the grammar as it leaves it, what it found, and the failure
that stopped it, if there was one; what a stopped pass had changed and found by then still counts.
-/

namespace PegCompiler

inductive Pass
  | undefinedRules
  | duplicateRules
  | duplicateLabels
  | ambiguousLabels
  | leftRecursion
  | idleRepetitions
  | unusedRules
  | proxies
  | reporting
  | matching
  | lowering
  | emission
  deriving DecidableEq, Repr

structure PassResult where
  grammar : Grammar
  found : List Diagnostic := []
  failure : Option Failure := none

namespace Pass

def all : List Pass := [
  undefinedRules, duplicateRules, duplicateLabels, ambiguousLabels, leftRecursion,
  idleRepetitions, unusedRules, proxies, reporting, matching, lowering, emission]

/-- The name of a pass in requests and in logs. -/
def name : Pass → Text
  | undefinedRules => "report_undefined_rules"
  | duplicateRules => "report_duplicate_rules"
  | duplicateLabels => "report_duplicate_labels"
  | ambiguousLabels => "report_ambiguous_labels"
  | leftRecursion => "report_infinite_recursion"
  | idleRepetitions => "report_infinite_repetition"
  | unusedRules => "report_unused_rules"
  | proxies => "remove_proxy_rules"
  | reporting => "calc_report_failures"
  | matching => "inference_match_result"
  | lowering => "generate_bytecode"
  | emission => "generate_python"

def ofName? (name : Text) : Option Pass := all.find? (·.name = name)

/-- The result of a check, which leaves the grammar alone. -/
def checked (g : Grammar) (trail : Trail Diagnostic) : PassResult :=
  let (found, fault) := trail.cut
  ⟨g, found, fault.map .tree⟩

/-- A start rule that names cannot be compared with. -/
def unusable? (startRules : List Value) : Option Value :=
  startRules.find? Value.isCollection

def run (settings : Settings) (g : Grammar) : Pass → PassResult
  | undefinedRules => checked g (Check.undefinedRules g settings.startRules)
  | duplicateRules => ⟨g, Check.duplicateRules g, none⟩
  | duplicateLabels => checked g (Check.duplicateLabels g)
  | ambiguousLabels => checked g (Check.ambiguousLabels g)
  | leftRecursion => checked g (Check.leftRecursion g)
  | idleRepetitions => checked g (Check.idleRepetitions g)
  | unusedRules =>
    match unusable? settings.startRules with
    | some value => ⟨g, [], some (.startRule value)⟩
    | none => checked g (Check.unusedRules g settings.startRules)
  | proxies =>
    let (resolved, trail) := Proxy.resolve g settings.startRules
    checked resolved trail
  | reporting =>
    let (annotated, fault) := Reporting.annotate g settings.startRules
    ⟨annotated, [], fault.map .tree⟩
  | matching =>
    let (annotated, found, fault) := Matching.annotate g
    ⟨annotated, found, fault.map .tree⟩
  | lowering =>
    let (lowered, fault) := g.lower
    ⟨lowered, [], fault.map fun
      | .tree fault => .tree fault
      | .unknownLabel label => .unknownLabel label⟩
  | emission =>
    match g.emit settings with
    | .ok code => { grammar := { g with code := some code } }
    | .error fault => ⟨g, [], some (.emission fault)⟩

end Pass

end PegCompiler
