import PegCompiler.Analysis.Consumption
import PegCompiler.Check.Names

/-!
Checks that every parse gets on: no rule can call itself at the place where it was called, and no
repetition can go round without consuming input.
-/

namespace PegCompiler

namespace Check

/-- `go` with an answer of the consumption analysis, or the fault it met. -/
def deciding {α : Type} (answer : Decision) (go : Bool → Trail α) : Trail α :=
  match answer with
  | .ok truth => go truth
  | .error fault => [.error fault]

mutual

/-- The findings at the places of an expression that are reached where it starts. `visited` are the
rules being followed, outermost first, and `enter` follows one more. -/
def leftCalls (g : Grammar) (enter : List Text → Rule → Trail Diagnostic) (visited : List Text) :
    Expr → Trail Diagnostic
  | .ruleRef info name =>
    if visited.contains name then [.ok ⟨.leftRecursion (visited ++ [name]), info.location⟩]
    else match g.find? name with
      | some found => enter visited found
      | none => []
  | .sequence _ elements => leftCallsInOrder g enter visited elements
  | .choice _ alternatives => leftCallsApart g enter visited alternatives
  | .labeled _ _ _ _ body => leftCalls g enter visited body
  | .unary _ _ body => leftCalls g enter visited body
  | .range _ _ _ body delimiter =>
    leftCalls g enter visited body ++ (match delimiter with
      | none => []
      | some separator => deciding (g.consumes body) fun consumes =>
          if consumes then [] else leftCalls g enter visited separator)
  | .named _ _ body => leftCalls g enter visited body
  | .action _ _ _ body => leftCalls g enter visited body
  | .foreign what => Trail.ofForeign what
  | _ => []

/-- The elements of a sequence up to the first one that always consumes. -/
def leftCallsInOrder (g : Grammar) (enter : List Text → Rule → Trail Diagnostic)
    (visited : List Text) : List Expr → Trail Diagnostic
  | [] => []
  | e :: rest =>
    leftCalls g enter visited e ++ deciding (g.consumes e) fun consumes =>
      if consumes then [] else leftCallsInOrder g enter visited rest

def leftCallsApart (g : Grammar) (enter : List Text → Rule → Trail Diagnostic)
    (visited : List Text) : List Expr → Trail Diagnostic
  | [] => []
  | e :: rest => leftCalls g enter visited e ++ leftCallsApart g enter visited rest

end

/-- Follows a rule. The rules being followed have different names, so their number is bounded. -/
def followRule (g : Grammar) : Nat → List Text → Rule → Trail Diagnostic
  | 0, _, _ => []
  | depth + 1, visited, rule => leftCalls g (followRule g depth) (visited ++ [rule.name]) rule.body

def leftRecursion (g : Grammar) : Trail Diagnostic :=
  g.rules.flatMap (followRule g (g.rules.length + 1) [])

/-- The finding at a node that repeats something. -/
def idleAt (g : Grammar) (e : Expr) : Trail Diagnostic :=
  match e with
  | .unary info .zeroOrMore body | .unary info .oneOrMore body =>
    deciding (g.consumes body) fun consumes =>
      if consumes then [] else [.ok ⟨.idleRepetition true, info.location⟩]
  | .range info _ max body delimiter =>
    let progresses := Consumption.orElse (g.consumes body) (match delimiter with
      | none => .ok false
      | some separator => g.consumes separator)
    deciding progresses fun progresses =>
      if progresses then [] else [.ok ⟨.idleRepetition (max.limit == .absent), info.location⟩]
  | _ => []

def idleRepetitions (g : Grammar) : Trail Diagnostic :=
  g.trail (Expr.trail (fun _ => false) (idleAt g))

end Check

end PegCompiler
