import PegCompiler.Grammar.Walk

/-!
Whether every successful match of an expression moves forward in the input. The answer errs to one
side only: a rule that is already being looked into counts as not consuming, and so does a rule
that is not defined.
-/

namespace PegCompiler

abbrev Decision := Except TreeFault Bool

namespace Consumption

/-- The second answer is asked for only if the first one is no. -/
@[macro_inline]
def orElse (first second : Decision) : Decision :=
  match first with
  | .ok false => second
  | decided => decided

/-- The second answer is asked for only if the first one is yes. -/
@[macro_inline]
def andAlso (first second : Decision) : Decision :=
  match first with
  | .ok true => second
  | decided => decided

mutual

/-- `ofRule` answers for a reference. Repetitions that cannot all be empty consume if the body does;
from the second one on the delimiter counts too. -/
def expr (ofRule : Text → Decision) : Expr → Decision
  | .literal _ value _ => .ok !value.isEmpty
  | .charClass _ members => .ok !members.parts.isEmpty
  | .any _ => .ok true
  | .ruleRef _ name => ofRule name
  | .sequence _ elements => anyOf ofRule elements
  | .choice _ alternatives => allOf ofRule alternatives
  | .labeled _ _ _ _ body => expr ofRule body
  | .unary _ operator body =>
    match operator with
    | .text | .oneOrMore | .group => expr ofRule body
    | .followedBy | .notFollowedBy | .optional | .zeroOrMore => .ok false
  | .range _ min _ body delimiter =>
    match min with
    | .label _ | .count 0 => .ok false
    | .count n => orElse (expr ofRule body) (match delimiter with
        | none => .ok false
        | some separator => if 1 < n then expr ofRule separator else .ok false)
    | .constant _ => orElse (expr ofRule body) (.error .incomparable)
  | .named _ _ body => expr ofRule body
  | .action _ _ _ body => expr ofRule body
  | .predicate .. => .ok false
  | .foreign what => match what.fault? with
    | some fault => .error fault
    | none => .ok false

def anyOf (ofRule : Text → Decision) : List Expr → Decision
  | [] => .ok false
  | e :: rest => orElse (expr ofRule e) (anyOf ofRule rest)

def allOf (ofRule : Text → Decision) : List Expr → Decision
  | [] => .ok true
  | e :: rest => andAlso (expr ofRule e) (allOf ofRule rest)

end

/-- The answer for a reference while the rules in `active` are being looked into. Every step makes
one more rule active, so the number of rules bounds the depth. -/
def reference (g : Grammar) : Nat → List Text → Text → Decision
  | 0, _, _ => .ok false
  | depth + 1, active, name =>
    match g.find? name with
    | none => .ok false
    | some found =>
      if active.contains found.name then .ok false
      else expr (reference g depth (found.name :: active)) found.body

/-- `e` is nothing but an initializer, wrapped or referred to. -/
def isSilent (ofRule : Text → Bool) : Expr → Bool
  | .ruleRef _ name => ofRule name
  | .labeled _ _ _ _ body => isSilent ofRule body
  | .unary _ operator body =>
    match operator with
    | .text | .oneOrMore | .group => isSilent ofRule body
    | .followedBy | .notFollowedBy | .optional | .zeroOrMore => false
  | .named _ _ body => isSilent ofRule body
  | .action _ _ _ body => isSilent ofRule body
  | .foreign .initializer => true
  | _ => false

/-- The same for a reference, while the rules in `active` are being looked into. -/
def silentReference (g : Grammar) : Nat → List Text → Text → Bool
  | 0, _, _ => false
  | depth + 1, active, name =>
    match g.find? name with
    | none => false
    | some found =>
      !active.contains found.name
        && isSilent (silentReference g depth (found.name :: active)) found.body

end Consumption

namespace Grammar

/-- Every successful match of `e` consumes input. -/
def consumes (g : Grammar) (e : Expr) : Decision :=
  Consumption.expr (Consumption.reference g g.rules.length []) e

/-- The answer that a caller gets. Where an expression comes down to an initializer there is none,
which the analysis counts as a no. -/
def consumes? (g : Grammar) (e : Expr) : Except TreeFault (Option Bool) := do
  let answer ← g.consumes e
  return if Consumption.isSilent (Consumption.silentReference g g.rules.length []) e then none
    else some answer

end Grammar

end PegCompiler
