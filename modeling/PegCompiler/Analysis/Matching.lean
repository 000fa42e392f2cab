import PegCompiler.Check.Names

/-!
Match inference: every node and every rule gets a verdict, which says whether it always matches,
never matches, or may do either. A rule is solved by going over its body until its verdict stays;
a reference to a rule that is being solved sees the verdict reached so far, at first the open one.
A verdict that still changes after `maxRevisits` rounds is reported and left open.
-/

namespace PegCompiler

namespace Matching

def maxRevisits : Nat := 6

/-- A node may be left without a verdict: an initializer that stands for an expression is, and so is
what has nothing else to go by. -/
abbrev Inferred := Except TreeFault (Option Verdict)

/-- All are the `wanted` verdict. Behind one that is not, nothing is looked at. -/
def allAre (wanted : Verdict) : List (Option Verdict) → Except TreeFault Bool
  | [] => .ok true
  | none :: _ => .error .incomparable
  | some v :: rest => if v = wanted then allAre wanted rest else .ok false

/-- One is the `wanted` verdict. Behind it nothing is looked at. -/
def anyIs (wanted : Verdict) : List (Option Verdict) → Except TreeFault Bool
  | [] => .ok false
  | none :: _ => .error .incomparable
  | some v :: rest => if v = wanted then .ok true else anyIs wanted rest

def ofSequence (verdicts : List (Option Verdict)) : Inferred := do
  if ← allAre .always verdicts then return some .always
  if ← anyIs .never verdicts then return some .never
  return some .sometimes

def ofChoice (verdicts : List (Option Verdict)) : Inferred := do
  if ← allAre .always verdicts then return some .always
  if ← allAre .never verdicts then return some .never
  return some .sometimes

/-- A range by its bounds and the verdicts of its body and its delimiter. -/
def ofRange (min max : Boundary) (body delimiter : Option Verdict) : Inferred :=
  match min, max with
  | .label _, _ | _, .label _ => .ok (some .sometimes)
  | .constant limit, _ =>
    if limit.isVoid then .ok (some .always)
    else if limit = .number 1 || delimiter.isNone then .ok body
    else ofSequence [body, delimiter]

/-- An operator by the verdict of its body. -/
def ofOperator (operator : Operator) (body : Option Verdict) : Inferred :=
  match operator with
  | .optional | .zeroOrMore => .ok (some .always)
  | .notFollowedBy =>
    match body with
    | some v => .ok (some v.neg)
    | none => .error .incomparable
  | .text | .followedBy | .oneOrMore | .group => .ok body

structure Progress where
  rules : List Rule
  found : List Diagnostic

abbrev Infer := StateM Progress

/-- The node takes the verdict, if there was no fault below it. -/
def conclude (e : Expr) (verdict : Inferred) : Expr × Inferred :=
  match verdict with
  | .ok v => (e.setVerdict v, .ok v)
  | .error _ => (e, verdict)

mutual

/-- `e` with the verdicts of all its nodes; `ofRule` solves the rule that a reference names. -/
def expr (ofRule : Text → Infer Inferred) : Expr → Infer (Expr × Inferred)
  | .literal info value ignoreCase => do
    let verdict := if value.isEmpty then .always else .sometimes
    return conclude (.literal info value ignoreCase) (.ok (some verdict))
  | .charClass info members => do
    let verdict := if members.parts.isEmpty then .never else .sometimes
    return conclude (.charClass info members) (.ok (some verdict))
  | .any info => return conclude (.any info) (.ok (some .sometimes))
  | .predicate info negative code =>
    return conclude (.predicate info negative code) (.ok (some .sometimes))
  | .ruleRef info name => return conclude (.ruleRef info name) (← ofRule name)
  | .sequence info elements => do
    let (elements, verdicts) ← exprs ofRule elements
    return conclude (.sequence info elements) (verdicts.bind ofSequence)
  | .choice info alternatives => do
    let (alternatives, verdicts) ← exprs ofRule alternatives
    return conclude (.choice info alternatives) (verdicts.bind ofChoice)
  | .labeled info label labelLocation auto body => do
    let (body, verdict) ← expr ofRule body
    return conclude (.labeled info label labelLocation auto body) verdict
  | .unary info operator body => do
    let (body, verdict) ← expr ofRule body
    return conclude (.unary info operator body) (verdict.bind (ofOperator operator))
  | .range info min max body delimiter => do
    let (body, verdict) ← expr ofRule body
    match delimiter with
    | none =>
      return conclude (.range info min max body none) (verdict.bind (ofRange min max · none))
    | some separator =>
      match verdict with
      | .error fault => return (.range info min max body (some separator), .error fault)
      | .ok v => do
        let (separator, between) ← expr ofRule separator
        return conclude (.range info min max body (some separator))
          (between.bind (ofRange min max v))
  | .named info name body => do
    let (body, verdict) ← expr ofRule body
    return conclude (.named info name body) verdict
  | .action info code codeLocation body => do
    let (body, verdict) ← expr ofRule body
    return conclude (.action info code codeLocation body) verdict
  | .foreign what =>
    return (.foreign what, match what.fault? with
      | some fault => .error fault
      | none => .ok none)

/-- Nodes in a row; behind a fault they stay as they are. -/
def exprs (ofRule : Text → Infer Inferred) :
    List Expr → Infer (List Expr × Except TreeFault (List (Option Verdict)))
  | [] => return ([], .ok [])
  | e :: rest => do
    let (e, verdict) ← expr ofRule e
    match verdict with
    | .error fault => return (e :: rest, .error fault)
    | .ok v =>
      let (rest, verdicts) ← exprs ofRule rest
      return (e :: rest, verdicts.map (v :: ·))

end

def setRule (index : Nat) (change : Rule → Rule) : Infer Unit :=
  modify fun progress => { progress with rules := progress.rules.modify index change }

/-- Goes over the body of the rule at `index` until the verdict equals the `previous` one. -/
def settle (ofRule : Text → Infer Inferred) (index : Nat) (rule : Rule) :
    (revisits : Nat) → (body : Expr) → (previous : Option Verdict) → Infer Inferred
  | revisits, body, previous => do
    let (body, verdict) ← expr ofRule body
    setRule index fun r => { r with body }
    match verdict with
    | .error fault => return .error fault
    | .ok v =>
      setRule index fun r => { r with verdict := v }
      if v = previous then return .ok v
      else match revisits with
        | revisits + 1 => settle ofRule index rule revisits body v
        | 0 =>
          setRule index fun r => { r with verdict := some .sometimes }
          modify fun progress => { progress with
            found := progress.found ++ [⟨.unsettledVerdict rule.name, rule.location⟩] }
          return .ok (some .sometimes)

/-- The verdict of the rule at `index`. Solving it first gives it the open verdict, so that every
rule is solved once and the number of rules bounds `depth`. -/
def ofIndex : (depth : Nat) → (index : Nat) → Infer Inferred
  | 0, _ => return .ok (some .sometimes)
  | depth + 1, index => do
    let g : Grammar := { rules := (← get).rules }
    match g.rules[index]? with
    | none => return .ok (some .sometimes)
    | some rule =>
      match rule.verdict with
      | some v => return .ok (some v)
      | none =>
        setRule index fun r => { r with verdict := some .sometimes }
        let ofRule (name : Text) : Infer Inferred :=
          match g.indexOf? name with
          | some target => ofIndex depth target
          | none => return .ok (some .sometimes)
        settle ofRule index rule maxRevisits rule.body (some .sometimes)

/-- Solves `count` rules from place `index` on. -/
def solveFrom (depth : Nat) : (count index : Nat) → Infer (Option TreeFault)
  | 0, _ => return none
  | count + 1, index => do
    match ← ofIndex depth index with
    | .error fault => return some fault
    | .ok _ => solveFrom depth count (index + 1)

def annotate (g : Grammar) : Grammar × List Diagnostic × Option TreeFault :=
  let count := g.rules.length
  let (fault, progress) := (solveFrom (count + 1) count 0).run ⟨g.rules, []⟩
  ({ g with rules := progress.rules }, progress.found, fault)

end Matching

end PegCompiler
