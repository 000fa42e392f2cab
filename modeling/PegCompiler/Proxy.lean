import PegCompiler.Check.Names

/-!
Proxy rules. A rule whose body is a single reference stands for the rule it refers to. References
to it are redirected there, in the order of the rules, so that a chain of proxies ends at its last
target; then the proxies go, except start rules.
-/

namespace PegCompiler

namespace Proxy

mutual

/-- `e` with its references to `proxy` redirected to `target`, and what was redirected. Nothing
behind a fault is changed. -/
def redirect (proxy target : Text) : Expr → Expr × Trail Diagnostic
  | .ruleRef info name =>
    if name = proxy then
      (.ruleRef info target, [.ok ⟨.proxyReplaced proxy target, info.location⟩])
    else (.ruleRef info name, [])
  | .sequence info elements =>
    let (elements, found) := redirectAll proxy target elements
    (.sequence info elements, found)
  | .choice info alternatives =>
    let (alternatives, found) := redirectAll proxy target alternatives
    (.choice info alternatives, found)
  | .labeled info label labelLocation auto body =>
    let (body, found) := redirect proxy target body
    (.labeled info label labelLocation auto body, found)
  | .unary info operator body =>
    let (body, found) := redirect proxy target body
    (.unary info operator body, found)
  | .range info min max body delimiter =>
    match delimiter with
    | none =>
      let (body, found) := redirect proxy target body
      (.range info min max body none, found)
    | some separator =>
      let (separator, before) := redirect proxy target separator
      if before.fault?.isSome then (.range info min max body (some separator), before)
      else
        let (body, found) := redirect proxy target body
        (.range info min max body (some separator), before ++ found)
  | .named info name body =>
    let (body, found) := redirect proxy target body
    (.named info name body, found)
  | .action info code codeLocation body =>
    let (body, found) := redirect proxy target body
    (.action info code codeLocation body, found)
  | .foreign what => (.foreign what, Trail.ofForeign what)
  | leaf => (leaf, [])

def redirectAll (proxy target : Text) : List Expr → List Expr × Trail Diagnostic
  | [] => ([], [])
  | e :: rest =>
    let (e, before) := redirect proxy target e
    if before.fault?.isSome then (e :: rest, before)
    else
      let (rest, found) := redirectAll proxy target rest
      (e :: rest, before ++ found)

end

def redirectRules (proxy target : Text) : List Rule → List Rule × Trail Diagnostic
  | [] => ([], [])
  | rule :: rest =>
    let (body, before) := redirect proxy target rule.body
    let rule := { rule with body }
    if before.fault?.isSome then (rule :: rest, before)
    else
      let (rest, found) := redirectRules proxy target rest
      (rule :: rest, before ++ found)

/-- The target of a proxy rule. -/
def target? (rule : Rule) : Except TreeFault (Option Text) :=
  match rule.body with
  | .ruleRef _ name => .ok (some name)
  | .foreign .nothing => .error .absentProperty
  | _ => .ok none

/-- Looks at the rules from place `index` on, `count` of them. `removed` are the places of the
proxies to be dropped. -/
def resolveFrom (startRules : List Value) :
    (count index : Nat) → (removed : List Nat) → List Rule →
    List Rule × List Nat × Trail Diagnostic
  | 0, _, removed, rules => (rules, removed, [])
  | count + 1, index, removed, rules =>
    match rules[index]? with
    | none => (rules, removed, [])
    | some rule =>
      match target? rule with
      | .error fault => (rules, removed, [.error fault])
      | .ok none => resolveFrom startRules count (index + 1) removed rules
      | .ok (some target) =>
        let (rules, before) := redirectRules rule.name target rules
        if before.fault?.isSome then (rules, removed, before)
        else
          let kept := startRules.any (·.same (.text rule.name))
          let removed := if kept then removed else index :: removed
          let (rules, removed, found) := resolveFrom startRules count (index + 1) removed rules
          (rules, removed, before ++ found)

/-- The rules without those at the places in `removed`. -/
def drop (removed : List Nat) (rules : List Rule) : List Rule :=
  (rules.zipIdx.filter fun (_, index) => !removed.contains index).map Prod.fst

def resolve (g : Grammar) (startRules : List Value) : Grammar × Trail Diagnostic :=
  let (rules, removed, found) := resolveFrom startRules g.rules.length 0 [] g.rules
  match found.fault? with
  | some _ => ({ g with rules }, found)
  | none => ({ g with rules := drop removed rules }, found)

end Proxy

end PegCompiler
