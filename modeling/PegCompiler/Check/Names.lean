import PegCompiler.Diagnostic
import PegCompiler.Grammar.Walk

/-!
Checks of rule names: every reference and every start rule names a rule, no two rules have one
name, and every rule is referred to or a start rule.
-/

namespace PegCompiler

namespace Grammar

/-- What a walk over the bodies of all rules finds, rule by rule. -/
def trail {α : Type} (g : Grammar) (ofBody : Expr → Trail α) : Trail α :=
  g.rules.flatMap fun rule => ofBody rule.body

/-- The references of the whole grammar. -/
def references (g : Grammar) : Trail (Text × Option Location) :=
  g.trail (Expr.references fun _ => false)

def defines (g : Grammar) (name : Text) : Bool := (g.find? name).isSome

/-- A start rule may be any value; only a text can name a rule. -/
def definesStart (g : Grammar) : Value → Bool
  | .text name => g.defines name
  | _ => false

end Grammar

namespace Check

def undefinedReferences (g : Grammar) : Trail Diagnostic :=
  g.references.flatMap fun
    | .error fault => [.error fault]
    | .ok (name, location) =>
      if g.defines name then [] else [.ok ⟨.undefinedRule name, location⟩]

def undefinedRules (g : Grammar) (startRules : List Value) : Trail Diagnostic :=
  undefinedReferences g ++ (startRules.filter (!g.definesStart ·)).map fun name =>
    .ok ⟨.undefinedStartRule name, none⟩

/-- `seen` maps the names of the rules so far to the latest location of each. -/
def duplicateRulesAfter (seen : List (Text × Option Location)) : List Rule → List Diagnostic
  | [] => []
  | rule :: rest =>
    let here := match seen.lookup rule.name with
      | some first => [⟨.duplicateRule rule.name first, rule.location⟩]
      | none => []
    here ++ duplicateRulesAfter ((rule.name, rule.location) :: seen) rest

def duplicateRules (g : Grammar) : List Diagnostic := duplicateRulesAfter [] g.rules

/-- The rules that nothing names, given all references. -/
def unusedAmong (g : Grammar) (startRules : List Value) (used : List Text) : List Diagnostic :=
  (g.rules.filter fun rule =>
    !used.contains rule.name && !startRules.any (·.same (.text rule.name))).map fun rule =>
      ⟨.unusedRule rule.name, rule.location⟩

/-- Nothing is reported unless all references can be reached. -/
def unusedRules (g : Grammar) (startRules : List Value) : Trail Diagnostic :=
  match g.references.cut with
  | (_, some fault) => [.error fault]
  | (used, none) => (unusedAmong g startRules (used.map Prod.fst)).map .ok

end Check

end PegCompiler
