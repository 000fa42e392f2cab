import PegCompiler.Check.Names

/-!
Which rules record what they expected where they failed: the start rules, and every rule that such
a rule refers to outside a display name. A display name stands for all that is expected below it,
so rules reached only from there stay silent.
-/

namespace PegCompiler

namespace Reporting

/-- The marks of the rules, by their places, and the places of marked rules still to be looked
into, the next one first. -/
structure Progress where
  marks : List Bool
  pending : List Nat

/-- Marks the rule at `index` and keeps it to be looked into, unless it is marked. -/
def Progress.mark (progress : Progress) (index : Nat) : Progress :=
  if progress.marks[index]?.getD true then progress
  else ⟨progress.marks.set index true, index :: progress.pending⟩

def markTargets (g : Grammar) (names : List Text) (progress : Progress) : Progress :=
  (names.filterMap g.indexOf?).foldl Progress.mark progress

/-- Looks into the marked rules; a rule is kept only when it is marked, which bounds `rounds`. -/
def spread (g : Grammar) : (rounds : Nat) → Progress → Progress × Option TreeFault
  | 0, progress => (progress, none)
  | rounds + 1, progress =>
    match progress.pending with
    | [] => (progress, none)
    | index :: pending =>
      match g.rules[index]? with
      | none => (progress, none)
      | some rule =>
        let (found, fault) := (rule.body.references Expr.isNamed).cut
        let progress := markTargets g (found.map Prod.fst) { progress with pending }
        match fault with
        | some fault => (progress, some fault)
        | none => spread g rounds progress

/-- The places of the start rules, in their order. -/
def startPlaces (g : Grammar) (startRules : List Value) : List Nat :=
  startRules.filterMap fun
    | .text name => g.indexOf? name
    | _ => none

/-- Every start rule is marked and looked into once for each time that it is named. -/
def start (g : Grammar) (startRules : List Value) : Progress :=
  let places := startPlaces g startRules
  ⟨g.rules.mapIdx fun index _ => places.contains index, places.reverse⟩

def annotate (g : Grammar) (startRules : List Value) : Grammar × Option TreeFault :=
  let (progress, fault) := spread g (startRules.length + g.rules.length) (start g startRules)
  let rules := g.rules.zipWith (fun rule mark => { rule with reportsFailures := some mark })
    progress.marks
  ({ g with rules }, fault)

end Reporting

end PegCompiler
