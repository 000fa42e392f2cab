import PegCompiler.Grammar.Basic

/-!
Walking the nodes of an expression. A walk goes from a node to its children in order, except that a
range has its delimiter before its body. It cannot pass a node that is not an expression, unless it
is an initializer, which has nothing below it: such a node is a fault, and what was found before it
still counts. So the outcome of a walk is a list in which faults may stand, to be cut at the first
one.
-/

namespace PegCompiler

inductive TreeFault
  | absentNode
  | unknownKind (kind : Text)
  /-- A property was asked of a node that is absent or does not have it. -/
  | absentProperty
  /-- A bound or a verdict that is no number was compared with one. -/
  | incomparable
  /-- A node stands where a node of its level cannot be dealt with. -/
  | misplaced
  /-- Code was needed of a node that has none. -/
  | noCode
  deriving DecidableEq, Repr

/-- The fault that a walk meets in the place of an expression. -/
def Stranger.fault? : Stranger → Option TreeFault
  | nothing => some .absentNode
  | initializer => none
  | rule | grammar => some .absentProperty
  | unknown kind => some (.unknownKind kind)

/-- Things found one after the other, and faults. -/
abbrev Trail (α : Type) := List (Except TreeFault α)

namespace Trail

/-- What was found up to the first fault, and that fault. -/
def cut {α : Type} : Trail α → List α × Option TreeFault
  | [] => ([], none)
  | .error fault :: _ => ([], some fault)
  | .ok found :: rest => let (others, fault) := cut rest; (found :: others, fault)

def fault? {α : Type} (trail : Trail α) : Option TreeFault := (cut trail).2

/-- The trail of a node that is not an expression. -/
def ofForeign {α : Type} (what : Stranger) : Trail α := what.fault?.toList.map .error

end Trail

namespace Expr

mutual

/-- Finds `here` at every node, parents before children; below a pruned node nothing is visited. -/
def trail {α : Type} (prune : Expr → Bool) (here : Expr → Trail α) : Expr → Trail α
  | foreign what => Trail.ofForeign what
  | e =>
    here e ++ if prune e then [] else match e with
      | sequence _ elements => trailAll prune here elements
      | choice _ alternatives => trailAll prune here alternatives
      | labeled _ _ _ _ body => trail prune here body
      | unary _ _ body => trail prune here body
      | range _ _ _ body delimiter =>
        (match delimiter with
          | none => []
          | some separator => trail prune here separator) ++ trail prune here body
      | named _ _ body => trail prune here body
      | action _ _ _ body => trail prune here body
      | _ => []

def trailAll {α : Type} (prune : Expr → Bool) (here : Expr → Trail α) : List Expr → Trail α
  | [] => []
  | e :: rest => trail prune here e ++ trailAll prune here rest

end

/-- The rule references of an expression with their locations, those below a pruned node apart. -/
def references (prune : Expr → Bool) (e : Expr) : Trail (Text × Option Location) :=
  e.trail prune fun
    | ruleRef info name => [.ok (name, info.location)]
    | _ => []

def isNamed : Expr → Bool
  | named .. => true
  | _ => false

/-- The name of a node's kind. -/
def kind : Expr → Text
  | literal .. => "literal"
  | charClass .. => "class"
  | any .. => "any"
  | ruleRef .. => "rule_ref"
  | sequence .. => "sequence"
  | choice .. => "choice"
  | labeled .. => "labeled"
  | unary _ operator _ => operator.kind
  | range .. => "range"
  | named .. => "named"
  | action .. => "action"
  | predicate _ negative _ => if negative then "semantic_not" else "semantic_and"
  | foreign what => what.kind

end Expr

/-- A visit that stops at the nodes of some kinds: those it met, in order, and the kind that the
visit of the whole node ended with, unless it met a fault. -/
structure Visit where
  seen : List Text
  outcome : Except TreeFault (Option Text)

namespace Visit

def nothing : Visit := ⟨[], .ok none⟩

/-- First one visit and then, if it met no fault, the other; the second one's outcome counts. -/
def andThen (first : Visit) (second : Visit) : Visit :=
  match first.outcome with
  | .error _ => first
  | .ok _ => ⟨first.seen ++ second.seen, second.outcome⟩

mutual

def expr (stops : Text → Bool) : Expr → Visit
  | .foreign what =>
    if what != .nothing && stops what.kind then ⟨[what.kind], .ok (some what.kind)⟩
    else ⟨[], match what.fault? with
      | some fault => .error fault
      | none => .ok none⟩
  | e =>
    if stops e.kind then ⟨[e.kind], .ok (some e.kind)⟩
    else match e with
      | .sequence _ elements => all stops elements
      | .choice _ alternatives => all stops alternatives
      | .labeled _ _ _ _ body => expr stops body
      | .unary _ _ body => expr stops body
      | .range _ _ _ body delimiter =>
        (match delimiter with
          | none => nothing
          | some separator => expr stops separator).andThen (expr stops body)
      | .named _ _ body => expr stops body
      | .action _ _ _ body => expr stops body
      | _ => nothing

/-- Several nodes in a row end with no kind. -/
def all (stops : Text → Bool) : List Expr → Visit
  | [] => nothing
  | e :: rest => (expr stops e).andThen (all stops rest)

end

def rule (stops : Text → Bool) (r : Rule) : Visit :=
  if stops "rule" then ⟨["rule"], .ok (some "rule")⟩ else expr stops r.body

def rules (stops : Text → Bool) (rs : List Rule) : Visit :=
  rs.foldr (fun r rest => (rule stops r).andThen rest) nothing

def grammar (stops : Text → Bool) (g : Grammar) : Visit :=
  if stops "grammar" then ⟨["grammar"], .ok (some "grammar")⟩
  else
    let before : Visit := match g.initializer with
      | some _ => if stops "initializer" then ⟨["initializer"], .ok (some "initializer")⟩ else nothing
      | none => nothing
    before.andThen (rules stops g.rules)

end Visit

end PegCompiler
