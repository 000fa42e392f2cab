import Mathlib.Logic.Function.Basic
import PegCompiler.Emit.Body

/-!
A machine that runs words with a real stack of results and a real stack of positions, and what
emitted statements do with their variables. Both are independent of what an input looks like: values
are made in any way, a test goes either way, and a loop that goes round does so any number of times
(`StackMachine.Runs`). What the machine and the statements can be compared by are the values that they
make something from, and the effects they have.
-/

namespace PegCompiler

/-- What a value is made from. -/
inductive Origin (V : Type)
  | emptyText
  | nothing
  | failed
  | emptyList
  | list (items : List V)
  | appended (list item : V)
  | inputFrom (start : V)
  | position
  | matchAny
  | matchLiteral (literal : Int)
  | matchLowercase (literal : Int)
  | matchClass (members : Int)
  | input (count : Int)
  | literal (index : Int)
  | call (function : Int) (arguments : List V)
  | rule (name : Text)

/-- What is done apart from moving values. -/
inductive Effect (V : Type)
  | goTo (position : V)
  | advance (count : Int)
  | expect (expectation : Int)
  | markAt (position : V)
  | markHere
  | silence
  | unsilence
  | openRecord
  | closeRecord (inverted : Bool)

/-- The stacks of the machine, top first. -/
structure Stacks (V : Type) where
  results : List V := []
  positions : List V := []

namespace Stacks

variable {V : Type} (s : Stacks V)

/-- The places of the tops; -1 is the one of an empty stack. -/
def depths : Depths := ⟨s.results.length - 1, s.positions.length - 1⟩

/-- The result at a distance from the top. -/
def result? (distance : Word) : Option V :=
  match distance with
  | .number n => if 0 ≤ n then s.results[n.toNat]? else none
  | .text _ => none

/-- The top results, bottom first, and the stacks without them. -/
def take? (count : Int) : Option (List V × Stacks V) :=
  if 0 ≤ count ∧ count ≤ s.results.length then
    some ((s.results.take count.toNat).reverse, { s with results := s.results.drop count.toNat })
  else none

/-- The top result, and the stacks without it. -/
def pop? : Option (V × Stacks V) :=
  match s.results with
  | [] => none
  | v :: below => some (v, { s with results := below })

def push (v : V) : Stacks V := { s with results := v :: s.results }

end Stacks

namespace StackMachine

section Instructions

variable {V : Type} (context : EmitContext) (make : Origin V → V)

/-- What an instruction without blocks does; it can't be done where an operand or a value is missing. -/
def operate (opcode : Opcode) (operands further : List Word) (s : Stacks V) :
    Option (List (Effect V) × Stacks V) :=
  let number (i : Nat) : Option Int := operands[i]?.bind Word.number?
  let push (origin : Origin V) (s : Stacks V) : Option (List (Effect V) × Stacks V) :=
    some ([], s.push (make origin))
  match opcode with
  | .pushEmptyText => push .emptyText s
  | .pushUndefined | .pushNull => push .nothing s
  | .pushFailed => push .failed s
  | .pushEmptyList => push .emptyList s
  | .pop => do return ([], (← s.pop?).2)
  | .leave => do
    let count ← number 0
    if 0 < count then push .failed (← s.take? count).2 else return ([], s)
  | .get => do
    let value ← s.result? (← operands[1]?)
    return ([], (← s.take? (← number 0)).2.push value)
  | .append => do
    let (item, s) ← s.pop?
    let (list, s) ← s.pop?
    push (.appended list item) s
  | .wrap => do
    let (items, s) ← s.take? (← number 0)
    push (.list items) s
  | .wrapSome => do
    let items ← further.mapM s.result?
    push (.list items) (← s.take? (← number 0)).2
  | .text => do push (.inputFrom (← s.positions.head?)) (← s.pop?).2
  | .pushPosition => return ([], { s with positions := make .position :: s.positions })
  | .loadPosition => do return ([.goTo (← s.positions.head?)], s)
  | .popPosition => do
    let _ ← s.positions.head?
    return ([], { s with positions := s.positions.tail })
  | .matchAny => push .matchAny s
  | .matchLiteral => do push (.matchLiteral (← number 0)) s
  | .matchLowercase => do push (.matchLowercase (← number 0)) s
  | .matchClass => do push (.matchClass (← number 0)) s
  | .acceptCount => do
    let count ← number 0
    return ([.advance count], s.push (make (.input count)))
  | .acceptLiteral => do
    let literal ← number 0
    let value ← Index.at? context.literals literal
    return ([.advance value.length], s.push (make (.literal literal)))
  | .expect => do return ([.expect (← number 0)], s)
  | .markTop => do return ([.markAt (← s.positions.head?)], s)
  | .markHere => return ([.markHere], s)
  | .call => do
    let arguments ← further.mapM s.result?
    push (.call (← number 0) arguments) (← s.take? (← number 1)).2
  | .rule => do push (.rule (← Index.at? context.ruleNames (← number 0))) s
  | .silence => return ([.silence], s)
  | .unsilence => return ([.unsilence], s)
  | .openRecord => return ([.openRecord], s)
  | .closeRecord => do return ([.closeRecord ((← number 0) != 0)], s)
  | .ifTrue | .ifFailed | .ifMatched | .ifFewer | .ifReached | .ifFewerThan | .ifReachedBy
  | .loop => none

/-- The values that a test looks at: the top result, and a bound if that is a result too. -/
def examined (opcode : Opcode) (operands : List Word) (s : Stacks V) : Option (List V) :=
  match opcode with
  | .ifFewerThan | .ifReachedBy => do
    return [← s.results.head?, ← s.result? (← operands[0]?)]
  | _ => do return [← s.results.head?]

end Instructions

/-- How a run of instructions ends: behind the last of them, or out of their loop. -/
inductive Finish
  | falls
  | leaves
  deriving DecidableEq

section Runs

variable {V : Type} (context : EmitContext)

/-- A run of instructions, from stacks to stacks. A loop without the flag ends behind its body; one
with the flag goes round and is only left from within. -/
inductive Runs : List Reading → Stacks V → Finish → Stacks V → Prop
  | nothing {s} : Runs [] s .falls s
  | onward {first rest s s₁ finish s₂} : Runs [first] s .falls s₁ → Runs rest s₁ finish s₂ →
    Runs (first :: rest) s finish s₂
  | away {first rest s s₁} : Runs [first] s .leaves s₁ → Runs (first :: rest) s .leaves s₁
  | plain {place opcode operands further make effects s s₁} : opcode ≠ .leave →
    operate context make opcode operands further s = some (effects, s₁) →
    Runs [.plain place opcode operands further] s .falls s₁
  | leave {place operands further make effects s s₁} :
    operate context make .leave operands further s = some (effects, s₁) →
    Runs [.plain place .leave operands further] s .leaves s₁
  | yes {place opcode operands length yes no s finish s₁} : Runs yes s finish s₁ →
    Runs [.test place opcode operands length yes no] s finish s₁
  | no {place opcode operands length yes no s finish s₁} : Runs no s finish s₁ →
    Runs [.test place opcode operands length yes no] s finish s₁
  | exit {place flag body s s₁} : Runs body s .leaves s₁ → Runs [.loop place flag body] s .falls s₁
  | once {place body s s₁} : Runs body s .falls s₁ → Runs [.loop place 0 body] s .falls s₁
  | again {place flag body s s₁ finish s₂} : flag ≠ 0 → Runs body s .falls s₁ →
    Runs [.loop place flag body] s₁ finish s₂ → Runs [.loop place flag body] s finish s₂

/-- The way to an instruction. -/
inductive Route
  | here
  | next (rest : Route)
  | yes (rest : Route)
  | no (rest : Route)
  | inside (rest : Route)
  deriving DecidableEq, Repr

/-- Control gets to an instruction, with these stacks. -/
inductive Reaches : List Reading → Stacks V → Route → Reading → Stacks V → Prop
  | here {first rest s} : Reaches (first :: rest) s .here first s
  | next {first rest s s₁ route target s₂} : Runs context [first] s .falls s₁ →
    Reaches rest s₁ route target s₂ → Reaches (first :: rest) s (.next route) target s₂
  | yes {place opcode operands length yes no rest s route target s₁} : Reaches yes s route target s₁ →
    Reaches (.test place opcode operands length yes no :: rest) s (.yes route) target s₁
  | no {place opcode operands length yes no rest s route target s₁} : Reaches no s route target s₁ →
    Reaches (.test place opcode operands length yes no :: rest) s (.no route) target s₁
  | inside {place flag body rest s route target s₁} : Reaches body s route target s₁ →
    Reaches (.loop place flag body :: rest) s (.inside route) target s₁
  | again {place flag body rest s s₁ route target s₂} : flag ≠ 0 → Runs context body s .falls s₁ →
    Reaches (.loop place flag body :: rest) s₁ route target s₂ →
    Reaches (.loop place flag body :: rest) s route target s₂

end Runs

end StackMachine

section Statements

variable {V : Type} (make : Origin V → V) (store : Slot → V)

/-- The value of a source, where variables have the values of a store. -/
def Source.value : Source → V
  | .emptyText => make .emptyText
  | .nothing => make .nothing
  | .failed => make .failed
  | .emptyList => make .emptyList
  | .list slots => make (.list (slots.map store))
  | .inputFrom start => make (.inputFrom (store start))
  | .position => make .position
  | .slot other => store other
  | .matchAny => make .matchAny
  | .matchChar index | .matchLiteral index => make (.matchLiteral index)
  | .matchLowercase index => make (.matchLowercase index)
  | .matchClass members => make (.matchClass members)
  | .input count => make (.input count)
  | .literal index => make (.literal index)
  | .call function arguments => make (.call function (arguments.map store))
  | .rule name => make (.rule name)

/-- The variables that a condition looks at. -/
def Condition.slots : Condition → List Slot
  | .isTrue slot | .isFailed slot | .isMatched slot | .fewer slot _ | .reached slot _ => [slot]
  | .fewerThan slot bound | .reachedBy slot bound => [slot, bound]

/-- What a statement without blocks does, and the store behind it. -/
def Statement.perform : Statement → Option (List (Effect V) × (Slot → V))
  | .set slot source => some ([], Function.update store slot (source.value make store))
  | .append list item =>
    some ([], Function.update store list (make (.appended (store list) (store item))))
  | .goTo position => some ([.goTo (store position)], store)
  | .advance count => some ([.advance count], store)
  | .expect expectation => some ([.expect expectation], store)
  | .markAt position => some ([.markAt (store position)], store)
  | .markHere => some ([.markHere], store)
  | .silence => some ([.silence], store)
  | .unsilence => some ([.unsilence], store)
  | .openRecord => some ([.openRecord], store)
  | .closeRecord inverted => some ([.closeRecord inverted], store)
  | .leave => some ([], store)
  | .choose .. | .forever _ => none

/-- Statements in a row. -/
def Statement.performAll (make : Origin V → V) :
    (store : Slot → V) → List Statement → Option (List (Effect V) × (Slot → V))
  | store, [] => some ([], store)
  | store, statement :: rest => do
    let (effects, store) ← statement.perform make store
    let (others, store) ← performAll make store rest
    return (effects ++ others, store)

end Statements

namespace Emit

/-- The instruction at the end of a route, and the symbolic stacks with which emission comes to it. -/
def reached? (context : EmitContext) :
    StackMachine.Route → List Reading → Emission → Option (Reading × Emission)
  | .here, reading :: _, emission => some (reading, emission)
  | .next route, reading :: rest, emission =>
    match (one context reading).run.run emission with
    | (.ok _, emission) => reached? context route rest emission
    | (.error _, _) => none
  | .yes route, .test _ opcode operands _ yes _ :: _, emission =>
    match (condition opcode operands).run.run emission with
    | (.ok _, emission) => reached? context route yes emission
    | (.error _, _) => none
  | .no route, .test _ opcode operands _ yes no :: _, emission =>
    match (condition opcode operands).run.run emission with
    | (.ok _, emission) =>
      match (body context yes).run.run emission with
      | (.ok _, behind) => reached? context route no (behind.restore emission.depths)
      | (.error _, _) => none
    | (.error _, _) => none
  | .inside route, .loop _ _ block :: _, emission =>
    reached? context route block { emission with exits := [] :: emission.exits }
  | _, _, _ => none

end Emit

end PegCompiler
