import PegCompiler.Code.Reading
import PegCompiler.Emit.Stack

/-!
The statements of a rule, emitted while its words are walked over. Every instruction moves the
symbolic stacks; a block also tells whether it ends in a jump out of its loop.
-/

namespace PegCompiler

/-- What emission has to know about the grammar: literals, of which only lengths matter here, and
the names of the rules. -/
structure EmitContext where
  literals : List Text
  ruleNames : List Text

namespace Emit

def missing {α : Type} : Emit α := throw .missing

def present {α : Type} : Option α → Emit α
  | some a => return a
  | none => missing

/-- A new result that takes its value from `source`. -/
def pushResult (source : Source) : Emit (List Statement) := do
  return [.set (← push .results) source]

/-- The number that a word has to be. -/
def number (word : Option Word) : Emit Int := present (word.bind Word.number?)

/-- Slots of the stack of results, given by their distances from the top. -/
def indexes (distances : List Word) : Emit (List Slot) :=
  distances.mapM fun distance => do index .results (← number (some distance))

/-- A jump out of the innermost loop. The code behind it is emitted as if it had not moved the
stack of results. -/
def leave (place count : Int) : Emit (List Statement) := fork .results do
  let failing ← if 0 < count then do
      discard <| popMany .results count
      pushResult .failed
    else pure []
  if (← get).exits.isEmpty then throw (.leaveOutsideLoop (← get).rule place)
  noteExit
  return failing ++ [.leave]

/-- Replaces the top results by one of them, which is not moved if it is in its place already. -/
def keepOne (count distance : Int) : Emit (List Statement) := do
  let value ← index .results distance
  discard <| popMany .results count
  let slot ← push .results
  return if slot = value then [] else [.set slot (.slot value)]

/-- The statements of an instruction without blocks. -/
def simple (context : EmitContext) (place : Int) (opcode : Opcode) (operands further : List Word) :
    Emit (List Statement) := do
  let operand : Emit Int := number operands[0]?
  match opcode with
  | .pushEmptyText => pushResult .emptyText
  | .pushUndefined | .pushNull => pushResult .nothing
  | .pushFailed => pushResult .failed
  | .pushEmptyList => pushResult .emptyList
  | .pop =>
    discard <| pop .results
    return []
  | .leave => leave place (← operand)
  | .get =>
    let distance ← number operands[1]?
    keepOne (← operand) distance
  | .append =>
    let item ← pop .results
    return [.append (← top .results) item]
  | .wrap =>
    let items ← popMany .results (← operand)
    pushResult (.list items)
  | .wrapSome =>
    let items ← indexes further
    discard <| popMany .results (← operand)
    pushResult (.list items)
  | .text =>
    discard <| pop .results
    pushResult (.inputFrom (← top .positions))
  | .pushPosition => return [.set (← push .positions) .position]
  | .loadPosition => return [.goTo (← top .positions)]
  | .popPosition =>
    discard <| pop .positions
    return []
  | .matchAny => pushResult .matchAny
  | .matchLiteral =>
    let literal ← operand
    let value ← present (Index.at? context.literals literal)
    pushResult (if value.length = 1 then .matchChar literal else .matchLiteral literal)
  | .matchLowercase => pushResult (.matchLowercase (← operand))
  | .matchClass => pushResult (.matchClass (← operand))
  | .acceptCount =>
    let count ← operand
    return (← pushResult (.input count)) ++ [.advance count]
  | .acceptLiteral =>
    let literal ← operand
    let pushing ← pushResult (.literal literal)
    let value ← present (Index.at? context.literals literal)
    return pushing ++ [.advance value.length]
  | .expect => return [.expect (← operand)]
  | .markTop => return [.markAt (← top .positions)]
  | .markHere => return [.markHere]
  | .call =>
    let arguments ← indexes further
    let count ← number operands[1]?
    discard <| popMany .results count
    pushResult (.call (← operand) arguments)
  | .rule => pushResult (.rule (← present (Index.at? context.ruleNames (← operand))))
  | .silence => return [.silence]
  | .unsilence => return [.unsilence]
  | .openRecord => return [.openRecord]
  | .closeRecord => return [.closeRecord ((← operand) != 0)]
  | .ifTrue | .ifFailed | .ifMatched | .ifFewer | .ifReached | .ifFewerThan | .ifReachedBy
  | .loop => return []

/-- The condition of a test, on the top result. -/
def condition (opcode : Opcode) (operands : List Word) : Emit Condition := do
  let slot ← top .results
  let operand : Emit Int := number operands[0]?
  match opcode with
  | .ifFailed => return .isFailed slot
  | .ifMatched => return .isMatched slot
  | .ifFewer => return .fewer slot (← operand)
  | .ifReached => return .reached slot (← present operands[0]?)
  | .ifFewerThan => return .fewerThan slot (← index .results (← operand))
  | .ifReachedBy => return .reachedBy slot (← index .results (← operand))
  | _ => return .isTrue slot

mutual

/-- The statements of a block; the last instruction tells whether it ends in a jump. -/
def body (context : EmitContext) : List Reading → Emit (List Statement × Bool)
  | [] => return ([], false)
  | reading :: rest => do
    let (first, jumps) ← one context reading
    if rest.isEmpty then return (first, jumps)
    let (others, jumps) ← body context rest
    return (first ++ others, jumps)

def one (context : EmitContext) : Reading → Emit (List Statement × Bool)
  | .plain place opcode operands further => do
    return (← simple context place opcode operands further, opcode == .leave)
  | .test place opcode operands elseLength yes no => do
    let condition ← condition opcode operands
    let otherwise := if 0 < elseLength then some (body context no) else none
    let (yes, no, jumps) ← checkedIf place (body context yes) otherwise
    return ([.choose condition yes (no.getD [])], jumps)
  | .cutTest _ opcode operands => do
    discard <| condition opcode operands
    missing
  | .loop place flag block => do
    let balanced := if flag = 0 then [.positions] else bothStacks
    let (block, jumps) ← checkedLoop place balanced (body context block)
    let ending := if flag = 0 && !jumps then [.leave] else []
    return ([.forever (block ++ ending)], false)
  | .invalid place word => do throw (.invalidOpcode (← get).rule place word)
  | .missing => missing

end

/-- The statements of a rule, and the stacks as they are afterwards. -/
def rule (context : EmitContext) (name : Text) (words : List Word) :
    Except EmitFault (List Statement) × Emission :=
  let (outcome, emission) := (body context (Reading.ofWords words)).run.run { rule := name }
  (outcome.map Prod.fst, emission)

end Emit

end PegCompiler
