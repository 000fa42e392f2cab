import PegCompiler.Code.Instruction
import PegCompiler.Code.Reading
import PegCompiler.Run.State
import PegCompiler.Run.Trace
import Std.Data.TreeMap

/-!
The machine that runs the instructions of a grammar. Every call of a rule has a stack of results and
one of positions of its own; it ends with a single result, which the caller gets, and with the input
position behind the match, or where it was if there is none. With the memo table on, the outcome of
a rule is kept for every position.

Calls of rules and rounds of loops take fuel, which only bounds how long a run may be: a run that
has fuel enough does not depend on how much it was.
-/

namespace PegCompiler

/-- A result on the stack: a value, or nothing for a failure. -/
abbrev Outcome := Option Value

/-- User code: what it gives for a state and the values of its parameters. That is all it can do. It
has no memory of its own, changes nothing in the state, and its value is never the mark of a failed
match. -/
abbrev UserCode := ParserState → List Value → Except Raise Value

/-- A grammar that is ready to run. The start rules are given with the places where they begin;
`object` is the name of the exported object. -/
structure Program where
  rules : List (Text × List Instr)
  literals : List Text
  matchers : List ClassMatcher
  entries : List Entry
  functions : List UserCode
  starts : List (Value × Nat)
  object : Option Text := none
  cache : Bool
  trace : Bool

/-- What all calls of a run share; the latest event comes first. -/
structure World where
  state : ParserState
  memo : Std.TreeMap Int (Int × Outcome) := {}
  events : List TraceEvent := []

/-- The stacks of one call, their tops first. -/
structure Frame where
  results : List Outcome := []
  positions : List Int := []

abbrev Run := ExceptT Raise (StateM World)

abbrev Exec := StateT Frame Run

inductive Signal
  | next
  | leave
  deriving DecidableEq, Repr

namespace Machine

def raise {α : Type} (raised : Raise) : Exec α := fun _ => throw raised

def lift {α : Type} : Except Raise α → Exec α
  | .ok a => return a
  | .error raised => raise raised

def present {α : Type} : Option α → Exec α
  | some a => return a
  | none => raise .malformed

def state : Exec ParserState := return (← getThe World).state

def setState (state : ParserState) : Exec Unit :=
  modifyThe World fun world => { world with state }

def changeState (change : ParserState → ParserState) : Exec Unit :=
  modifyThe World fun world => { world with state := change world.state }

/-! ## Stacks -/

def push (result : Outcome) : Exec Unit :=
  modify fun frame => { frame with results := result :: frame.results }

def pushValue (value : Value) : Exec Unit := push (some value)

def count (n : Int) : Exec Nat := if n < 0 then raise .malformed else return n.toNat

/-- Takes the top results away, which come bottom first. -/
def take (n : Int) : Exec (List Outcome) := do
  let n ← count n
  let frame ← get
  if frame.results.length < n then raise .malformed
  set { frame with results := frame.results.drop n }
  return (frame.results.take n).reverse

def pop : Exec Outcome := do
  match (← get).results with
  | [] => raise .malformed
  | result :: results =>
    modify fun frame => { frame with results }
    return result

def top : Exec Outcome := do present (← get).results.head?

/-- The value some places below the top. -/
def valueAt (distance : Int) : Exec Value := do
  present (← present (← get).results[← count distance]?)

def topPosition : Exec Int := do present (← get).positions.head?

def topItems : Exec (List Value) := do
  match ← top with
  | some (.list items) => return items
  | _ => raise .malformed

/-! ## Instructions -/

/-- Matches at the current position and pushes the outcome. -/
def matching (primitive : ParserState → Except Raise (Option Text × ParserState)) : Exec Unit := do
  let (matched, after) ← lift (primitive (← state))
  setState after
  push (matched.map .text)

/-- Takes input that is known to match; at least one code point has to be there. -/
def accept (n : Int) : Exec Unit := do
  let n ← count n
  let current ← state
  if n ≤ 1 then discard <| present current.rest.head?
  pushValue (.text (current.rest.take (max n 1)))
  changeState (·.advance n)

def expect (program : Program) (index : Int) : Exec Unit := do
  let entry ← present (Index.at? program.entries index)
  setState (← lift ((← state).expect entry))

def closeRecord (inverted : Bool) : Exec Unit := do
  let (raised, after) := (← state).closeRecord inverted
  setState after
  match raised with
  | none => return
  | some raised => raise raised

def callFunction (program : Program) (function n : Int) (arguments : List Int) : Exec Unit := do
  let f ← present (Index.at? program.functions function)
  let values ← arguments.mapM valueAt
  discard <| take n
  pushValue (← lift (f (← state) values))

def op (program : Program) (callRule : Int → Run Outcome) : Op → Exec Signal
  | .push .emptyText => do pushValue (.text []); return .next
  | .push .undefined | .push .null => do pushValue .null; return .next
  | .push .failed => do push none; return .next
  | .push .emptyList => do pushValue (.list []); return .next
  | .pop => do discard pop; return .next
  | .leave n => do
    if 0 < n then
      discard <| take n
      push none
    return .leave
  | .get n index => do
    let value ← valueAt index
    discard <| take n
    pushValue value
    return .next
  | .append => do
    let item ← present (← pop)
    let items ← topItems
    discard pop
    pushValue (.list (items ++ [item]))
    return .next
  | .wrap n => do
    let items ← (← take n).mapM present
    pushValue (.list items)
    return .next
  | .wrapSome n indexes => do
    let items ← indexes.mapM valueAt
    discard <| take n
    pushValue (.list items)
    return .next
  | .text => do
    discard pop
    let start ← topPosition
    let current ← state
    pushValue (.text (Index.slice current.input start current.offset))
    return .next
  | .pushPosition => do
    let offset := (← state).offset
    modify fun frame => { frame with positions := offset :: frame.positions }
    return .next
  | .loadPosition => do
    let offset ← topPosition
    changeState ({ · with offset })
    return .next
  | .popPosition => do
    discard topPosition
    modify fun frame => { frame with positions := frame.positions.tail }
    return .next
  | .matchAny => do matching (·.matchAny); return .next
  | .matchLiteral index => do
    let literal ← present (Index.at? program.literals index)
    matching fun s => .ok (s.matchLiteral literal)
    return .next
  | .matchLowercase index => do
    let literal ← present (Index.at? program.literals index)
    matching fun s => .ok (s.matchLowercase literal)
    return .next
  | .matchClass index => do
    let matcher ← present (Index.at? program.matchers index)
    matching (·.matchClass matcher)
    return .next
  | .acceptCount n => do accept n; return .next
  | .acceptLiteral index => do
    let literal ← present (Index.at? program.literals index)
    pushValue (.text literal)
    changeState (·.advance literal.length)
    return .next
  | .expect index => do expect program index; return .next
  | .markTop => do
    let mark ← topPosition
    changeState ({ · with mark })
    return .next
  | .markHere => do
    changeState fun s => { s with mark := s.offset }
    return .next
  | .call function n arguments => do callFunction program function n arguments; return .next
  | .rule index => do
    push (← callRule index)
    return .next
  | .silence => do
    changeState fun s => { s with silence := s.silence + 1 }
    return .next
  | .unsilence => do
    changeState fun s => { s with silence := s.silence - 1 }
    return .next
  | .openRecord => do changeState (·.openRecord); return .next
  | .closeRecord inverted => do closeRecord (inverted != 0); return .next

/-- The number that bounds a repetition, held by a label. -/
def boundAt (index : Int) : Exec Number := do
  match (← valueAt index).number? with
  | some n => return n
  | none => raise .wrongType

def test : Test → Exec Bool
  | .isTrue => return ((← top).map Value.isTrue).getD false
  | .isFailed => return (← top).isNone
  | .isMatched => return (← top).isSome
  | .fewer n => return (← topItems).length < n
  | .reached bound => do
    match bound with
    | .number n => return n ≤ (← topItems).length
    | .text _ => raise .wrongType
  | .fewerThan index => do
    let items ← topItems
    return (← boundAt index).exceeds items.length
  | .reachedBy index => do return (← boundAt index).atMost (← topItems).length

/-- Runs the body of a loop: once, or again and again until it is left. -/
def rounds (endless : Bool) (body : Exec Signal) : (fuel : Nat) → Exec Unit
  | 0 => raise .outOfFuel
  | fuel + 1 => do
    match ← body with
    | .leave => return
    | .next => if endless then rounds endless body fuel else return

mutual

def instr (program : Program) (callRule : Int → Run Outcome) (fuel : Nat) :
    Instr → Exec Signal
  | .op o => op program callRule o
  | .branch condition yes no => do
    if ← test condition then block program callRule fuel yes else block program callRule fuel no
  | .loop endless body => do
    rounds endless (block program callRule fuel body) fuel
    return .next

/-- Runs instructions in a row up to one that leaves the innermost loop. -/
def block (program : Program) (callRule : Int → Run Outcome) (fuel : Nat) :
    List Instr → Exec Signal
  | [] => return .next
  | i :: rest => do
    match ← instr program callRule fuel i with
    | .leave => return .leave
    | .next => block program callRule fuel rest

end

/-! ## Rules -/

def note (program : Program) (event : TraceEvent) : Run Unit :=
  if program.trace then modify fun world => { world with events := event :: world.events }
  else return

/-- Notes how a rule ended that began at `start`. -/
def noteEnd (program : Program) (name : Text) (start : Int) (outcome : Outcome) : Run Unit := do
  match outcome with
  | some value => note program ⟨.matched, name, start, (← get).state.offset, some value⟩
  | none => note program ⟨.failed, name, start, start, none⟩

/-- The code of a rule from empty stacks to its one result. -/
def body (program : Program) (callRule : Int → Run Outcome) (fuel : Nat) (code : List Instr) :
    Run Outcome := do
  let (_, frame) ← (block program callRule fuel code).run {}
  match frame.results with
  | [outcome] => return outcome
  | _ => throw .malformed

/-- The place in the memo table of a rule at an offset, different for different pairs. -/
def memoKey (program : Program) (index : Nat) (offset : Int) : Int :=
  offset * program.rules.length + index

/-- The outcome of a rule from the memo table; the input position moves as it did then. -/
def memoized (program : Program) (key : Int) : Run (Option Outcome) := do
  if !program.cache then return none
  match (← get).memo[key]? with
  | none => return none
  | some (offset, outcome) =>
    modify fun world => { world with state := { world.state with offset } }
    return some outcome

def remember (program : Program) (key : Int) (outcome : Outcome) : Run Unit :=
  if program.cache then modify fun world =>
    { world with memo := world.memo.insert key (world.state.offset, outcome) }
  else return

def rule (program : Program) : (fuel : Nat) → (index : Int) → Run Outcome
  | 0, _ => throw .outOfFuel
  | fuel + 1, index => do
    let some place := Index.place? program.rules.length index | throw .malformed
    let some (name, code) := program.rules[place]? | throw .malformed
    let start := (← get).state.offset
    note program ⟨.enter, name, start, start, none⟩
    let key := memoKey program place start
    match ← memoized program key with
    | some outcome =>
      noteEnd program name start outcome
      return outcome
    | none =>
      let outcome ← body program (rule program fuel) fuel code
      remember program key outcome
      noteEnd program name start outcome
      return outcome

end Machine

end PegCompiler
