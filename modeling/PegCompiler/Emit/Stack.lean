import PegCompiler.Emit.Statement

/-!
Symbolic stacks. Emitted code has no stack at run time: a slot of a stack is a local variable, and
only its depth is known while code is emitted. Two guards keep the depths right. Both arms of a
condition have to leave the stacks equally deep, unless one of them ends in a jump; the body of a
loop has to end as deep as it began, and everything that leaves a loop has to agree.

An error does not undo what moved before it.
-/

namespace PegCompiler

structure Depths where
  results : Int
  positions : Int
  deriving DecidableEq, Repr

namespace Depths

def of (depths : Depths) : StackName → Int
  | .results => depths.results
  | .positions => depths.positions

end Depths

/-- How depths disagree. -/
inductive Imbalance
  | arms (before afterYes afterNo : Int)
  | body (before after : Int)
  | exit (after atExit : Int)
  deriving DecidableEq, Repr

inductive EmitFault
  | underflow (rule : Text) (stack : StackName) (index : Int)
  | negativeIndex (rule : Text) (index : Int)
  | neverUsed (rule : Text)
  | unbalanced (rule : Text) (place : Int) (stack : StackName) (imbalance : Imbalance)
  | invalidOpcode (rule : Text) (place : Int) (word : Word)
  | leaveOutsideLoop (rule : Text) (place : Int)
  /-- A word, a constant or a rule that is not there. -/
  | missing
  deriving DecidableEq, Repr

namespace Imbalance

def message : Imbalance → Text
  | arms before afterYes afterNo =>
    "Branches of a condition can't move the stack pointer differently (before: "
      ++ Text.ofInt before ++ ", after then: " ++ Text.ofInt afterYes ++ ", after else: "
      ++ Text.ofInt afterNo ++ ")."
  | body before after =>
    "Body of a loop can't move the stack pointer (before: " ++ Text.ofInt before ++ ", after: "
      ++ Text.ofInt after ++ ")."
  | exit after atExit =>
    "Exits of a loop can't leave the stack pointer differently (after loop: "
      ++ Text.ofInt after ++ ", at break: " ++ Text.ofInt atExit ++ ")."

end Imbalance

namespace EmitFault

def within (rule : Text) (place : Int) : Text :=
  "Rule '" ++ rule ++ "', position " ++ Text.ofInt place

def message : EmitFault → Text
  | underflow rule stack index =>
    "Rule '" ++ rule ++ "': Var stack underflow: attempt to use var '" ++ stack.letter
      ++ "<x>' at index " ++ Text.ofInt index
  | negativeIndex rule index =>
    "Rule '" ++ rule ++ "': Var stack overflow: attempt to get variable at negative index "
      ++ Text.ofInt index
  | neverUsed rule => "Rule '" ++ rule ++ "': Var stack is empty, can't get result"
  | unbalanced rule place stack imbalance =>
    within rule place ++ ", stack '" ++ stack.letter ++ "': " ++ imbalance.message
  | invalidOpcode rule place word =>
    within rule place ++ ": Invalid opcode " ++ word.shown ++ "."
  | leaveOutsideLoop rule place => within rule place ++ ": BREAK outside of a loop."
  | missing => "list index out of range"

end EmitFault

/-- The place of the top slot, which is -1 in an empty stack, and the highest place it ever had. -/
structure Stack where
  top : Int := -1
  highest : Int := -1
  deriving DecidableEq, Repr, Inhabited

/-- Both stacks of a rule, and for every open loop, the innermost first, the depths at which it is
left so far. -/
structure Emission where
  rule : Text
  results : Stack := {}
  positions : Stack := {}
  exits : List (List Depths) := []
  deriving Repr

abbrev Emit := ExceptT EmitFault (StateM Emission)

namespace Emission

def stack (emission : Emission) : StackName → Stack
  | .results => emission.results
  | .positions => emission.positions

def setStack (emission : Emission) (name : StackName) (stack : Stack) : Emission :=
  match name with
  | .results => { emission with results := stack }
  | .positions => { emission with positions := stack }

def depths (emission : Emission) : Depths := ⟨emission.results.top, emission.positions.top⟩

def restore (emission : Emission) (depths : Depths) : Emission :=
  { emission with
    results := { emission.results with top := depths.results }
    positions := { emission.positions with top := depths.positions } }

end Emission

namespace Emit

def stack (name : StackName) : Emit Stack := return (← get).stack name

def setTop (name : StackName) (top : Int) : Emit Unit :=
  modify fun emission => emission.setStack name { emission.stack name with top }

/-- The slot at a place. -/
def slotAt (name : StackName) (place : Int) : Emit Slot := do
  if place < 0 then throw (.underflow (← get).rule name place)
  return ⟨name, place.toNat⟩

/-- A new slot on top. -/
def push (name : StackName) : Emit Slot := do
  let top := (← stack name).top + 1
  setTop name top
  let slot ← slotAt name top
  modify fun emission =>
    let stack := emission.stack name
    emission.setStack name { stack with highest := max stack.highest top }
  return slot

def pop (name : StackName) : Emit Slot := do
  let top := (← stack name).top
  let slot ← slotAt name top
  setTop name (top - 1)
  return slot

/-- Takes `count` slots away, which come bottom first; a negative count adds some. -/
def popMany (name : StackName) (count : Int) : Emit (List Slot) := do
  let top := (← stack name).top - count
  setTop name top
  (List.range count.toNat).mapM fun (i : Nat) => slotAt name (top + 1 + (i : Int))

def top (name : StackName) : Emit Slot := do slotAt name (← stack name).top

/-- The slot `distance` places below the top. -/
def index (name : StackName) (distance : Int) : Emit Slot := do
  if distance < 0 then throw (.negativeIndex (← get).rule distance)
  slotAt name ((← stack name).top - distance)

/-- The slot that holds the outcome of the whole rule. -/
def result (name : StackName) : Emit Slot := do
  if (← stack name).highest < 0 then throw (.neverUsed (← get).rule)
  slotAt name 0

/-- All slots that were ever used. -/
def slots (name : StackName) (stack : Stack) : List Slot :=
  (List.range (stack.highest + 1).toNat).map fun i => ⟨name, i⟩

/-- The statement that defines all slots of a stack; there is none if it was never used. -/
def definition (name : StackName) (stack : Stack) : Text :=
  if stack.highest < 0 then []
  else Text.join " = " ((slots name stack).map Slot.name) ++ " = None"

/-- Runs `emit` and takes the stack back to the depth it had. -/
def fork {α : Type} (name : StackName) (emit : Emit α) : Emit α := do
  let top := (← stack name).top
  let a ← emit
  setTop name top
  return a

/-- Both stacks, in the order in which they are compared. -/
def bothStacks : List StackName := [.results, .positions]

/-- Faults with the first of `names` whose depths disagree. -/
def agree (place : Int) (names : List StackName)
    (disagree : StackName → Option Imbalance) : Emit Unit :=
  names.forM fun name => do
    match disagree name with
    | some imbalance => throw (.unbalanced (← get).rule place name imbalance)
    | none => return

/-- Emits both arms of a condition, each of which says whether it ends in a jump. The depth behind
it is that of an arm that goes on. -/
def checkedIf {α : Type} (place : Int) (yes : Emit (α × Bool)) (no : Option (Emit (α × Bool))) :
    Emit (α × Option α × Bool) := do
  let base := (← get).depths
  let (whenYes, yesJumps) ← yes
  let afterYes := (← get).depths
  modify (·.restore base)
  let (whenNo, noJumps) ← match no with
    | none => pure (none, false)
    | some no => do
      let (whenNo, jumps) ← no
      pure (some whenNo, jumps)
  let afterNo := (← get).depths
  if !yesJumps && !noJumps then
    agree place bothStacks fun name =>
      if afterYes.of name ≠ afterNo.of name then
        some (.arms (base.of name) (afterYes.of name) (afterNo.of name))
      else none
  modify (·.restore (if noJumps || !yesJumps then afterYes else afterNo))
  return (whenYes, whenNo, yesJumps && noJumps)

/-- The depth behind a loop. -/
def behindLoop (endless jumps : Bool) (base after : Depths) (exits : List Depths) : Depths :=
  if endless then base else if !jumps then after else exits.headD base

/-- Emits the body of a loop, which says whether it ends in a jump. The `balanced` stacks have to be
back at their depth after it; if these are all, the loop is left by its exits only. -/
def checkedLoop {α : Type} (place : Int) (balanced : List StackName) (body : Emit (α × Bool)) :
    Emit (α × Bool) := do
  let base := (← get).depths
  modify fun emission => { emission with exits := [] :: emission.exits }
  let (emitted, jumps) ← body
  let exits := (← get).exits.headD []
  modify fun emission => { emission with exits := emission.exits.tail }
  let after := (← get).depths
  if !jumps then
    agree place (bothStacks.filter balanced.contains) fun name =>
      if after.of name ≠ base.of name then some (.body (base.of name) (after.of name)) else none
  let done := behindLoop (balanced.length == bothStacks.length) jumps base after exits
  exits.forM fun depths =>
    agree place bothStacks fun name =>
      if done.of name ≠ depths.of name then some (.exit (done.of name) (depths.of name)) else none
  modify (·.restore done)
  return (emitted, jumps)

/-- Notes the depths at which the innermost loop is left here. -/
def noteExit : Emit Unit := modify fun emission =>
  match emission.exits with
  | [] => emission
  | exits :: outer => { emission with exits := (exits ++ [emission.depths]) :: outer }

end Emit

end PegCompiler
