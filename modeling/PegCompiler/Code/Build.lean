import PegCompiler.Code.Instruction
import PegCompiler.Grammar.Basic

/-!
Recurring pieces of code. A verdict known in advance turns a test into the one block that can be
reached. The pieces are written once for everything that code can be assembled to: instruction
trees, from which rules are made, and plain words, whose tests and loop heads are words as well.
-/

namespace PegCompiler

/-- Something that code can be assembled to. -/
class Assembly (Condition Head : outParam Type) (α : Type) where
  nothing : α
  followedBy : α → α → α
  op : Op → α
  test : Test → Condition
  branch : Condition → (yes no : α) → α
  head : (endless : Bool) → Head
  loop : Head → (body : α) → α

instance : Assembly Test Bool (List Instr) where
  nothing := []
  followedBy first second := first ++ second
  op o := [.op o]
  test t := t
  branch test yes no := [.branch test yes no]
  head endless := endless
  loop endless body := [.loop endless body]

instance : Assembly (List Word) (List Word) (List Word) where
  nothing := []
  followedBy first second := first ++ second
  op := Op.words
  test := Test.words
  branch test yes no := test ++ Word.ofInts [yes.length, no.length] ++ yes ++ no
  head endless := Word.ofInts [Opcode.loop.number, flagWord endless]
  loop head body := head ++ Word.ofInts [body.length] ++ body

/-- The place of a label's value on the stack of results, for the labels of a scope in order. -/
abbrev Environment := List (Text × Int)

/-- Why the code of a bound cannot be made. -/
inductive BoundFault
  /-- The label is not in scope. -/
  | unknownLabel (label : Limit)
  /-- The least number of repetitions is not a number. -/
  | incomparable
  deriving DecidableEq, Repr

namespace Build

variable {Condition Head α : Type} [Assembly Condition Head α]

def inOrder (parts : List α) : α := parts.foldr Assembly.followedBy Assembly.nothing

def ops (os : List Op) : α := inOrder (os.map Assembly.op)

def condition (verdict : Verdict) (test : Condition) (yes no : α) : α :=
  verdict.select yes no (Assembly.branch test yes no)

/-- Code that tests and pushes by itself, unless the outcome is known. -/
def attempt (verdict : Verdict) (testing yes no : α) : α := verdict.select yes no testing

/-- Where the test holds, `yes` is run and the loop left; otherwise the code goes on with `no`. -/
def leaveIf (verdict : Verdict) (test : Condition) (count : Int) (yes no : α) : α :=
  let leaving := Assembly.followedBy yes (Assembly.op (.leave count))
  verdict.select leaving no
    (Assembly.followedBy (Assembly.branch test leaving Assembly.nothing) no)

/-- Calls a user function with the values of all labels; `top` is the place of the top result. -/
def call (function count : Int) (labels : Environment) (top : Int) : α :=
  Assembly.op (.call function count (labels.map fun (_, place) => top - place))

/-- The distance of a label's value from the place `top`. -/
def distance (labels : Environment) (top : Int) (label : Limit) : Except BoundFault Int :=
  match label.name?.bind (List.lookup · labels) with
  | some place => .ok (top - place)
  | none => .error (.unknownLabel label)

/-- Leaves the loop once as many results as the bound allows are collected. -/
def checkMax (max : Boundary) (top : Int) (labels : Environment) : Except BoundFault α := do
  let leaveOn (test : Test) : α :=
    condition .sometimes (Assembly.test α test) (Assembly.op (.leave 0)) Assembly.nothing
  match max with
  | .unbounded | .label .absent => return Assembly.nothing
  | .count n => return leaveOn (.reached (.number n))
  | .constant (.text t) => return leaveOn (.reached (.text t))
  | .label label => return leaveOn (.reachedBy (← distance labels top label))

/-- Fails and goes back if `body` collects fewer results than the bound asks for. -/
def checkMin (body : α) (min : Boundary) (top : Int) (labels : Environment) :
    Except BoundFault α := do
  let failOn (test : Test) : α := inOrder [
    Assembly.op .pushPosition,
    body,
    condition .sometimes (Assembly.test α test) (ops [.loadPosition, .pop, .push .failed])
      Assembly.nothing,
    Assembly.op .popPosition]
  match min with
  | .unbounded | .label .absent => return body
  | .count n => return if n ≤ 0 then body else failOn (.fewer n)
  | .constant (.text _) => throw .incomparable
  | .label label => return failOn (.fewerThan (← distance labels top label))

/-- Appends what `element` gives to the list below it, or leaves the loop where it fails. -/
def appendOrLeave (verdict : Verdict) (element : α) (goBack : Bool) : α :=
  Assembly.followedBy element (condition verdict.neg (Assembly.test α .isFailed)
    (ops (if goBack then [.loadPosition, .pop, .leave 0] else [.pop, .leave 0]))
    (Assembly.op .append))

end Build

/-- The place of `value` in a table, and the table with it; an equal entry is used again. -/
def Tables.place {α : Type} [BEq α] (items : List α) (value : α) : Nat × List α :=
  match items.findIdx? (· == value) with
  | some index => (index, items)
  | none => (items.length, items ++ [value])

end PegCompiler
