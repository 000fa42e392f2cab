import PegCompiler.Code.Word
import PegCompiler.Text.Lines

/-!
Statements of an emitted rule function. Slots are the local variables that hold the stacks: those
of the results are called r0, r1, … and those of the saved positions p0, p1, …. A statement is
rendered as lines, and what belongs to a condition or a loop is indented below it.
-/

namespace PegCompiler

inductive StackName
  | results
  | positions
  deriving DecidableEq, Repr

def StackName.letter : StackName → Text
  | results => "r"
  | positions => "p"

structure Slot where
  stack : StackName
  index : Nat
  deriving DecidableEq, Repr

namespace Slot

def name (slot : Slot) : Text := slot.stack.letter ++ Text.ofNat slot.index

/-- The statement that gives the slot the value of an expression. -/
def assignment (slot : Slot) (expression : Text) : Text := slot.name ++ " = " ++ expression

end Slot

/-- What a slot takes its value from. Constants are named by their places in the tables. -/
inductive Source
  | emptyText
  | nothing
  | failed
  | emptyList
  | list (slots : List Slot)
  | inputFrom (start : Slot)
  | position
  | slot (slot : Slot)
  | matchAny
  | matchChar (literal : Int)
  | matchLiteral (literal : Int)
  | matchLowercase (literal : Int)
  | matchClass (members : Int)
  | input (count : Int)
  | literal (index : Int)
  | call (function : Int) (arguments : List Slot)
  | rule (name : Text)
  deriving DecidableEq, Repr

inductive Condition
  | isTrue (slot : Slot)
  | isFailed (slot : Slot)
  | isMatched (slot : Slot)
  | fewer (slot : Slot) (count : Int)
  | reached (slot : Slot) (bound : Word)
  | fewerThan (slot bound : Slot)
  | reachedBy (slot bound : Slot)
  deriving DecidableEq, Repr

inductive Statement
  | set (slot : Slot) (source : Source)
  | append (list item : Slot)
  | goTo (position : Slot)
  | advance (count : Int)
  | expect (expectation : Int)
  | markAt (position : Slot)
  | markHere
  | silence
  | unsilence
  | openRecord
  | closeRecord (inverted : Bool)
  | leave
  | choose (condition : Condition) (yes no : List Statement)
  | forever (body : List Statement)
  deriving Repr

namespace Emit

def indentation : Text := Text.blanks 4

/-- One level of indentation; empty lines stay empty. -/
def indented (lines : List Text) : List Text :=
  lines.map fun line => if line.isEmpty then line else indentation ++ line

/-- The lines below a line that opens a block, which may not be empty. -/
def block (lines : List Text) : List Text := indented (if lines.isEmpty then ["pass"] else lines)

def slotNames (slots : List Slot) : Text := Text.join ", " (slots.map Slot.name)

def truth (b : Bool) : Text := if b then "True" else "False"

def loopHeading : Text := "while True:"

end Emit

def Source.shown : Source → Text
  | emptyText => "''"
  | nothing => "None"
  | failed => "FAILED"
  | emptyList => "[]"
  | list slots => "[" ++ Emit.slotNames slots ++ "]"
  | inputFrom start => "state.input[" ++ start.name ++ ":state.pos]"
  | position => "state.pos"
  | slot s => s.name
  | matchAny => "state.match_any()"
  | matchChar index => "state.match_char(_c" ++ Text.ofInt index ++ ")"
  | matchLiteral index => "state.match_literal(_c" ++ Text.ofInt index ++ ")"
  | matchLowercase index => "state.match_literal_ic(_c" ++ Text.ofInt index ++ ")"
  | matchClass index => "state.match_class(_r" ++ Text.ofInt index ++ ")"
  | input count =>
    if 1 < count then "state.input[state.pos:state.pos + " ++ Text.ofInt count ++ "]"
    else "state.input[state.pos]"
  | literal index => "_c" ++ Text.ofInt index
  | call function arguments =>
    "_f" ++ Text.ofInt function ++ "(" ++ Emit.slotNames arguments ++ ")"
  | rule name => "parse_" ++ name ++ "()"

def Condition.shown : Condition → Text
  | isTrue slot => slot.name
  | isFailed slot => slot.name ++ " is FAILED"
  | isMatched slot => slot.name ++ " is not FAILED"
  | fewer slot count => "len(" ++ slot.name ++ ") < " ++ Text.ofInt count
  | reached slot bound => "len(" ++ slot.name ++ ") >= " ++ bound.shown
  | fewerThan slot bound => "len(" ++ slot.name ++ ") < " ++ bound.name
  | reachedBy slot bound => "len(" ++ slot.name ++ ") >= " ++ bound.name

namespace Statement

mutual

def lines : Statement → List Text
  | set slot source => [slot.assignment source.shown]
  | append list item => [list.name ++ ".append(" ++ item.name ++ ")"]
  | goTo position => ["state.pos = " ++ position.name]
  | advance count => ["state.pos += " ++ Text.ofInt count]
  | expect expectation => ["state.expect(_e" ++ Text.ofInt expectation ++ ")"]
  | markAt position => ["state.mark = " ++ position.name]
  | markHere => ["state.mark = state.pos"]
  | silence => ["state.silent_fails += 1"]
  | unsilence => ["state.silent_fails -= 1"]
  | openRecord => ["state.begin()"]
  | closeRecord inverted => ["state.end(" ++ Emit.truth inverted ++ ")"]
  | leave => ["break"]
  | choose condition yes no =>
    let otherwise := allLines no
    let second := if otherwise.isEmpty then [] else Text.ofString "else:" :: Emit.block otherwise
    ("if " ++ condition.shown ++ ":") :: Emit.block (allLines yes) ++ second
  | forever body => Emit.loopHeading :: Emit.block (allLines body)

def allLines : List Statement → List Text
  | [] => []
  | statement :: rest => lines statement ++ allLines rest

end

end Statement

end PegCompiler
