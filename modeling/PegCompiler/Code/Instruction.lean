import PegCompiler.Code.Opcode
import PegCompiler.Code.Word

/-!
Instructions as trees, and their words. A test holds its two blocks and a loop its body, so that
blocks are well nested by construction; `encode` lays them out in a row and `decode?` reads back
exactly the lists of words that `encode` gives.
-/

namespace PegCompiler

/-- The constants that can be pushed. -/
inductive Constant
  | emptyText
  | undefined
  | null
  | failed
  | emptyList
  deriving DecidableEq, Repr

/-- An instruction without blocks. Results are named by their distance from the top. -/
inductive Op
  | push (constant : Constant)
  | pop
  /-- Leaves the innermost loop, after replacing the top results by a failure if there are any. -/
  | leave (count : Int)
  /-- Replaces the top results by one of the stack. -/
  | get (count index : Int)
  | append
  | wrap (count : Int)
  /-- Replaces the top results by the list of some of the stack. -/
  | wrapSome (count : Int) (indexes : List Int)
  | text
  | pushPosition
  | loadPosition
  | popPosition
  | matchAny
  | matchLiteral (literal : Int)
  | matchLowercase (literal : Int)
  | matchClass (members : Int)
  | acceptCount (count : Int)
  | acceptLiteral (literal : Int)
  | expect (expectation : Int)
  | markTop
  | markHere
  /-- Replaces the top results by what a user function gives for some of the stack. -/
  | call (function count : Int) (arguments : List Int)
  | rule (index : Int)
  | silence
  | unsilence
  | openRecord
  | closeRecord (inverted : Int)
  deriving DecidableEq, Repr

/-- A condition on the top result. -/
inductive Test
  | isTrue
  | isFailed
  | isMatched
  | fewer (count : Int)
  | reached (bound : Word)
  | fewerThan (index : Int)
  | reachedBy (index : Int)
  deriving DecidableEq, Repr

inductive Instr
  | op (op : Op)
  | branch (test : Test) (yes no : List Instr)
  | loop (endless : Bool) (body : List Instr)
  deriving Repr

namespace Op

def opcode : Op → Opcode
  | push .emptyText => .pushEmptyText
  | push .undefined => .pushUndefined
  | push .null => .pushNull
  | push .failed => .pushFailed
  | push .emptyList => .pushEmptyList
  | pop => .pop
  | leave _ => .leave
  | get .. => .get
  | append => .append
  | wrap _ => .wrap
  | wrapSome .. => .wrapSome
  | text => .text
  | pushPosition => .pushPosition
  | loadPosition => .loadPosition
  | popPosition => .popPosition
  | matchAny => .matchAny
  | matchLiteral _ => .matchLiteral
  | matchLowercase _ => .matchLowercase
  | matchClass _ => .matchClass
  | acceptCount _ => .acceptCount
  | acceptLiteral _ => .acceptLiteral
  | expect _ => .expect
  | markTop => .markTop
  | markHere => .markHere
  | call .. => .call
  | rule _ => .rule
  | silence => .silence
  | unsilence => .unsilence
  | openRecord => .openRecord
  | closeRecord _ => .closeRecord

def operands : Op → List Int
  | leave n | wrap n | matchLiteral n | matchLowercase n | matchClass n | acceptCount n
  | acceptLiteral n | expect n | rule n | closeRecord n => [n]
  | get count index => [count, index]
  | wrapSome count indexes => [count, indexes.length] ++ indexes
  | call function count arguments => [function, count, arguments.length] ++ arguments
  | _ => []

def words (op : Op) : List Word := Word.ofInts (op.opcode.number :: op.operands)

/-- The instruction with this opcode and exactly these operands. -/
def ofWords? : Opcode → List Int → Option Op
  | .pushEmptyText, [] => some (push .emptyText)
  | .pushUndefined, [] => some (push .undefined)
  | .pushNull, [] => some (push .null)
  | .pushFailed, [] => some (push .failed)
  | .pushEmptyList, [] => some (push .emptyList)
  | .pop, [] => some pop
  | .leave, [n] => some (leave n)
  | .get, [count, index] => some (get count index)
  | .append, [] => some append
  | .wrap, [n] => some (wrap n)
  | .wrapSome, count :: length :: indexes =>
    if length = indexes.length then some (wrapSome count indexes) else none
  | .text, [] => some text
  | .pushPosition, [] => some pushPosition
  | .loadPosition, [] => some loadPosition
  | .popPosition, [] => some popPosition
  | .matchAny, [] => some matchAny
  | .matchLiteral, [n] => some (matchLiteral n)
  | .matchLowercase, [n] => some (matchLowercase n)
  | .matchClass, [n] => some (matchClass n)
  | .acceptCount, [n] => some (acceptCount n)
  | .acceptLiteral, [n] => some (acceptLiteral n)
  | .expect, [n] => some (expect n)
  | .markTop, [] => some markTop
  | .markHere, [] => some markHere
  | .call, function :: count :: length :: arguments =>
    if length = arguments.length then some (call function count arguments) else none
  | .rule, [n] => some (rule n)
  | .silence, [] => some silence
  | .unsilence, [] => some unsilence
  | .openRecord, [] => some openRecord
  | .closeRecord, [n] => some (closeRecord n)
  | _, _ => none

end Op

namespace Test

def opcode : Test → Opcode
  | isTrue => .ifTrue
  | isFailed => .ifFailed
  | isMatched => .ifMatched
  | fewer _ => .ifFewer
  | reached _ => .ifReached
  | fewerThan _ => .ifFewerThan
  | reachedBy _ => .ifReachedBy

def operands : Test → List Word
  | fewer n | fewerThan n | reachedBy n => [.number n]
  | reached bound => [bound]
  | _ => []

def words (test : Test) : List Word := .number test.opcode.number :: test.operands

def ofWords? : Opcode → List Word → Option Test
  | .ifTrue, [] => some isTrue
  | .ifFailed, [] => some isFailed
  | .ifMatched, [] => some isMatched
  | .ifFewer, [.number n] => some (fewer n)
  | .ifReached, [bound] => some (reached bound)
  | .ifFewerThan, [.number n] => some (fewerThan n)
  | .ifReachedBy, [.number n] => some (reachedBy n)
  | _, _ => none

end Test

/-- The number of a truth value. -/
def flagWord (flag : Bool) : Int := flag.toInt

def flag? (word : Int) : Option Bool :=
  if word = 0 then some false else if word = 1 then some true else none

namespace Instr

mutual

/-- The words of one instruction. -/
def words : Instr → List Word
  | op o => o.words
  | branch test yes no =>
    test.words ++ Word.ofInts [(encode yes).length, (encode no).length] ++ encode yes ++ encode no
  | loop endless body =>
    Word.ofInts [Opcode.loop.number, flagWord endless, (encode body).length] ++ encode body

/-- The words of instructions in a row. -/
def encode : List Instr → List Word
  | [] => []
  | instr :: rest => words instr ++ encode rest

end

/-- The first `count` words and the others, if there are as many. -/
def cut? (count : Int) (ws : List Word) : Option (List Word × List Word) :=
  if 0 ≤ count ∧ count ≤ ws.length then some (ws.splitAt count.toNat) else none

/-- The operands of an opcode at the head of `ws`, and the words behind them. -/
def cutOperands? (layout : Layout) (ws : List Word) : Option (List Word × List Word) :=
  match layout with
  | .operands count | .test count => cut? count ws
  | .counted before => do cut? (before + (← (← ws[before - 1]?).number?)) ws
  | .loop => cut? 1 ws

/-- Reads instructions up to the end of the words. The number of words bounds `fuel`. -/
def decodeFrom? : (fuel : Nat) → List Word → Option (List Instr)
  | _, [] => some []
  | 0, _ :: _ => none
  | fuel + 1, word :: ws => do
    let opcode ← Opcode.ofNumber? (← word.number?)
    let (operands, ws) ← cutOperands? opcode.layout ws
    match opcode.layout with
    | .operands _ | .counted _ =>
      return op (← Op.ofWords? opcode (← Word.toInts? operands)) :: (← decodeFrom? fuel ws)
    | .test _ =>
      let test ← Test.ofWords? opcode operands
      let (lengths, ws) ← cut? 2 ws
      let (yes, ws) ← cut? (← (← lengths[0]?).number?) ws
      let (no, ws) ← cut? (← (← lengths[1]?).number?) ws
      return branch test (← decodeFrom? fuel yes) (← decodeFrom? fuel no) ::
        (← decodeFrom? fuel ws)
    | .loop =>
      let endless ← flag? (← (← operands[0]?).number?)
      let (lengths, ws) ← cut? 1 ws
      let (body, ws) ← cut? (← (← lengths[0]?).number?) ws
      return loop endless (← decodeFrom? fuel body) :: (← decodeFrom? fuel ws)

def decode? (ws : List Word) : Option (List Instr) := decodeFrom? ws.length ws

end Instr

end PegCompiler
