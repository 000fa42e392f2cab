import PegCompiler.Text.CodePoint

/-!
The instruction set. A rule is compiled to a list of words: the number of an opcode, its operands,
and for tests and loops the blocks that belong to them, each after its length. Operands that refer
to constants are places in the tables of the grammar. Most opcodes work on a stack of results, some
on a stack of input positions.
-/

namespace PegCompiler

inductive Opcode
  | pushEmptyText
  | pushUndefined
  | pushNull
  | pushFailed
  | pushEmptyList
  | pushPosition
  | pop
  | loadPosition
  /-- Leaves the innermost loop; operands: how many results to replace by a failure. -/
  | leave
  | popPosition
  | append
  | wrap
  | text
  | ifTrue
  | ifFailed
  | ifMatched
  | matchAny
  | matchLiteral
  | matchLowercase
  | matchClass
  | acceptCount
  | acceptLiteral
  | expect
  /-- The mark becomes the position on top of the stack. -/
  | markTop
  /-- The mark becomes the current position. -/
  | markHere
  | call
  | rule
  | silence
  | unsilence
  | ifFewer
  | ifReached
  | ifFewerThan
  | ifReachedBy
  | get
  | wrapSome
  | openRecord
  | closeRecord
  | loop
  deriving DecidableEq, Repr

/-- What follows an opcode. -/
inductive Layout
  | operands (count : Nat)
  /-- After so many operands come as many more as the last of them says. -/
  | counted (before : Nat)
  /-- Operands, the lengths of two blocks, and the blocks. -/
  | test (operands : Nat)
  /-- A flag, the length of a block, and the block. -/
  | loop
  deriving DecidableEq, Repr

namespace Opcode

def all : List Opcode := [
  pushEmptyText, pushUndefined, pushNull, pushFailed, pushEmptyList, pushPosition, pop,
  loadPosition, leave, popPosition, append, wrap, text, ifTrue, ifFailed, ifMatched, matchAny,
  matchLiteral, matchLowercase, matchClass, acceptCount, acceptLiteral, expect, markTop, markHere,
  call, rule, silence, unsilence, ifFewer, ifReached, ifFewerThan, ifReachedBy, get, wrapSome,
  openRecord, closeRecord, loop]

def number : Opcode → Nat
  | pushEmptyText => 0
  | pushUndefined => 1
  | pushNull => 2
  | pushFailed => 3
  | pushEmptyList => 4
  | pushPosition => 5
  | pop => 6
  | loadPosition => 7
  | leave => 8
  | popPosition => 9
  | append => 10
  | wrap => 11
  | text => 12
  | ifTrue => 13
  | ifFailed => 14
  | ifMatched => 15
  | matchAny => 17
  | matchLiteral => 18
  | matchLowercase => 19
  | matchClass => 20
  | acceptCount => 21
  | acceptLiteral => 22
  | expect => 23
  | markTop => 24
  | markHere => 25
  | call => 26
  | rule => 27
  | silence => 28
  | unsilence => 29
  | ifFewer => 30
  | ifReached => 31
  | ifFewerThan => 32
  | ifReachedBy => 33
  | get => 36
  | wrapSome => 37
  | openRecord => 38
  | closeRecord => 39
  | loop => 41

def ofNumber? (n : Int) : Option Opcode := all.find? fun opcode => opcode.number = n

/-- The name of an opcode in a listing. -/
def name : Opcode → Text
  | pushEmptyText => "PUSH_EMPTY_STRING"
  | pushUndefined => "PUSH_UNDEFINED"
  | pushNull => "PUSH_NULL"
  | pushFailed => "PUSH_FAILED"
  | pushEmptyList => "PUSH_EMPTY_ARRAY"
  | pushPosition => "PUSH_CURR_POS"
  | pop => "POP"
  | loadPosition => "LOAD_CURR_POS"
  | leave => "BREAK"
  | popPosition => "POP_POS"
  | append => "APPEND"
  | wrap => "WRAP"
  | text => "TEXT"
  | ifTrue => "IF"
  | ifFailed => "IF_ERROR"
  | ifMatched => "IF_NOT_ERROR"
  | matchAny => "MATCH_ANY"
  | matchLiteral => "MATCH_LITERAL"
  | matchLowercase => "MATCH_LITERAL_IC"
  | matchClass => "MATCH_CLASS"
  | acceptCount => "ACCEPT_N"
  | acceptLiteral => "ACCEPT_STRING"
  | expect => "EXPECT"
  | markTop => "LOAD_SAVED_POS"
  | markHere => "UPDATE_SAVED_POS"
  | call => "CALL"
  | rule => "RULE"
  | silence => "SILENT_FAILS_ON"
  | unsilence => "SILENT_FAILS_OFF"
  | ifFewer => "IF_LT"
  | ifReached => "IF_GE"
  | ifFewerThan => "IF_LT_DYNAMIC"
  | ifReachedBy => "IF_GE_DYNAMIC"
  | get => "GET"
  | wrapSome => "WRAP_SOME"
  | openRecord => "EXPECT_NS_BEGIN"
  | closeRecord => "EXPECT_NS_END"
  | loop => "LOOP"

def layout : Opcode → Layout
  | leave | wrap | matchLiteral | matchLowercase | matchClass | acceptCount | acceptLiteral
  | expect | rule | closeRecord => .operands 1
  | get => .operands 2
  | wrapSome => .counted 2
  | call => .counted 3
  | ifTrue | ifFailed | ifMatched => .test 0
  | ifFewer | ifReached | ifFewerThan | ifReachedBy => .test 1
  | loop => .loop
  | _ => .operands 0

theorem ofNumber?_number (opcode : Opcode) : ofNumber? opcode.number = some opcode := by
  cases opcode <;> rfl

end Opcode

end PegCompiler
