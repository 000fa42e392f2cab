import PegCompiler.Code.Reading

/-!
Listings of words: one instruction to a line, the blocks of tests and loops indented below it. The
second block of a test is left out if its length is zero.
-/

namespace PegCompiler

inductive ListingError
  | missingWord
  | invalidOpcode (word : Word)
  deriving DecidableEq, Repr

namespace ListingError

def message : ListingError → Text
  | missingWord => "list index out of range"
  | invalidOpcode word => word.value.written ++ " is not a valid Op"

end ListingError

namespace Listing

def indent (depth : Nat) (line : Text) : Text := Text.blanks (2 * depth) ++ line

/-- An opcode with its operands. -/
def heading (opcode : Opcode) (operands : List Word) : Text :=
  Text.join " " (opcode.name :: operands.map Word.shown)

/-- The operands of the instruction at `place`: a piece of the words, as long as the layout says.
At negative places a piece can be empty where every one of its words can be read. -/
def operands (ws : List Word) (place : Int) (opcode : Opcode) : List Word :=
  let count : Int := match opcode.layout with
    | .operands count | .test count => count
    | .counted before => before + (Words.number? ws (place + before)).getD 0
    | .loop => 0
  Index.slice ws (place + 1) (place + 1 + count)

mutual

/-- The lines of instructions that were read from `ws`. -/
def lines (ws : List Word) (depth : Nat) : List Reading → Except ListingError (List Text)
  | [] => .ok []
  | reading :: rest => return (← one ws depth reading) ++ (← lines ws depth rest)

def one (ws : List Word) (depth : Nat) : Reading → Except ListingError (List Text)
  | .plain place opcode _ _ => return [indent depth (heading opcode (operands ws place opcode))]
  | .test place opcode _ elseLength yes no => do
    let head := [indent depth (heading opcode (operands ws place opcode)), indent depth "then:"]
    let yes ← lines ws (depth + 1) yes
    if elseLength = 0 then return head ++ yes
    return head ++ yes ++ [indent depth "else:"] ++ (← lines ws (depth + 1) no)
  | .loop _ flag body => do
    let shown : Text := if flag = 0 then "LOOP false" else "LOOP true"
    return indent depth shown :: (← lines ws (depth + 1) body)
  | .cutTest .. | .missing => .error .missingWord
  | .invalid _ word => .error (.invalidOpcode word)

end

/-- The listing of a rule's words. -/
def ofWords (ws : List Word) : Except ListingError (List Text) := lines ws 0 (Reading.ofWords ws)

end Listing

end PegCompiler
