import PegCompiler.Grammar.Cursor
import PegCompiler.Text.Numeral
import PegCompiler.Text.Quoted

/-!
Why a grammar text cannot be read. An error keeps the place where it was noticed; its message shows
line and column, the line itself and a caret below the place. A number of too many digits is the one
thing that keeps a well-formed text from being read, and is told without a place.
-/

namespace PegCompiler

inductive SyntaxFault
  | unclosedComment
  | expected (literal : Text) (found : Option CodePoint)
  | identifier
  | unterminatedEscape
  | invalidEscape (letter : CodePoint)
  | unterminatedString
  | unterminatedClass
  | invalidRange (lo hi : CodePoint)
  | codeBlock
  | unterminatedCode
  | noRules
  | emptyExpression
  | expression (found : Option CodePoint)
  | reservedLabel (label : Text)
  | rangeBoundary
  | zeroMaximum
  | minimumExceedsMaximum (min max : Int)
  | tooDeep
  | tooLong (digits : Nat)
  deriving DecidableEq, Repr

namespace SyntaxFault

def describeFound : Option CodePoint → Text
  | none => "end of input"
  | some c => Text.quoted [c]

def message : SyntaxFault → Text
  | unclosedComment => "Unclosed block comment"
  | expected literal found => "Expected " ++ literal.quoted ++ ", found " ++ describeFound found
  | identifier => "Expected identifier"
  | unterminatedEscape => "Unterminated escape sequence"
  | invalidEscape letter => "Invalid \\" ++ [letter] ++ " escape"
  | unterminatedString => "Unterminated string literal"
  | unterminatedClass => "Unterminated character class"
  | invalidRange lo hi => "Invalid character range: " ++ [lo] ++ "-" ++ [hi] ++ "."
  | codeBlock => "Expected code block"
  | unterminatedCode => "Unterminated code block"
  | noRules => "Grammar must contain at least one rule"
  | emptyExpression => "Expected expression"
  | expression found => "Expected expression, found " ++ describeFound found
  | reservedLabel label => "Label can't be a reserved word \"" ++ label ++ "\"."
  | rangeBoundary => "Expected range boundary or '..'"
  | zeroMaximum => "The maximum count of repetitions must be greater than 0"
  | minimumExceedsMaximum min max =>
    "The minimum count of repetitions (" ++ Text.ofInt min ++ ") exceeds the maximum ("
      ++ Text.ofInt max ++ ")"
  | tooDeep => "The grammar nests too deeply"
  | tooLong digits => Numeral.tooLongMessage digits

/-- Whether the text is no grammar. -/
def isMalformed : SyntaxFault → Bool
  | tooLong _ => false
  | _ => true

end SyntaxFault

structure SyntaxError where
  fault : SyntaxFault
  cursor : Cursor

namespace SyntaxError

def location (error : SyntaxError) : Location := error.cursor.locationBetween error.cursor

/-- The place of an error, as a message ends with it. -/
def place (error : SyntaxError) : Text :=
  let position := error.cursor.position
  " at " ++ Text.ofInt position.line ++ ":" ++ Text.ofInt position.column
    ++ "\n" ++ error.cursor.line ++ "\n" ++ Text.blanks (position.column - 1).toNat ++ "^"

def message (error : SyntaxError) : Text :=
  error.fault.message ++ if error.fault.isMalformed then error.place else []

end SyntaxError

end PegCompiler
