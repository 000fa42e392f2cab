import PegCompiler.Emit.Module
import PegCompiler.Text.Lines
import PegCompiler.Text.NormalForm
import PegCompiler.Text.Printable
import PegCompiler.Text.VariableName

/-!
What keeps emitted code from being loaded. The language it is written in has narrower names than
grammars have, and bounds on how deep its blocks can lie; user code can hold characters that it
does not take. The code is read once for its characters and its indentation, then the parameters of
user functions are looked at, how loops lie in each other, and the name of the exported object.
-/

namespace PegCompiler

/-- Why emitted code cannot be loaded, and the line where that is found. -/
inductive LoadFault
  | nullCharacter
  | badCharacter (char : CodePoint) (line : Nat)
  /-- A string that does not end on its line. -/
  | openString (line : Nat)
  /-- A decimal number that begins with a zero. -/
  | leadingZero (line : Nat)
  | tooDeep (line : Nat)
  /-- Two parameters have the same normal form. -/
  | sameParameter (name : Text) (line : Nat)
  /-- A parameter or the exported object has the name of the one variable that cannot be set. -/
  | fixedName (line : Nat)
  /-- The exported object has the name of a reserved word. -/
  | reservedName (name : Text) (line : Nat)
  | tooManyLoops (line : Nat)
  deriving DecidableEq, Repr

namespace LoadFault

def placed (line : Nat) (message : Text) : Text :=
  message ++ " (<pegc_parser>, line " ++ Text.ofNat line ++ ")"

def character (c : CodePoint) : Text :=
  let number := "U+" ++ Text.upperHexadecimal 4 c.toNat
  if c.isPrintable then "character '" ++ [c] ++ "' (" ++ number ++ ")"
  else "non-printable character " ++ number

/-- What is said about an assignment to a reserved word. -/
def reserved (name : Text) : Text :=
  if (List.map Text.ofString ["False", "None", "True"]).contains name then "cannot assign to " ++ name
  else if name = "try" then "expected ':'"
  else if name = "yield" then "assignment to yield expression not possible"
  else "invalid syntax"

def message : LoadFault → Text
  | nullCharacter => "source code string cannot contain null bytes"
  | badCharacter c line => placed line ("invalid " ++ character c)
  | openString line => placed line
      ("unterminated string literal (detected at line " ++ Text.ofNat line ++ ")")
  | leadingZero line => placed line ("leading zeros in decimal integer literals are not permitted; "
      ++ "use an 0o prefix for octal integers")
  | tooDeep line => placed line "too many levels of indentation"
  | sameParameter name line => placed line
      ("duplicate argument '" ++ name ++ "' in function definition")
  | fixedName line => placed line "cannot assign to __debug__"
  | reservedName name line => placed line (reserved name)
  | tooManyLoops line => placed line "too many statically nested blocks"

end LoadFault

namespace Loading

/-! ## Characters and indentation -/

/-- What a reading is in the middle of. -/
inductive Mode
  /-- The blanks at the beginning of a line, and how many there were. -/
  | margin (blanks : Nat)
  | plain
  | name
  /-- A point that is in no number so far. -/
  | point
  | number
  /-- Zeros that begin a number. -/
  | zeros
  /-- Digits behind zeros. -/
  | digitsBehindZeros
  | comment
  /-- A string; a long one ends at three quotes only. -/
  | string (quote : CodePoint) (long : Bool)
  /-- What follows a backslash in a string. -/
  | escape (quote : CodePoint) (long : Bool)
  /-- One quote was read, which begins a string. -/
  | opened (quote : CodePoint)
  /-- Two quotes were read: an empty string, or the beginning of a long one. -/
  | emptied (quote : CodePoint)
  /-- One or two quotes were read in a long string. -/
  | closing (quote : CodePoint) (second : Bool)
  deriving DecidableEq, Repr

/-- The blanks before a line that lies in a hundred blocks, one more than there can be. -/
def tooFarIn : Nat := 4 * 100

/-- `c` belongs to a name, well or badly. -/
def isPart (c : CodePoint) : Bool := 128 ≤ c.toNat || c.continuesVariable

/-- A control character that is neither a tab nor ends a line or a page. -/
def isControl (c : CodePoint) : Bool :=
  c.toNat = 127 || (c.toNat < 32 && !([9, 10, 12].contains c.toNat))

/-- One of the digits that numbers are written with. -/
def isFigure (c : CodePoint) : Bool := CodePoint.between '0' '9' c

/-- The number goes on, with a fraction or an exponent or in another base. -/
def continuesNumber (c : CodePoint) : Bool := c = '.' || (c.toNat < 128 && c.continuesVariable)

/-- What makes a number whose digits go before it a fraction or an imaginary number. -/
def isFractional (c : CodePoint) : Bool := ['.', 'e', 'E', 'j', 'J'].any fun mark => c = .scalar mark

/-- Reads `c` where nothing goes on that came before. -/
def outside (line : Nat) (c : CodePoint) : Except LoadFault Mode :=
  if c = Text.newline then .ok (.margin 0)
  else if c = Text.singleQuote || c = Text.doubleQuote then .ok (.opened c)
  else if c = '#' then .ok .comment
  else if c = '.' then .ok .point
  else if c = '0' then .ok .zeros
  else if isFigure c then .ok .number
  else if c.startsVariable then .ok .name
  else if 128 ≤ c.toNat || isControl c then .error (.badCharacter c line)
  else .ok .plain

def inString (line : Nat) (quote : CodePoint) (long : Bool) (c : CodePoint) :
    Except LoadFault Mode :=
  if c = '\\' then .ok (.escape quote long)
  else if c = quote then .ok (if long then .closing quote false else .plain)
  else if c = Text.newline && !long then .error (.openString line)
  else .ok (.string quote long)

/-- Reads one code point. -/
def step (line : Nat) : Mode → CodePoint → Except LoadFault Mode
  | .margin blanks, c =>
    if c = ' ' then .ok (.margin (blanks + 1))
    else if tooFarIn ≤ blanks && c != Text.newline && c != '#' then .error (.tooDeep line)
    else outside line c
  | .plain, c => outside line c
  | .name, c =>
    if !isPart c then outside line c
    else if c.continuesVariable then .ok .name
    else .error (.badCharacter c line)
  | .point, c => if isFigure c then .ok .number else outside line c
  | .number, c => if continuesNumber c then .ok .number else outside line c
  | .zeros, c =>
    if c = '0' then .ok .zeros
    else if isFigure c then .ok .digitsBehindZeros
    else if continuesNumber c then .ok .number
    else outside line c
  | .digitsBehindZeros, c =>
    if isFigure c then .ok .digitsBehindZeros
    else if isFractional c then .ok .number
    else .error (.leadingZero line)
  | .comment, c => .ok (if c = Text.newline then .margin 0 else .comment)
  | .string quote long, c => inString line quote long c
  | .escape quote long, _ => .ok (.string quote long)
  | .opened quote, c => if c = quote then .ok (.emptied quote) else inString line quote false c
  | .emptied quote, c => if c = quote then .ok (.string quote true) else outside line c
  | .closing quote second, c =>
    if c = quote then .ok (if second then .plain else .closing quote true)
    else inString line quote true c

def readFrom (mode : Mode) (line : Nat) : Text → Except LoadFault Unit
  | [] => .ok ()
  | c :: rest => do
    readFrom (← step line mode c) (if c = Text.newline then line + 1 else line) rest

/-- Every code point can stand where it does, and no line is too far in. -/
def checkCharacters (code : Text) : Except LoadFault Unit :=
  if code.contains (CodePoint.ofNat 0) then .error .nullCharacter else readFrom (.margin 0) 1 code

/-! ## Parameters -/

/-- The one variable that cannot be set. -/
def fixed : Text := "__debug__"

/-- The first name that was there before; `passed` are those before the list. -/
def repeated? (passed : List Text) : List Text → Option Text
  | [] => none
  | name :: rest => if passed.contains name then some name else repeated? (name :: passed) rest

/-- The number of the line on which a user function begins. -/
def functionLine (lines : List Text) (index : Nat) (function : UserFunction) : Nat :=
  lines.idxOf (Emit.indentation ++ Emit.functionHeading index function) + 1

/-- Faults with the first function that has two parameters of the same name, then with the first
that has one that cannot be set. -/
def checkParameters (lines : List Text) (functions : List UserFunction) : Except LoadFault Unit := do
  let numbered := functions.zipIdx
  numbered.forM fun (function, index) =>
    match repeated? [] (function.params.map Text.normalForm) with
    | some name => .error (.sameParameter name (functionLine lines index function))
    | none => .ok ()
  numbered.forM fun (function, index) =>
    if (function.params.map Text.normalForm).contains fixed then
      .error (.fixedName (functionLine lines index function))
    else .ok ()

/-! ## Loops -/

/-- As many loops can lie in each other. -/
def loopLimit : Nat := 20

/-- `around` are the indentations of the loops that lie around a line, unless it is too far out. -/
def checkLoops (around : List Nat) (number : Nat) : List Text → Except LoadFault Unit
  | [] => .ok ()
  | line :: rest =>
    let blanks := (line.takeWhile fun c => c = CodePoint.scalar ' ').length
    let statement := line.drop blanks
    let inside := around.filter (· < blanks)
    if statement.isEmpty then checkLoops around (number + 1) rest
    else if statement = Emit.loopHeading then
      if loopLimit ≤ inside.length then .error (.tooManyLoops number)
      else checkLoops (blanks :: inside) (number + 1) rest
    else checkLoops inside (number + 1) rest

/-! ## The exported object -/

/-- The number of the line that gives the exported object its name, the last but one. -/
def exportLine (lines : List Text) : Nat := lines.length - 2

/-- The exported object has this name, after which nothing else is found under it. -/
def hides (object : Option Text) (name : Text) : Bool := object.map Text.normalForm = some name

def checkReserved (lines : List Text) (object : Option Text) : Except LoadFault Unit :=
  match object.filter Text.reservedWords.contains with
  | some name => .error (.reservedName name (exportLine lines))
  | none => .ok ()

def checkFixed (lines : List Text) (object : Option Text) : Except LoadFault Unit :=
  if hides object fixed then .error (.fixedName (exportLine lines)) else .ok ()

/-- Emitted code with these user functions can be loaded; `object` is the name of the exported
object. -/
def check (functions : List UserFunction) (object : Option Text) (code : Text) :
    Except LoadFault Unit := do
  let code := Text.normalizeNewlines code
  let lines := Text.splitAt Text.newline code
  checkCharacters code
  checkReserved lines object
  checkParameters lines functions
  checkLoops [] 1 lines
  checkFixed lines object

end Loading

end PegCompiler
