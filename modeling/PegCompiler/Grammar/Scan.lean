import PegCompiler.Grammar.Basic
import PegCompiler.Grammar.SyntaxError
import PegCompiler.Text.Identifier

/-!
The pieces a grammar text is written with: blanks and comments, names, numbers, string literals
and character classes with their escapes, and code blocks. Each of them is a function from a
cursor to the cursor behind the piece.
-/

namespace PegCompiler

abbrev Scan (α : Type) := StateT Cursor (Except SyntaxError) α

namespace Scan

def fail {α : Type} (fault : SyntaxFault) (cursor : Cursor) : Scan α := throw ⟨fault, cursor⟩

/-- The piece from `first` on up to the place reached. -/
def locationFrom (first : Cursor) : Scan Location :=
  return first.locationBetween (← get)

def isBlank (c : CodePoint) : Bool :=
  c == ' ' || c == '\t' || c == '\r' || c == '\n' || c == '\x0c' || c == '\x0b' || c == '\uFEFF'

/-- The cursor behind the next `*/`, if there is one. -/
def commentEnd? : Nat → Cursor → Option Cursor
  | 0, _ => none
  | fuel + 1, cursor =>
    if cursor.startsWith "*/" then some (cursor.advance 2)
    else if cursor.atEnd then none
    else commentEnd? fuel cursor.next

/-- The end of the line that the cursor is on. -/
def lineEnd (cursor : Cursor) : Cursor :=
  cursor.advance (cursor.after.takeWhile (· ≠ CodePoint.scalar '\n')).length

/-- Skips white space, `/* ... */` and comments that start with `//` or `#` and end with the line. -/
def skipFrom : Nat → Cursor → Except SyntaxError Cursor
  | 0, cursor => .ok cursor
  | fuel + 1, cursor =>
    match cursor.peek? with
    | none => .ok cursor
    | some c =>
      if cursor.startsWith "/*" then
        match commentEnd? (cursor.after.length + 1) (cursor.advance 2) with
        | some after => skipFrom fuel after
        | none => .error ⟨.unclosedComment, cursor⟩
      else if isBlank c then skipFrom fuel cursor.next
      else if cursor.startsWith "//" || c == '#' then skipFrom fuel (lineEnd cursor)
      else .ok cursor

def skip : Scan Unit := fun cursor => do
  let after ← skipFrom (cursor.after.length + 1) cursor
  return ((), after)

/-- The next code point behind blanks; it is not consumed. -/
def ahead : Scan (Option CodePoint) := do
  skip
  return (← get).peek?

def eat (literal : Text) : Scan Unit := do
  skip
  let cursor ← get
  if cursor.startsWith literal then set (cursor.advance literal.length)
  else fail (.expected literal cursor.peek?) cursor

/-- Consumes `literal` if it comes next. -/
def tryEat (literal : Text) : Scan Bool := do
  skip
  let cursor ← get
  if cursor.startsWith literal then
    set (cursor.advance literal.length)
    return true
  else return false

def name : Scan Text := do
  skip
  let cursor ← get
  match cursor.after.splitName? with
  | some (found, _) =>
    set (cursor.advance found.length)
    return found
  | none => fail .identifier cursor

def nameAhead : Scan Bool := do
  skip
  return (← get).after.startsWithName

def hexDigit? (c : CodePoint) : Option Nat :=
  let n := c.toNat
  if 0x30 ≤ n ∧ n ≤ 0x39 then some (n - 0x30)
  else if 0x41 ≤ n ∧ n ≤ 0x46 then some (n - 0x37)
  else if 0x61 ≤ n ∧ n ≤ 0x66 then some (n - 0x57)
  else none

/-- The number written by exactly `width` hexadecimal digits. -/
def hexNumber? (width : Nat) (t : Text) : Option Nat :=
  let digits := (t.take width).filterMap hexDigit?
  if digits.length = width then some (digits.foldl (fun n d => n * 16 + d) 0) else none

/-- What a letter stands for behind a backslash, if it is one of the short escapes. -/
def shortEscape? : CodePoint → Option CodePoint
  | .scalar 'n' => some '\n'
  | .scalar 'r' => some '\r'
  | .scalar 't' => some '\t'
  | .scalar 'b' => some '\x08'
  | .scalar 'f' => some '\x0c'
  | .scalar 'v' => some '\x0b'
  | .scalar '0' => some '\x00'
  | .scalar '\\' => some '\\'
  | .scalar '\x27' => some '\x27'
  | .scalar '\x22' => some '\x22'
  | _ => none

/-- An escape behind its backslash. A code point that begins no escape stands for itself. -/
def escape : Scan CodePoint := do
  let cursor ← get
  match cursor.peek? with
  | none => fail .unterminatedEscape cursor
  | some c =>
    match shortEscape? c with
    | some meant =>
      set cursor.next
      return meant
    | none =>
      if c == 'x' || c == 'u' then
        let width := if c == 'x' then 2 else 4
        match hexNumber? width cursor.next.after with
        | some n =>
          set (cursor.advance (width + 1))
          return CodePoint.ofNat n
        | none => fail (.invalidEscape c) cursor
      else
        set cursor.next
        return c

/-- A code point or an escape. -/
def element (c : CodePoint) : Scan CodePoint := do
  modify Cursor.next
  if c == '\\' then escape else return c

/-- The rest of a string up to its closing `quote`; `opening` is where the string began. -/
def stringBody (opening : Cursor) (quote : CodePoint) : Nat → Scan Text
  | 0 => fail .unterminatedString opening
  | fuel + 1 => do
    let cursor ← get
    match cursor.peek? with
    | none => fail .unterminatedString opening
    | some c =>
      if c == '\n' then fail .unterminatedString opening
      else if c == quote then
        set cursor.next
        return []
      else
        let first ← element c
        return first :: (← stringBody opening quote fuel)

/-- A string that starts with the quote at the cursor. -/
def string : Scan Text := do
  let opening ← get
  match opening.peek? with
  | none => fail .unterminatedString opening
  | some quote =>
    set opening.next
    stringBody opening quote (opening.after.length + 1)

/-- The flag `i`, which follows a closing quote or bracket directly and begins no name. -/
def ignoreCaseFlag : Scan Bool := do
  let cursor ← get
  if cursor.peek? == some (CodePoint.scalar 'i') && !cursor.next.after.startsWithName then
    set cursor.next
    return true
  else return false

def literal : Scan Expr := do
  let first ← get
  let value ← string
  let ignoreCase ← ignoreCaseFlag
  return .literal { location := ← locationFrom first } value ignoreCase

def classElement : Scan CodePoint := do
  let cursor ← get
  match cursor.peek? with
  | none => fail .unterminatedClass cursor
  | some c => if c == '\n' then fail .unterminatedClass cursor else element c

/-- A dash follows, and behind it the upper end of a range. -/
def rangeAhead (cursor : Cursor) : Bool :=
  match cursor.after with
  | .scalar '-' :: .scalar ']' :: _ => false
  | .scalar '-' :: _ :: _ => true
  | _ => false

def classPart : Scan ClassPart := do
  let first ← get
  let lo ← classElement
  if rangeAhead (← get) then
    modify Cursor.next
    let hi ← classElement
    if hi.toNat < lo.toNat then fail (.invalidRange lo hi) first
    return .range lo hi
  else return .char lo

/-- The parts of a class up to its closing bracket. -/
def classParts : Nat → Scan (List ClassPart)
  | 0 => do fail .unterminatedClass (← get)
  | fuel + 1 => do
    let cursor ← get
    if cursor.peek? == some (CodePoint.scalar ']') then
      set cursor.next
      return []
    else
      let first ← classPart
      return first :: (← classParts fuel)

/-- A character class that starts with the bracket at the cursor. -/
def charClass : Scan Expr := do
  let first ← get
  modify Cursor.next
  let inverted := (← get).peek? == some (CodePoint.scalar '^')
  if inverted then modify Cursor.next
  let parts ← classParts (first.after.length + 1)
  let ignoreCase ← ignoreCaseFlag
  return .charClass { location := ← locationFrom first } ⟨parts, inverted, ignoreCase⟩

/-- The closing brace of a code block, searched with `depth` braces open. Braces in strings and in
comments of the user code do not count. -/
def codeEnd? (depth : Nat) (quote : Option CodePoint) : Nat → Cursor → Option Cursor
  | 0, _ => none
  | fuel + 1, cursor =>
    match cursor.peek?, quote with
    | none, _ => none
    | some c, some open_ =>
      if c == '\\' then codeEnd? depth quote fuel (cursor.advance 2)
      else if c == open_ then codeEnd? depth none fuel cursor.next
      else codeEnd? depth quote fuel cursor.next
    | some c, none =>
      if c == '\x27' || c == '\x22' then codeEnd? depth (some c) fuel cursor.next
      else if c == '#' then codeEnd? depth none fuel (lineEnd cursor)
      else if c == '\x7b' then codeEnd? (depth + 1) none fuel cursor.next
      else if c == '\x7d' then
        match depth with
        | 0 | 1 => some cursor
        | depth + 1 => codeEnd? depth none fuel cursor.next
      else codeEnd? depth none fuel cursor.next

/-- The code between a brace at the cursor and the brace that closes it, with its location. -/
def code : Scan (Text × Location) := do
  skip
  let opening ← get
  if opening.peek? != some (CodePoint.scalar '\x7b') then fail .codeBlock opening
  match codeEnd? 1 none (opening.after.length + 1) opening.next with
  | some closing =>
    set closing.next
    return (opening.next.textBetween closing, opening.next.locationBetween closing)
  | none => fail .unterminatedCode opening

end Scan

end PegCompiler
