import PegCompiler.Grammar.Scan
import PegCompiler.Text.VariableName

/-!
Reading a grammar from its text. From the outside in:

    grammar   := (code ";"?)? rule+
    rule      := name string? "=" choice ";"?
    choice    := action ("/" action)*
    action    := sequence code?
    sequence  := labeled+
    labeled   := ("@" (name ":")? | name ":")? prefixed
    prefixed  := ("&" | "!") code | ("$" | "&" | "!")? suffixed
    suffixed  := primary ("?" | "*" | "+" | range)?
    range     := "|" (bound? ".." bound? | bound) ("," choice)? "|"
    primary   := string | class | "." | name | "(" choice ")"

A sequence ends before a token that cannot begin an element and before the head of the next rule.
Every production is a function of `nested`, which reads the choices inside it; `choice` closes the
circle, and its argument bounds how deep choices nest. `inDelimiter` says that a bar closes the
enclosing range instead of opening one.
-/

namespace PegCompiler

namespace Scan

/-- What `scan` finds from here on; the cursor stays. -/
def lookAhead {α : Type} (scan : Scan α) : Scan α := fun cursor =>
  match scan cursor with
  | .ok (found, _) => .ok (found, cursor)
  | .error error => .error error

def startsQuote (c : Option CodePoint) : Bool :=
  c == some (CodePoint.scalar '\x27') || c == some (CodePoint.scalar '\x22')

/-- A name, an optional string and an equals sign. -/
def ruleHead : Scan Bool := do
  if !(← nameAhead) then return false
  discard name
  skip
  if startsQuote (← get).peek? then
    discard string
    skip
  return (← get).startsWith "="

/-- A text that cannot even be scanned is no rule head. -/
def ruleHeadAhead : Scan Bool := fun cursor =>
  match ruleHead cursor with
  | .ok (found, _) => .ok (found, cursor)
  | .error _ => .ok (false, cursor)

def labelAhead : Scan Bool := lookAhead do
  if !(← nameAhead) then return false
  discard name
  skip
  return (← get).startsWith ":"

/-- A label with its colon, and where the label stands. -/
def label : Scan (Text × Location) := do
  skip
  let first ← get
  let found ← name
  if Text.reservedWords.contains found then fail (.reservedLabel found) first
  let location ← locationFrom first
  eat ":"
  return (found, location)

abbrev Nested := Bool → Scan Expr

def primary (nested : Nested) : Scan Expr := do
  skip
  let first ← get
  match first.peek? with
  | some (.scalar '\x27') | some (.scalar '\x22') => literal
  | some (.scalar '[') => charClass
  | some (.scalar '.') =>
    set first.next
    return .any { location := ← locationFrom first }
  | some (.scalar '(') =>
    set first.next
    let body ← nested false
    eat ")"
    match body with
    | .sequence .. | .labeled .. => return .unary { location := ← locationFrom first } .group body
    | _ => return body
  | other =>
    if ← nameAhead then
      let found ← name
      return .ruleRef { location := ← locationFrom first } found
    else fail (.expression other) first

def bound : Scan (Option Boundary) := do
  skip
  let cursor ← get
  let digits := cursor.after.takeWhile fun c => 0x30 ≤ c.toNat && c.toNat ≤ 0x39
  if digits.isEmpty then
    if ← nameAhead then return some (.label (.text (← name))) else return none
  else if Numeral.limit < digits.length then fail (.tooLong digits.length) cursor
  else
    set (cursor.advance digits.length)
    return some (.count (digits.foldl (fun n d => n * 10 + (d.toNat - 0x30)) 0 : Nat))

/-- The bounds of a range, each with the place where it stands. -/
def bounds : Scan ((Boundary × Cursor) × (Boundary × Cursor)) := do
  skip
  let lowAt ← get
  let low ← bound
  if ← tryEat ".." then
    skip
    let highAt ← get
    let high ← bound
    return ((low.getD (.count 0), lowAt), (high.getD .unbounded, highAt))
  else
    match low with
    | some boundary => return ((boundary, lowAt), (boundary, lowAt))
    | none => do fail .rangeBoundary (← get)

/-- Constant bounds are checked at once: a maximum above zero, and a minimum not above it. -/
def checkBounds : (Boundary × Cursor) × (Boundary × Cursor) → Scan Unit
  | ((low, lowAt), (high, highAt)) =>
    match low, high with
    | _, .count 0 => fail .zeroMaximum highAt
    | .count low, .count high =>
      if high < low then fail (.minimumExceedsMaximum low high) lowAt else return ()
    | _, _ => return ()

/-- The rest of a range over `body` from its opening bar on; `first` is where `body` began. -/
def range (nested : Nested) (first : Cursor) (body : Expr) : Scan Expr := do
  modify Cursor.next
  let found ← bounds
  checkBounds found
  let delimiter ← if ← tryEat "," then some <$> nested true else pure none
  eat "|"
  return .range { location := ← locationFrom first } found.1.1 found.2.1 body delimiter

def suffixed (nested : Nested) (inDelimiter : Bool) : Scan Expr := do
  skip
  let first ← get
  let body ← primary nested
  let apply (operator : Operator) : Scan Expr := do
    modify Cursor.next
    return .unary { location := ← locationFrom first } operator body
  match ← ahead with
  | some (.scalar '?') => apply .optional
  | some (.scalar '*') => apply .zeroOrMore
  | some (.scalar '+') => apply .oneOrMore
  | some (.scalar '|') => if inDelimiter then return body else range nested first body
  | _ => return body

def prefixed (nested : Nested) (inDelimiter : Bool) : Scan Expr := do
  skip
  let first ← get
  let lookahead (negative : Bool) : Scan Expr := do
    set first.next
    if (← ahead) == some (CodePoint.scalar '\x7b') then
      let (code, _) ← code
      return .predicate { location := ← locationFrom first } negative code
    else
      let body ← suffixed nested inDelimiter
      let operator := if negative then Operator.notFollowedBy else .followedBy
      return .unary { location := ← locationFrom first } operator body
  match first.peek? with
  | some (.scalar '&') => lookahead false
  | some (.scalar '!') => lookahead true
  | some (.scalar '$') =>
    set first.next
    let body ← suffixed nested inDelimiter
    return .unary { location := ← locationFrom first } .text body
  | _ => suffixed nested inDelimiter

def labeled (nested : Nested) (inDelimiter : Bool) : Scan Expr := do
  skip
  let first ← get
  let auto := first.peek? == some (CodePoint.scalar '@')
  if auto then set first.next
  if ← labelAhead then
    let (found, location) ← label
    let body ← prefixed nested inDelimiter
    return .labeled { location := ← locationFrom first } (some found) (some location) auto body
  else
    let body ← prefixed nested inDelimiter
    if auto then return .labeled { location := ← locationFrom first } none none true body
    else return body

def sequenceEnds : Scan Bool := do
  match ← ahead with
  | none => return true
  | some c =>
    if (Text.ofString ")/;\x7b|,").contains c then return true else ruleHeadAhead

def elements (nested : Nested) (inDelimiter : Bool) : Nat → Scan (List Expr)
  | 0 => do fail .tooDeep (← get)
  | fuel + 1 => do
    if ← sequenceEnds then return []
    let first ← labeled nested inDelimiter
    return first :: (← elements nested inDelimiter fuel)

def isAuto : Expr → Bool
  | .labeled _ _ _ auto _ => auto
  | _ => false

/-- A single element stands for itself, unless it is an auto label. -/
def sequence (nested : Nested) (inDelimiter : Bool) : Scan Expr := do
  skip
  let first ← get
  let found ← elements nested inDelimiter (first.after.length + 1)
  match found with
  | [] => do fail .emptyExpression (← get)
  | [only] =>
    if isAuto only then return .sequence { location := ← locationFrom first } found
    else return only
  | _ => return .sequence { location := ← locationFrom first } found

def action (nested : Nested) (inDelimiter : Bool) : Scan Expr := do
  skip
  let first ← get
  let body ← sequence nested inDelimiter
  if (← ahead) == some (CodePoint.scalar '\x7b') then
    let (code, location) ← code
    return .action { location := ← locationFrom first } code (some location) body
  else return body

/-- The alternatives behind the first one. -/
def alternatives (nested : Nested) (inDelimiter : Bool) : Nat → Scan (List Expr)
  | 0 => do fail .tooDeep (← get)
  | fuel + 1 => do
    if ← tryEat "/" then
      let first ← action nested inDelimiter
      return first :: (← alternatives nested inDelimiter fuel)
    else return []

def choiceOf (nested : Nested) (inDelimiter : Bool) : Scan Expr := do
  skip
  let first ← get
  let found ← action nested inDelimiter
  match ← alternatives nested inDelimiter (first.after.length + 1) with
  | [] => return found
  | others => return .choice { location := ← locationFrom first } (found :: others)

def choice : Nat → Nested
  | 0 => fun _ => do fail .tooDeep (← get)
  | fuel + 1 => choiceOf (choice fuel)

/-- What may stand behind the expression of a rule, and the rule itself. -/
def ruleEnd (first : Cursor) (found : Text) (nameLocation : Location) (body : Expr) : Scan Rule := do
  let location ← locationFrom first
  discard (tryEat ";")
  return { name := found, body, location := some location, nameLocation := some nameLocation }

/-- What stands behind the head of a rule. A display name becomes a node around the whole expression. -/
def definition (nested : Nested) (first displayFirst : Cursor) (found : Text) (nameLocation : Location)
    (display : Option Text) : Scan Rule := do
  eat "="
  let body ← nested false
  let body : Expr ← match display with
    | some display => pure (.named { location := ← locationFrom displayFirst } display body)
    | none => pure body
  ruleEnd first found nameLocation body

def rule (nested : Nested) : Scan Rule := do
  skip
  let first ← get
  let found ← name
  let nameLocation ← locationFrom first
  skip
  let displayFirst ← get
  let display ← if startsQuote displayFirst.peek? then some <$> string else pure none
  definition nested first displayFirst found nameLocation display

def rules (nested : Nested) : Nat → Scan (List Rule)
  | 0 => do fail .tooDeep (← get)
  | fuel + 1 => do
    skip
    if (← get).atEnd then return []
    let first ← rule nested
    return first :: (← rules nested fuel)

def initializer : Scan (Option Initializer) := do
  let first ← get
  if first.peek? == some (CodePoint.scalar '\x7b') then
    let (code, _) ← code
    let location ← locationFrom first
    discard (tryEat ";")
    return some { code, location := some location }
  else return none

def grammar (depth : Nat) : Scan Grammar := do
  skip
  let first ← get
  let initializer ← initializer
  let found ← rules (choice depth) (first.after.length + 1)
  if found.isEmpty then fail .noRules (← get)
  return { rules := found, initializer, location := some (← locationFrom first) }

end Scan

/-- Reads the grammar written in `text`; choices cannot nest deeper than the text is long. -/
def Grammar.read (text : Text) (source : Option Text) : Except SyntaxError Grammar :=
  return (← Scan.grammar (text.length + 1) (.start source text)).1

end PegCompiler
