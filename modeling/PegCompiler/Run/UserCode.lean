import PegCompiler.Run.State
import PegCompiler.Text.Identifier
import PegCompiler.Text.NormalForm
import PegCompiler.Text.Numeral

/-!
A small language for user code: nothing, `return` with a term, or a term on its own, whose value is
dropped.

    term    := sum (("==" | "!=") sum)*
    sum     := atom ("+" atom)*
    atom    := number | string | name | name "(" (term ("," term)*)? ")" | "[" (term ("," term)*)? "]"

A number with a point is a double. A name is a label, which counts in its normal form, or one of three
constants. The functions ask for the match (`text`, `offset`, `location`), look at a value (`len`,
`int`, `float`), or end the parse (`error`, `expected`).
-/

namespace PegCompiler

inductive Term
  | constant (value : Value)
  | name (name : Text)
  | list (items : List Term)
  | call (function : Text) (arguments : List Term)
  | add (left right : Term)
  /-- A chain of comparisons, each negated or not. -/
  | compare (first : Term) (others : List (Bool × Term))
  deriving Repr, Inhabited

/-- User code that was read. -/
structure Script where
  returns : Bool
  term : Option Term
  deriving Repr

namespace Script

/-! ## Reading -/

abbrev Reader (α : Type) := Text → Option (α × Text)

/-- What follows a mark, blanks before it apart. -/
def skip? (mark : Text) (t : Text) : Option Text :=
  let t := t.dropBlanks
  if mark.isPrefixOf t then some (t.drop mark.length) else none

def ofDigits (digits : Text) : Nat :=
  digits.foldl (fun n c => 10 * n + (c.toNat - 48)) 0

def isDigit (c : CodePoint) : Bool := CodePoint.between '0' '9' c

/-- The names that stand for a value of their own. -/
def constants : List (Text × Value) :=
  [("None", .null), ("True", .bool true), ("False", .bool false)]

/-- A number that begins with a digit. -/
def number (negative : Bool) (t : Text) : Value × Text :=
  let whole := t.takeWhile isDigit
  match t.dropWhile isDigit with
  | .scalar '.' :: rest =>
    let fraction := rest.takeWhile isDigit
    (.float (.ofDecimal negative (ofDigits (whole ++ fraction)) (-fraction.length)),
      rest.dropWhile isDigit)
  | rest => (.integer (if negative then -ofDigits whole else ofDigits whole), rest)

/-- A number, a string between quotes, or a name. -/
def leaf? : Reader Term
  | [] => none
  | c :: rest =>
    if isDigit c then
      let (value, rest) := number false (c :: rest)
      some (.constant value, rest)
    else if c = '-' && rest.head?.any isDigit then
      let (value, rest) := number true rest
      some (.constant value, rest)
    else if c = Text.singleQuote || c = Text.doubleQuote then
      (Text.splitFirst? c rest).map fun (inside, rest) => (.constant (.text inside), rest)
    else (Text.splitName? (c :: rest)).map fun (name, rest) =>
      match constants.lookup name with
      | some value => (.constant value, rest)
      | none => (.name name.normalForm, rest)

mutual

def term? : (fuel : Nat) → Reader Term
  | 0, _ => none
  | fuel + 1, t => do
    let (first, t) ← sum? fuel t
    let (others, t) ← comparisons? fuel t
    return (if others.isEmpty then first else .compare first others, t)

def comparisons? : (fuel : Nat) → Reader (List (Bool × Term))
  | 0, _ => none
  | fuel + 1, t => do
    let some (negated, rest) := ((skip? "==" t).map (false, ·)).orElse
        fun _ => (skip? "!=" t).map (true, ·)
      | return ([], t)
    let (other, t) ← sum? fuel rest
    let (others, t) ← comparisons? fuel t
    return ((negated, other) :: others, t)

def sum? : (fuel : Nat) → Reader Term
  | 0, _ => none
  | fuel + 1, t => do
    let (first, t) ← atom? fuel t
    addends? fuel first t

def addends? : (fuel : Nat) → Term → Reader Term
  | 0, _, _ => none
  | fuel + 1, left, t =>
    match skip? "+" t with
    | none => some (left, t)
    | some t => do
      let (right, t) ← atom? fuel t
      addends? fuel (.add left right) t

def atom? : (fuel : Nat) → Reader Term
  | 0, _ => none
  | fuel + 1, t =>
    match skip? "[" t with
    | some t => do
      let (items, t) ← terms? fuel "]" t
      return (.list items, t)
    | none => do
      let (term, t) ← leaf? t.dropBlanks
      match term, skip? "(" t with
      | .name function, some t =>
        let (arguments, t) ← terms? fuel ")" t
        return (.call function arguments, t)
      | _, _ => return (term, t)

/-- Terms with commas between them, up to a closing mark. -/
def terms? : (fuel : Nat) → (closing : Text) → Reader (List Term)
  | 0, _, _ => none
  | fuel + 1, closing, t =>
    match skip? closing t with
    | some t => some ([], t)
    | none => do
      let (first, t) ← term? fuel t
      match skip? "," t with
      | some t =>
        let (others, t) ← terms? fuel closing t
        return (first :: others, t)
      | none =>
        let t ← skip? closing t
        return ([first], t)

end

/-- The term that takes up a whole text. -/
def wholeTerm? (t : Text) : Option Term := do
  let (term, rest) ← term? (8 * t.length + 8) t
  if (Text.trim rest).isEmpty then some term else none

def keyword : Text := "return"

/-- Reads user code, unless it is not in the language. -/
def read? (code : Text) : Option Script :=
  let code := Text.trim code
  if code.isEmpty then some ⟨false, none⟩
  else if code = keyword then some ⟨true, none⟩
  else
    let behind := code.drop keyword.length
    if keyword.isPrefixOf code && !(behind.headD '_').continuesName then
      (wholeTerm? behind).map fun term => ⟨true, some term⟩
    else (wholeTerm? code).map fun term => ⟨false, some term⟩

/-! ## Evaluation -/

/-- The values of the labels. -/
abbrev Bindings := List (Text × Value)

def doubleOf : Number → Except Raise Double
  | .double x => .ok x
  | .integer n => match Double.ofInteger? n with
    | some x => .ok x
    | none => .error (.overflow "int too large to convert to float")

def integerOf : Number → Except Raise Int
  | .integer n => .ok n
  | .double .nan => .error (.invalidValue "cannot convert float NaN to integer")
  | .double x => match x.truncated? with
    | some n => .ok n
    | none => .error (.overflow "cannot convert float infinity to integer")

def add (a b : Value) : Except Raise Value :=
  match a, b with
  | .text a, .text b => .ok (.text (a ++ b))
  | .list a, .list b => .ok (.list (a ++ b))
  | a, b =>
    match a.number?, b.number? with
    | some (.integer a), some (.integer b) => .ok (.integer (a + b))
    | some a, some b => return .float ((← doubleOf a).add (← doubleOf b))
    | _, _ => .error .wrongType

def lengthOf : Value → Except Raise Value
  | .text t => .ok (.integer t.length)
  | .list items => .ok (.integer items.length)
  | .record fields => .ok (.integer fields.length)
  | _ => .error .wrongType

/-- Why a text gives no number; of a long text the beginning is shown. -/
def numeralMessage (t : Text) : Numeral.Fault → Text
  | .malformed => "invalid literal for int() with base 10: " ++ t.quoted.take 200
  | .tooLong digits => Numeral.tooLongMessage digits

def toInteger : Value → Except Raise Value
  | .text t =>
    match Numeral.integer t with
    | .ok n => .ok (.integer n)
    | .error fault => .error (.invalidValue (numeralMessage t fault))
  | v => match v.number? with
    | some number => return .integer (← integerOf number)
    | none => .error .wrongType

def toDouble : Value → Except Raise Value
  | .text t =>
    match Double.ofText? t with
    | some x => .ok (.float x)
    | none => .error (.invalidValue ("could not convert string to float: " ++ t.quoted))
  | v => match v.number? with
    | some number => return .float (← doubleOf number)
    | none => .error .wrongType

/-- The functions that user code can call. -/
def functions : List Text := List.map Text.ofString
  ["text", "offset", "location", "len", "int", "float", "error", "expected"]

def apply (state : ParserState) (function : Text) (arguments : List Value) : Except Raise Value :=
  match function.toString?, arguments with
  | some "text", [] => .ok (.text state.text)
  | some "offset", [] => .ok (.integer state.mark)
  | some "location", [] => .ok state.span.value
  | some "len", [v] => lengthOf v
  | some "int", [v] => toInteger v
  | some "float", [v] => toDouble v
  | some "error", [message] => .error (state.error message .null)
  | some "error", [message, place] => .error (state.error message place)
  | some "expected", [description] => .error (state.expected description .null)
  | some "expected", [description, place] => .error (state.expected description place)
  | _, _ => .error .wrongType

mutual

def eval (state : ParserState) (labels : Bindings) : Term → Except Raise Value
  | .constant value => .ok value
  | .name name =>
    match (labels ++ constants).lookup name with
    | some value => .ok value
    | none => .error (if functions.contains name then .wrongType else .unknownName name)
  | .list items => return .list (← evalAll state labels items)
  | .call function arguments =>
    if (labels.lookup function).isNone && !functions.contains function then
      .error (.unknownName function)
    else do
      let values ← evalAll state labels arguments
      if (labels.lookup function).isSome then .error .wrongType
      else apply state function values
  | .add left right => do
    let a ← eval state labels left
    add a (← eval state labels right)
  | .compare first others => do
    return .bool (← evalChain state labels (← eval state labels first) others)

def evalAll (state : ParserState) (labels : Bindings) : List Term → Except Raise (List Value)
  | [] => .ok []
  | term :: rest => return (← eval state labels term) :: (← evalAll state labels rest)

/-- A chain holds if all its comparisons do; those behind one that does not are not looked at. -/
def evalChain (state : ParserState) (labels : Bindings) (left : Value) :
    List (Bool × Term) → Except Raise Bool
  | [] => .ok true
  | (negated, term) :: rest => do
    let right ← eval state labels term
    if left.same right != negated then evalChain state labels right rest else return false

end

/-- The value that a script gives. -/
def run (script : Script) (state : ParserState) (labels : Bindings) : Except Raise Value :=
  match script.term with
  | none => .ok .null
  | some term => do
    let value ← eval state labels term
    return if script.returns then value else .null

end Script

end PegCompiler
