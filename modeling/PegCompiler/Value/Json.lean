import PegCompiler.Value.Basic

/-!
Reading a value from its JSON text. A record keeps its fields in the order written; a field written
twice keeps its first place and its last value. A number without fraction and exponent is an integer,
any other one a double. A failure names its cause and the rest of the text where it was noticed, from
which its offset, line and column follow.
-/

namespace PegCompiler

inductive JsonFault
  | value
  | propertyName
  | colon
  | comma
  | unterminated
  | controlCharacter
  | escape
  | unicodeEscape
  | extraData
  | byteOrderMark
  /-- An integer with more digits than can be read. -/
  | tooLong (digits : Nat)
  deriving DecidableEq, Repr

structure JsonError where
  fault : JsonFault
  rest : Text

namespace Json

abbrev Reading (α : Type) := Text → Except JsonError (α × Text)

def skipBlanks : Text → Text :=
  List.dropWhile fun c => c == ' ' || c == '\t' || c == '\n' || c == '\r'

/-- `literal` at the beginning of `t` is taken off. -/
def after? (literal t : Text) : Option Text :=
  if literal.isPrefixOf t then some (t.drop literal.length) else none

def hexDigit? (c : CodePoint) : Option Nat :=
  let n := c.toNat
  if 0x30 ≤ n ∧ n ≤ 0x39 then some (n - 0x30)
  else if 0x41 ≤ n ∧ n ≤ 0x46 then some (n - 0x37)
  else if 0x61 ≤ n ∧ n ≤ 0x66 then some (n - 0x57)
  else none

def hex4? : Text → Option (Nat × Text)
  | a :: b :: c :: d :: rest => do
    let a ← hexDigit? a
    let b ← hexDigit? b
    let c ← hexDigit? c
    let d ← hexDigit? d
    return (((a * 16 + b) * 16 + c) * 16 + d, rest)
  | _ => none

/-- A `\u` escape after its letter; a high and a low surrogate in a row make one code point. -/
def unicodeEscape : Reading CodePoint := fun t =>
  match hex4? t with
  | none => .error ⟨.unicodeEscape, t⟩
  | some (high, rest) =>
    match rest with
    | .scalar '\\' :: .scalar 'u' :: more =>
      match hex4? more with
      | some (low, after) =>
        if 0xD800 ≤ high ∧ high < 0xDC00 ∧ 0xDC00 ≤ low ∧ low < 0xE000 then
          .ok (CodePoint.ofNat (0x10000 + (high - 0xD800) * 0x400 + (low - 0xDC00)), after)
        else .ok (CodePoint.ofNat high, rest)
      | none => .ok (CodePoint.ofNat high, rest)
    | _ => .ok (CodePoint.ofNat high, rest)

def shortEscape? : CodePoint → Option CodePoint
  | .scalar '\x22' => some '\x22'
  | .scalar '\\' => some '\\'
  | .scalar '/' => some '/'
  | .scalar 'b' => some '\x08'
  | .scalar 'f' => some '\x0c'
  | .scalar 'n' => some '\n'
  | .scalar 'r' => some '\r'
  | .scalar 't' => some '\t'
  | _ => none

/-- A string after its opening quote; `opening` is the text from that quote on. -/
def stringBody (opening : Text) : Nat → Reading Text
  | 0, _ => .error ⟨.unterminated, opening⟩
  | fuel + 1, t =>
    match t with
    | [] => .error ⟨.unterminated, opening⟩
    | .scalar '\x22' :: rest => .ok ([], rest)
    | .scalar '\\' :: rest =>
      match rest with
      | [] => .error ⟨.unterminated, opening⟩
      | .scalar 'u' :: more => do
        let (c, after) ← unicodeEscape more
        let (tail, after) ← stringBody opening fuel after
        return (c :: tail, after)
      | letter :: more =>
        match shortEscape? letter with
        | none => .error ⟨.escape, t⟩
        | some c => do
          let (tail, after) ← stringBody opening fuel more
          return (c :: tail, after)
    | c :: rest =>
      if c.toNat < 0x20 then .error ⟨.controlCharacter, t⟩
      else do
        let (tail, after) ← stringBody opening fuel rest
        return (c :: tail, after)

def isDigit (c : CodePoint) : Bool := 0x30 ≤ c.toNat && c.toNat ≤ 0x39

def naturalOf (digits : Text) : Nat := digits.foldl (fun n d => n * 10 + (d.toNat - 0x30)) 0

/-- Digits and what follows; there is at least one. -/
def digits? (t : Text) : Option (Text × Text) :=
  let digits := t.takeWhile isDigit
  if digits.isEmpty then none else some (digits, t.dropWhile isDigit)

/-- The digits of an unsigned integer: a zero stands alone. -/
def natural? : Text → Option (Text × Text)
  | .scalar '0' :: rest => some (['0'], rest)
  | t => digits? t

/-- The digits of a fraction, if one goes on after an integer. -/
def fraction : Text → Text × Text
  | .scalar '.' :: rest => (digits? rest).getD ([], .scalar '.' :: rest)
  | t => ([], t)

/-- An exponent of ten, if one goes on here. -/
def exponent? : Text → Option (Int × Text)
  | .scalar 'e' :: rest | .scalar 'E' :: rest =>
    match rest with
    | .scalar '-' :: rest => (digits? rest).map fun (ds, rest) => (-(naturalOf ds : Int), rest)
    | .scalar '+' :: rest | rest => (digits? rest).map fun (ds, rest) => (naturalOf ds, rest)
  | _ => none

def number : Reading Value := fun t =>
  let (negative, unsigned) := match t with
    | .scalar '-' :: rest => (true, rest)
    | _ => (false, t)
  match natural? unsigned with
  | none => .error ⟨.value, t⟩
  | some (whole, rest) =>
    let (part, rest) := fraction rest
    match part, exponent? rest with
    | [], none =>
      if Numeral.limit < whole.length then .error ⟨.tooLong whole.length, t⟩
      else
        let n : Int := naturalOf whole
        .ok (.integer (if negative then -n else n), rest)
    | part, exponent =>
      let (order, rest) := exponent.getD (0, rest)
      .ok (.float (.ofDecimal negative (naturalOf (whole ++ part)) (order - part.length)), rest)

/-- The values that have names. -/
def literals : List (Text × Value) := [
  ("null", .null), ("true", .bool true), ("false", .bool false), ("NaN", .float .nan),
  ("Infinity", .float (.infinite false)), ("-Infinity", .float (.infinite true))]

def literal? (t : Text) : Option (Value × Text) :=
  literals.findSome? fun (name, value) => (after? name t).map (value, ·)

/-- The items of a list after its bracket or a comma, with a closing bracket at the end. -/
def items (value : Reading Value) : Nat → Reading (List Value)
  | 0, t => .error ⟨.value, t⟩
  | fuel + 1, t => do
    let (first, rest) ← value (skipBlanks t)
    match skipBlanks rest with
    | .scalar ']' :: after => return ([first], after)
    | .scalar ',' :: after =>
      let (others, after) ← items value fuel after
      return (first :: others, after)
    | other => .error ⟨.comma, other⟩

/-- The fields of a record after its brace or a comma, added to `fields`. -/
def fields (value : Reading Value) (sofar : List (Text × Value)) :
    Nat → Reading (List (Text × Value))
  | 0, t => .error ⟨.propertyName, t⟩
  | fuel + 1, t =>
    match skipBlanks t with
    | .scalar '\x22' :: rest => do
      let (name, rest) ← stringBody (skipBlanks t) rest.length.succ rest
      match skipBlanks rest with
      | .scalar ':' :: rest =>
        let (first, rest) ← value (skipBlanks rest)
        let sofar := Value.setField name first sofar
        match skipBlanks rest with
        | .scalar '\x7d' :: after => return (sofar, after)
        | .scalar ',' :: after => fields value sofar fuel after
        | other => .error ⟨.comma, other⟩
      | other => .error ⟨.colon, other⟩
    | other => .error ⟨.propertyName, other⟩

/-- A value at the very beginning of the text; `fuel` bounds how deep values nest. -/
def value : Nat → Reading Value
  | 0, t => .error ⟨.value, t⟩
  | fuel + 1, t =>
    match t with
    | .scalar '\x22' :: rest => do
      let (body, after) ← stringBody t rest.length.succ rest
      return (.text body, after)
    | .scalar '[' :: rest =>
      match skipBlanks rest with
      | .scalar ']' :: after => .ok (.list [], after)
      | _ => do
        let (found, after) ← items (value fuel) rest.length.succ rest
        return (.list found, after)
    | .scalar '\x7b' :: rest =>
      match skipBlanks rest with
      | .scalar '\x7d' :: after => .ok (.record [], after)
      | _ => do
        let (found, after) ← fields (value fuel) [] rest.length.succ rest
        return (.record found, after)
    | _ =>
      match literal? t with
      | some (found, rest) => .ok (found, rest)
      | none => number t

/-- The value of a whole JSON text. -/
def read (t : Text) : Except JsonError Value :=
  match t with
  | .scalar '\uFEFF' :: _ => .error ⟨.byteOrderMark, t⟩
  | _ => do
    let (found, rest) ← value t.length.succ (skipBlanks t)
    match skipBlanks rest with
    | [] => return found
    | other => .error ⟨.extraData, other⟩

end Json

namespace JsonFault

def message : JsonFault → Text
  | value => "Expecting value"
  | propertyName => "Expecting property name enclosed in double quotes"
  | colon => "Expecting ':' delimiter"
  | comma => "Expecting ',' delimiter"
  | unterminated => "Unterminated string starting at"
  | controlCharacter => "Invalid control character at"
  | escape => "Invalid \\escape"
  | unicodeEscape => "Invalid \\uXXXX escape"
  | extraData => "Extra data"
  | byteOrderMark => "Unexpected UTF-8 BOM (decode using utf-8-sig)"
  | tooLong digits => Numeral.tooLongMessage digits

/-- Whether the text is no JSON. A number that is too long is JSON all the same. -/
def isMalformed : JsonFault → Bool
  | tooLong _ => false
  | _ => true

end JsonFault

namespace JsonError

/-- The place of a failure in the text `whole`, as a message ends with it. -/
def place (error : JsonError) (whole : Text) : Text :=
  let before := (whole.take (whole.length - error.rest.length)).reverse
  let line := before.count (CodePoint.scalar '\n') + 1
  let column := (before.takeWhile (· ≠ CodePoint.scalar '\n')).length + 1
  ": line " ++ Text.ofNat line ++ " column " ++ Text.ofNat column
    ++ " (char " ++ Text.ofNat before.length ++ ")"

/-- The wording of a failure in the text `whole`. -/
def message (error : JsonError) (whole : Text) : Text :=
  error.fault.message ++ if error.fault.isMalformed then error.place whole else []

end JsonError

end PegCompiler
