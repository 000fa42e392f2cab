import PegCompiler.Grammar.Basic
import PegCompiler.Text.Quoted
import PegCompiler.Value.Basic

/-!
What was expected at a place of the input, and the message that says so. A message lists every
description once, in the order of code points. User code can describe what it expects by any value.
-/

namespace PegCompiler

inductive Entry
  | literal (text : Text) (ignoreCase : Bool)
  | charClass (members : CharClass)
  | any
  | endOfInput
  | rule (description : Text)
  | user (description : Value)
  | not (expected : Entry)
  deriving Repr, Inhabited

namespace Entry

def same : Entry → Entry → Bool
  | literal a ic, literal b id => a == b && ic == id
  | charClass a, charClass b => a == b
  | any, any => true
  | endOfInput, endOfInput => true
  | rule a, rule b => a == b
  | user a, user b => a == b
  | not a, not b => same a b
  | _, _ => false

/-- The opposite of an entry. -/
def invert : Entry → Entry
  | not expected => expected
  | entry => not entry

end Entry

namespace Describe

def isControl (c : CodePoint) : Bool :=
  c.toNat < 0x20 || (0x7F ≤ c.toNat && c.toNat ≤ 0x9F)

def escapedChar (c : CodePoint) : Text :=
  if c = '\\' then "\\\\"
  else if c = Text.doubleQuote then "\\\""
  else if c.toNat = 0 then "\\0"
  else if c = '\t' then "\\t"
  else if c = '\n' then "\\n"
  else if c = '\r' then "\\r"
  else if isControl c then "\\x" ++ Text.upperHexadecimal 2 c.toNat
  else [c]

def escaped (t : Text) : Text := t.flatMap escapedChar

/-- A text inside the brackets of a class. -/
def escapedMember (t : Text) : Text :=
  (escaped t).flatMap fun c =>
    if (Text.ofString "]^-").contains c then ['\\', c] else [c]

def member : ClassPart → Text
  | .char c => escapedMember [c]
  | .range lo hi => escapedMember [lo] ++ "-" ++ escapedMember [hi]
  | .loose texts => Text.join "-" ((texts.take 2).map escapedMember)

def charClass (members : CharClass) : Text :=
  let mark : Text := if members.inverted then "^" else []
  "[" ++ mark ++ members.parts.flatMap member ++ "]"

def literal (t : Text) : Text := "\"" ++ escaped t ++ "\""

/-- What an entry is called. Only what has a text for its name can be called not to be there. -/
def entry : Entry → Option Value
  | .literal t _ => some (literal t)
  | .charClass members => some (charClass members)
  | .any => some (.text "any character")
  | .endOfInput => some (.text "end of input")
  | .rule description => some description
  | .user description => some description
  | .not expected =>
    match entry expected with
    | some (.text t) => some (.text ("not " ++ t))
    | _ => none

def found : Option Text → Text
  | none => "end of input"
  | some t => literal t

def textOf? : Value → Option Text
  | .text t => some t
  | _ => none

def numbered? (value : Value) : Option (Number × Value) := value.number?.map (·, value)

/-- Different names in order. Texts have an order and so have numbers, but not both together; a name
on its own needs none. -/
def ordered? (names : List Value) : Option (List Value) :=
  match names with
  | [] | [_] => some names
  | _ =>
    match names.mapM textOf?, names.mapM numbered? with
    | some texts, _ => some ((texts.mergeSort Text.le).map .text)
    | none, some numbered =>
      some ((numbered.mergeSort fun a b => !b.1.less a.1).map Prod.snd)
    | none, none => none

/-- The different names in order. Collections are no names. -/
def distinct? (names : List Value) : Option (List Value) :=
  if names.any Value.isCollection then none else ordered? names.eraseDups

/-- An enumeration with "or" before its last item; one of more than two items is of texts. -/
def enumeration? : List Value → Option Text
  | [] => some []
  | [a] => some a.shown
  | [a, b] => some (a.shown ++ " or " ++ b.shown)
  | items => do
    let texts ← items.mapM textOf?
    return Text.join ", " texts.dropLast ++ ", or " ++ texts.getLastD []

/-- The message about entries and what was found instead. There is none for names that cannot be
listed. -/
def message? (expected : List Entry) (what : Option Text) : Option Text :=
  if expected.isEmpty then some ("Unexpected " ++ found what ++ ".")
  else do
    let names ← distinct? (← expected.mapM entry)
    return "Expected " ++ (← enumeration? names) ++ " but " ++ found what ++ " found."

end Describe

end PegCompiler
