import PegCompiler.Text.Lines
import PegCompiler.Text.Numeral

/-!
The words of a command line, told apart. A word is a value, a flag, or the mark `--`, behind which
everything is a value. A flag is known by its spelling; a long one may be cut short as long as it
stays the only one that begins so. A long flag has its value attached behind an equals sign, a short
one behind such a sign or directly.
-/

namespace PegCompiler

inductive Flag
  | help
  | startRules
  | optionFile
  | debug
  | output
  | cache
  | trace
  | format
  | dependency
  | exportVar
  deriving DecidableEq, Repr

namespace Flag

def spellings : Flag → List Text
  | help => ["-h", "--help"]
  | startRules => ["--allowed-start-rules"]
  | optionFile => ["--extra-options-file"]
  | debug => ["-D", "--debug"]
  | output => ["-o", "--output"]
  | cache => ["--cache"]
  | trace => ["--trace"]
  | format => ["--format"]
  | dependency => ["--dependency"]
  | exportVar => ["--export-var"]

def takesValue : Flag → Bool
  | help | debug | cache | trace => false
  | _ => true

/-- The flag among `flags` that is spelled `t`. -/
def spelled? (flags : List Flag) (t : Text) : Option Flag := flags.find? (·.spellings.contains t)

/-- The spellings of `flags` that begin with `t`, each with its flag. -/
def abbreviated (flags : List Flag) (t : Text) : List (Flag × Text) :=
  flags.flatMap fun flag => (flag.spellings.filter fun s => t.isPrefixOf s).map (flag, ·)

end Flag

inductive UsageFault
  /-- Not a fault: help was asked for. -/
  | help
  | noCommand
  | unknownCommand (word : Text)
  | ambiguousFlag (word : Text)
  | valueMissing (flag : Flag)
  | valueUnexpected (flag : Flag) (value : Text)
  | unknownFormat (value : Text)
  | noFile
  | noOutput
  | leftOver (words : List Text)
  deriving Repr

/-- A word with a flag in it, and what is attached to the flag. -/
inductive FlagWord
  | long (flag : Flag) (attached : Option Text)
  /-- A flag of one letter, with all that stands behind the letter. -/
  | short (flag : Flag) (behind : Text)
  deriving Repr

inductive Token
  | value (t : Text)
  | flag (word : FlagWord)
  | unknownFlag (t : Text)
  | mark
  deriving Repr

namespace Token

def dash : CodePoint := '-'

def doubleDash : Text := [dash, dash]

def equalsSign : CodePoint := '='

/-- Decimal digits, which may have a point before the last of them. A line feed may follow. -/
def isNumber (t : Text) : Bool :=
  let t := if t.getLast? = some Text.newline then t.dropLast else t
  match Text.splitFirst? '.' t with
  | none => !t.isEmpty && t.all CodePoint.isDigit
  | some (whole, fraction) =>
    whole.all CodePoint.isDigit && !fraction.isEmpty && fraction.all CodePoint.isDigit

/-- A word that is no spelling of a flag, looked at as a long flag cut short, or as a short one
with its value directly behind it. -/
def inexact (flags : List Flag) (word : Text) : List FlagWord :=
  match word with
  | first :: second :: behind =>
    if second = dash then
      let (name, attached) := match Text.splitFirst? equalsSign word with
        | some (name, behind) => (name, some behind)
        | none => (word, none)
      (Flag.abbreviated flags name).map fun found => .long found.1 attached
    else
      match Flag.spelled? flags [first, second] with
      | some found => [.short found behind]
      | none => []
  | _ => []

/-- A word that spells a flag, or a flag with a value behind an equals sign. -/
def spelled? (flags : List Flag) (word : Text) : Option FlagWord :=
  let isLong := doubleDash.isPrefixOf word
  match Flag.spelled? flags word with
  | some found => some (if isLong then .long found none else .short found [])
  | none => do
    let (name, behind) ← Text.splitFirst? equalsSign word
    let found ← Flag.spelled? flags name
    return if isLong then .long found (some behind) else .short found (equalsSign :: behind)

/-- A word with a dash in front. A negative number and a word with a blank in it are values. -/
def ofDashed (flags : List Flag) (word : Text) : Except UsageFault Token :=
  match spelled? flags word, inexact flags word with
  | some found, _ | none, [found] => .ok (.flag found)
  | none, _ :: _ :: _ => .error (.ambiguousFlag word)
  | none, [] =>
    if isNumber (word.drop 1) || word.contains (CodePoint.scalar ' ') then .ok (.value word)
    else .ok (.unknownFlag word)

def ofWord (flags : List Flag) (word : Text) : Except UsageFault Token :=
  match word with
  | first :: _ :: _ => if first = dash then ofDashed flags word else .ok (.value word)
  | _ => .ok (.value word)

def ofWords (flags : List Flag) : List Text → Except UsageFault (List Token)
  | [] => .ok []
  | word :: rest => do
    if word = doubleDash then return .mark :: rest.map .value
    return (← ofWord flags word) :: (← ofWords flags rest)

end Token

end PegCompiler
