import PegCompiler.Grammar.Scan
import PegCompiler.Text.Blank
import PegCompiler.Text.CaseVariant
import PegCompiler.Text.Quoted

/-!
Character classes as patterns of the emitted code, and what such a pattern matches. `pattern` writes
a class, `read?` reads a pattern the way the pattern engine does. The engine has no braces after
the escape of a code point number, so a class with a member that is not printable, or blank, has a
pattern that cannot be read; neither has an empty class, nor a range that runs backwards.
-/

namespace PegCompiler

namespace ClassPattern

/-- The members that have to be escaped, in the order of this list. -/
def special : Text := "\\]^-["

/-- A text of a class built by hand that has no pattern. -/
structure UnwritableText where
  text : Text
  deriving DecidableEq, Repr

/-- The escape of a code point by its number. -/
def numbered (c : CodePoint) : Text :=
  "\\x\x7b" ++ Text.upperHexadecimal 1 c.toNat ++ "\x7d"

def escaped (c : CodePoint) : Text :=
  if special.contains c then ['\\', c]
  else if !c.isPrintable || c.isBlank then numbered c
  else [c]

/-- A text of a class built by hand. It is escaped as a whole. -/
def escapedText (t : Text) : Except UnwritableText Text :=
  match t with
  | [c] => .ok (escaped c)
  | _ =>
    if t.occursIn special then .ok (CodePoint.scalar '\\' :: t)
    else if t.all CodePoint.isPrintable && !t.all CodePoint.isBlank then .ok t
    else .error ⟨t⟩

def part : ClassPart → Except UnwritableText Text
  | .char c => .ok (escaped c)
  | .range lo hi => .ok (escaped lo ++ "-" ++ escaped hi)
  | .loose texts => return Text.join "-" (← (texts.take 2).mapM escapedText)

def pattern (members : CharClass) : Except UnwritableText Text := do
  let parts ← members.parts.mapM part
  let mark : Text := if members.inverted then "^" else []
  return "[" ++ mark ++ parts.flatten ++ "]"

/-- A mark that stands for itself behind a backslash. -/
def isMark (c : CodePoint) : Bool :=
  [(33, 47), (58, 64), (91, 96), (123, 126)].any fun (lo, hi) => lo ≤ c.toNat && c.toNat ≤ hi

/-- The member at the beginning of what is left of a pattern. A number has exactly two digits. -/
def member? : Text → Option (CodePoint × Text)
  | .scalar '\\' :: .scalar 'x' :: rest =>
    (Scan.hexNumber? 2 rest).map fun n => (CodePoint.ofNat n, rest.drop 2)
  | .scalar '\\' :: c :: rest => if isMark c then some (c, rest) else none
  | c :: rest => if c = ']' || c = '\\' then none else some (c, rest)
  | [] => none

/-- The parts up to the closing bracket, behind which nothing may come. -/
def parts? : (fuel : Nat) → Text → Option (List ClassPart)
  | 0, _ => none
  | fuel + 1, t =>
    if t = [CodePoint.scalar ']'] then some []
    else match member? t with
      | none => none
      | some (lo, .scalar '-' :: rest) =>
        if rest = [CodePoint.scalar ']'] then some [.char lo, .char '-']
        else match member? rest with
          | some (hi, rest) =>
            if lo.toNat ≤ hi.toNat then (parts? fuel rest).map (.range lo hi :: ·) else none
          | none => none
      | some (c, rest) => (parts? fuel rest).map (.char c :: ·)

/-- Whether the pattern is inverted, and its parts, of which there is at least one. -/
def read? (pattern : Text) : Option (Bool × List ClassPart) :=
  let (inverted, rest) : Bool × Text := match pattern with
    | .scalar '[' :: .scalar '^' :: rest => (true, rest)
    | .scalar '[' :: rest => (false, rest)
    | _ => (false, [])
  match parts? rest.length rest with
  | some (part :: parts) => some (inverted, part :: parts)
  | _ => none

end ClassPattern

/-- `c` is a member of the part. -/
def ClassPart.has (c : CodePoint) : ClassPart → Bool
  | .char d => c == d
  | .range lo hi => CodePoint.between lo hi c
  | .loose _ => false

/-- A pattern that could be read. -/
structure ClassMatcher where
  inverted : Bool
  ignoreCase : Bool
  parts : List ClassPart
  deriving Repr

namespace ClassMatcher

/-- The matcher for the pattern of a class. -/
def ofPattern? (ignoreCase : Bool) (pattern : Text) : Option ClassMatcher :=
  (ClassPattern.read? pattern).map fun (inverted, parts) => ⟨inverted, ignoreCase, parts⟩

/-- Case is set aside before an inversion. -/
def accepts (matcher : ClassMatcher) (c : CodePoint) : Bool :=
  let candidates := if matcher.ignoreCase then c.variants else [c]
  let found := candidates.any fun d => matcher.parts.any (·.has d)
  found != matcher.inverted

end ClassMatcher

end PegCompiler
