import PegCompiler.Text.Printable

/-!
Quoted texts, as string literals of the emitted code and in messages. Single quotes enclose the
text unless it holds a single quote and no double quote. Inside, a backslash and the enclosing
quote are escaped, line feed, carriage return and tab have their letters, and any other code point
that is not printable is written in hexadecimal with two, four or eight digits.
-/

namespace PegCompiler

/-- The digits of `n` in base sixteen, filled up with zeros to at least `width`. -/
def Text.hexadecimal (width n : Nat) : Text :=
  let digits := Nat.toDigits 16 n
  Text.ofChars (List.replicate (width - digits.length) '0' ++ digits)

/-- The same with capital letters. -/
def Text.upperHexadecimal (width n : Nat) : Text :=
  let digits := (Nat.toDigits 16 n).map Char.toUpper
  Text.ofChars (List.replicate (width - digits.length) '0' ++ digits)

namespace CodePoint

/-- `c` inside a literal enclosed by `quote`. -/
def quotedIn (quote c : CodePoint) : Text :=
  if c = '\\' then "\\\\"
  else if c = quote then ['\\', c]
  else if c = '\n' then "\\n"
  else if c = '\r' then "\\r"
  else if c = '\t' then "\\t"
  else if c.isPrintable then [c]
  else if c.toNat ≤ 0xFF then "\\x" ++ Text.hexadecimal 2 c.toNat
  else if c.toNat ≤ 0xFFFF then "\\u" ++ Text.hexadecimal 4 c.toNat
  else "\\U" ++ Text.hexadecimal 8 c.toNat

end CodePoint

namespace Text

def singleQuote : CodePoint := '\x27'

def doubleQuote : CodePoint := '\x22'

/-- The quote that encloses `t` in its quoted form. -/
def enclosing (t : Text) : CodePoint :=
  if t.contains singleQuote && !t.contains doubleQuote then doubleQuote else singleQuote

def quoted (t : Text) : Text :=
  let quote := enclosing t
  [quote] ++ t.flatMap (CodePoint.quotedIn quote) ++ [quote]

end Text

end PegCompiler
