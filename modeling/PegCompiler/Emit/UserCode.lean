import PegCompiler.Emit.Statement
import PegCompiler.Text.Blank

/-!
User code as lines of emitted code. A block of code may begin right behind its brace; the lines
after the first one keep their indentation relative to each other. Where the first line opens a
block, they are nested below it.
-/

namespace PegCompiler

namespace Text

/-- `t` without the line feeds at both ends. -/
def trimNewlines (t : Text) : Text :=
  let front := t.dropWhile (· == newline)
  (front.reverse.dropWhile (· == newline)).reverse

/-- The first line of `t`, and the text behind its line feed. -/
def splitFirstLine (t : Text) : Text × Text := (t.splitFirst? newline).getD (t, [])

end Text

namespace Emit

/-- The lines behind the first one: without their margin, without blank lines at both ends. -/
def laterLines (rest : Text) : List Text :=
  if (Text.trim rest).isEmpty then []
  else (Text.lines (Text.trimNewlines (Text.dedent rest))).map Text.trimRight

def userCode (code : Text) : List Text :=
  let (first, rest) := Text.splitFirstLine code
  let first := Text.trim first
  let later := laterLines rest
  if first.isEmpty then later
  else if first.getLast? = some (CodePoint.scalar ':') then first :: indented later
  else first :: later

end Emit

end PegCompiler
