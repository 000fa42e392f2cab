import PegCompiler.Text.CodePoint

/-!
Texts as lines. `splitAt` cuts at every occurrence of one code point; `lines` ends a line at each
of the line boundaries of Unicode, carriage return and line feed together counting as one.
`normalizeNewlines` makes every line end a line feed, and `dedent` takes away the indentation that
all lines share.
-/

namespace PegCompiler.Text

/-- The pieces between the occurrences of `mark`; there is always one more piece than marks. -/
def splitAt (mark : CodePoint) : Text → List Text
  | [] => [[]]
  | c :: rest =>
    match splitAt mark rest with
    | piece :: pieces => if c = mark then [] :: piece :: pieces else (c :: piece) :: pieces
    | [] => [[c]]

def newline : CodePoint := '\n'

/-- Carriage return, with or without a line feed after it, becomes a line feed. -/
def normalizeNewlines : Text → Text
  | [] => []
  | .scalar '\r' :: .scalar '\n' :: rest => CodePoint.scalar '\n' :: normalizeNewlines rest
  | c :: rest => (if c = '\r' then CodePoint.scalar '\n' else c) :: normalizeNewlines rest

/-- The text of `lines` with a line feed between neighbours. -/
def unlines (lines : List Text) : Text := join [newline] lines

/-- Line feed, vertical tab, form feed, carriage return, the separators 1C..1E, next line, and the
line and paragraph separators. -/
def endsLine (c : CodePoint) : Bool :=
  [0x0A, 0x0B, 0x0C, 0x0D, 0x1C, 0x1D, 0x1E, 0x85, 0x2028, 0x2029].contains c.toNat

/-- `current` is the line read so far, its last code point first. -/
def linesFrom (current : Text) : Text → List Text
  | [] => if current.isEmpty then [] else [current.reverse]
  | .scalar '\r' :: .scalar '\n' :: rest => current.reverse :: linesFrom [] rest
  | c :: rest => if endsLine c then current.reverse :: linesFrom [] rest
    else linesFrom (c :: current) rest

/-- The lines of `t` without their ends; a boundary at the end of `t` begins no further line. -/
def lines (t : Text) : List Text := linesFrom [] t

def isIndent (c : CodePoint) : Bool := c == ' ' || c == '\t'

def commonPrefix : Text → Text → Text
  | a :: as, b :: bs => if a = b then a :: commonPrefix as bs else []
  | _, _ => []

/-- The longest run of blanks and tabs that begins every one of `lines`. -/
def margin : List Text → Text
  | [] => []
  | line :: rest => rest.foldl (fun common line => commonPrefix common (line.takeWhile isIndent))
      (line.takeWhile isIndent)

/-- Lines of blanks and tabs only become empty; the others lose the margin they share. -/
def dedent (t : Text) : Text :=
  let emptied := (splitAt newline t).map fun line => if line.all isIndent then [] else line
  let common := margin (emptied.filter (!·.isEmpty))
  unlines (emptied.map fun line => if line.isEmpty then line else line.drop common.length)

end PegCompiler.Text
