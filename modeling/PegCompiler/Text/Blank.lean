import PegCompiler.Text.Ranges

/-!
White space: the Unicode property of that name, with the four information separators 1C..1F, which
count as blank too.
-/

namespace PegCompiler

def blankRanges : Ranges := [
  (9, 13), (28, 32), (133, 133), (160, 160), (5760, 5760), (8192, 8202), (8232, 8233),
  (8239, 8239), (8287, 8287), (12288, 12288)]

def CodePoint.isBlank (c : CodePoint) : Bool := blankRanges.contains c.toNat

namespace Text

def dropBlanks (t : Text) : Text := t.dropWhile CodePoint.isBlank

/-- `t` without the white space at its end. -/
def trimRight (t : Text) : Text := (dropBlanks t.reverse).reverse

/-- `t` without the white space at both ends. -/
def trim (t : Text) : Text := trimRight (dropBlanks t)

end Text

end PegCompiler
