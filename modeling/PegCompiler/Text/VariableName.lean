import PegCompiler.Text.Identifier

/-!
Names of variables in emitted code. They follow the properties XID_Start and XID_Continue of
Unicode 14, which are narrower than those of names in a grammar in two ways: some code points are
left out because they change into something else when texts are normalised, and others because they
came later.
-/

namespace PegCompiler

/-- The code points that are in ID_Continue of Unicode 16 but not yet in that of Unicode 14. -/
def newerNameRanges : Ranges := [
  (2199, 2199), (3315, 3315), (3790, 3790), (7305, 7306), (8204, 8205), (12539, 12539),
  (42955, 42957), (42970, 42972), (65381, 65381), (67008, 67059), (68928, 68965), (68969, 68973),
  (68975, 68997), (69314, 69316), (69372, 69375), (70207, 70209), (70528, 70537), (70539, 70539),
  (70542, 70542), (70544, 70581), (70583, 70592), (70594, 70594), (70597, 70597), (70599, 70602),
  (70604, 70611), (70625, 70626), (71376, 71395), (72640, 72672), (72688, 72697), (73472, 73488),
  (73490, 73530), (73534, 73538), (73552, 73562), (78895, 78895), (78912, 78933), (78944, 82938),
  (90368, 90425), (93504, 93548), (93552, 93561), (101631, 101631), (110898, 110898),
  (110933, 110933), (118000, 118009), (122661, 122666), (122928, 122989), (123023, 123023),
  (124112, 124153), (124368, 124410), (177977, 177977), (191472, 192093), (201552, 205743)]

/-- The code points of ID_Start that are not in XID_Start. -/
def notXidStartRanges : Ranges := [
  (890, 890), (3635, 3635), (3763, 3763), (12443, 12444), (64606, 64611), (65018, 65019),
  (65136, 65136), (65138, 65138), (65140, 65140), (65142, 65142), (65144, 65144), (65146, 65146),
  (65148, 65148), (65150, 65150), (65438, 65439)]

/-- The code points of ID_Continue that are not in XID_Continue. -/
def notXidContinueRanges : Ranges := [
  (890, 890), (12443, 12444), (64606, 64611), (65018, 65019), (65136, 65136), (65138, 65138),
  (65140, 65140), (65142, 65142), (65144, 65144), (65146, 65146), (65148, 65148), (65150, 65150)]

namespace CodePoint

def startsVariable (c : CodePoint) : Bool :=
  c.startsName && !newerNameRanges.contains c.toNat && !notXidStartRanges.contains c.toNat

def continuesVariable (c : CodePoint) : Bool :=
  c.continuesName && !newerNameRanges.contains c.toNat && !notXidContinueRanges.contains c.toNat

end CodePoint

namespace Text

/-- Words of the emitted language that cannot name a variable there. -/
def reservedWords : List Text := List.map Text.ofString [
  "False", "None", "True", "and", "as", "assert", "async", "await", "break", "class", "continue",
  "def", "del", "elif", "else", "except", "finally", "for", "from", "global", "if", "import", "in",
  "is", "lambda", "nonlocal", "not", "or", "pass", "raise", "return", "try", "while", "with",
  "yield"]

/-- `t` is written like a variable of the emitted code; the reserved words are, too. -/
def isVariableName : Text → Bool
  | [] => false
  | c :: rest => c.startsVariable && rest.all CodePoint.continuesVariable

end Text

end PegCompiler
