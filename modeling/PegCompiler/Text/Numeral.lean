import PegCompiler.Text.Blank

/-!
Decimal digits, which many scripts have, and the numerals that are written with them: a sign or
none, then digits, of which two may have a low line between them. Blanks around a numeral do not
count. A numeral of very many digits is refused, since the time to read it grows faster than its
length.
-/

namespace PegCompiler

/-- The zeros of all scripts; the other nine digits of a script follow its zero. -/
def zeros : List Nat := [
  48, 1632, 1776, 1984, 2406, 2534, 2662, 2790, 2918, 3046, 3174, 3302, 3430, 3558, 3664, 3792,
  3872, 4160, 4240, 6112, 6160, 6470, 6608, 6784, 6800, 6992, 7088, 7232, 7248, 42528, 43216,
  43264, 43472, 43504, 43600, 44016, 65296, 66720, 68912, 69734, 69872, 69942, 70096, 70384,
  70736, 70864, 71248, 71360, 71472, 71904, 72016, 72784, 73040, 73120, 92768, 92864, 93008,
  120782, 120792, 120802, 120812, 120822, 123200, 123632, 125264, 130032]

namespace CodePoint

/-- The value of a decimal digit. -/
def digit? (c : CodePoint) : Option Nat :=
  (zeros.find? fun first => first ≤ c.toNat && c.toNat < first + 10).map (c.toNat - ·)

def isDigit (c : CodePoint) : Bool := c.digit?.isSome

end CodePoint

namespace Numeral

inductive Fault
  | malformed
  | tooLong (digits : Nat)
  deriving DecidableEq, Repr

/-- The greatest count of digits. -/
def limit : Nat := 4300

/-- Why a numeral of so many digits is refused. -/
def tooLongMessage (digits : Nat) : Text :=
  "Exceeds the limit (" ++ Text.ofNat limit
    ++ " digits) for integer string conversion: value has " ++ Text.ofNat digits
    ++ " digits; use sys.set_int_max_str_digits() to increase the limit"

/-- A blank that may stand around a numeral; the information separators may not. -/
def isMargin (c : CodePoint) : Bool := c.isBlank && !(28 ≤ c.toNat && c.toNat ≤ 31)

def withoutMargins (t : Text) : Text :=
  ((t.dropWhile isMargin).reverse.dropWhile isMargin).reverse

/-- The values of the digits, of which there is at least one. -/
def digits? : Text → Option (List Nat)
  | [] => none
  | [c] => c.digit?.map ([·])
  | c :: .scalar '_' :: rest => do return (← c.digit?) :: (← digits? rest)
  | c :: rest => do return (← c.digit?) :: (← digits? rest)

def ofDigits (digits : List Nat) : Nat := digits.foldl (fun n digit => 10 * n + digit) 0

def natural (t : Text) : Except Fault Nat :=
  match digits? t with
  | none => .error .malformed
  | some digits =>
    if limit < digits.length then .error (.tooLong digits.length) else .ok (ofDigits digits)

/-- The number that a text is a numeral of. -/
def integer (t : Text) : Except Fault Int :=
  match withoutMargins t with
  | .scalar '-' :: rest => (natural rest).map fun n => -(n : Int)
  | .scalar '+' :: rest => (natural rest).map Int.ofNat
  | t => (natural t).map Int.ofNat

end Numeral

end PegCompiler
