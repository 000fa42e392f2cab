import PegCompiler.Text.Numeral

/-!
Numbers of double precision. The finite ones are whole numbers of units, a unit being the smallest
number above zero; not every whole number of units is one. The magnitudes are numbered in their
order, so the next greater magnitude has the next number. A decimal stands for the double nearest to
it, and a double is written as the shortest decimal that stands for it.
-/

namespace PegCompiler

/-- So many magnitudes lie from a power of two up to the next one; they are equally far apart. -/
def Double.binade : Nat := Nat.pow 2 52

/-- So many magnitudes are finite. -/
def Double.magnitudes : Nat := 2047 * binade

inductive Double
  | finite (negative : Bool) (magnitude : Fin Double.magnitudes)
  | infinite (negative : Bool)
  /-- No number: neither less than any other, nor greater, nor equal to one. -/
  | nan
  deriving DecidableEq, Repr

namespace Double

/-- The units in one. -/
def one : Nat := Nat.pow 2 1074

/-- The units in the magnitude with a number. They are one apart at first, and twice as far in
every further binade. -/
def units (magnitude : Nat) : Nat :=
  if magnitude < binade then magnitude
  else (binade + magnitude % binade) * Nat.pow 2 (magnitude / binade - 1)

def signed (negative : Bool) (n : Nat) : Int := if negative then -n else n

/-- The units in a finite number, less than none for a negative one. -/
def units? : Double → Option Int
  | finite negative magnitude => some (signed negative (units magnitude))
  | _ => none

/-- Nothing but zero counts as false. -/
def isTrue : Double → Bool
  | finite _ magnitude => magnitude.val != 0
  | _ => true

/-! ## Order -/

def same : Double → Double → Bool
  | infinite a, infinite b => a == b
  | a, b => a.units?.isSome && a.units? == b.units?

def less : Double → Double → Bool
  | infinite a, infinite b => a && !b
  | infinite a, finite _ _ => a
  | finite _ _, infinite b => !b
  | a, b => a.units?.any fun m => b.units?.any fun n => m < n

def isInteger (x : Double) (n : Int) : Bool := x.units? == some (n * one)

def atMost : Double → Int → Bool
  | infinite negative, _ => negative
  | x, n => x.units?.any (· ≤ n * one)

def exceeds : Double → Int → Bool
  | infinite negative, _ => !negative
  | x, n => x.units?.any (n * one < ·)

/-- Greater than every integer, or no number at all. -/
def isEndless : Double → Bool
  | finite _ _ => false
  | infinite negative => !negative
  | nan => true

/-! ## Rounding -/

/-- A quotient as a whole number; the even one of two that are as near. -/
def rounded (n divisor : Nat) : Nat :=
  let quotient := n / divisor
  let twice := 2 * (n % divisor)
  if twice < divisor ∨ twice = divisor ∧ quotient % 2 = 0 then quotient else quotient + 1

/-- The number of the magnitude nearest to a quotient of units; there may be no such magnitude. -/
def nearest (n divisor : Nat) : Nat :=
  let doublings := (n / divisor).log2 - 52
  doublings * binade + rounded n (divisor * Nat.pow 2 doublings)

def ofMagnitude (negative : Bool) (magnitude : Nat) : Double :=
  if h : magnitude < magnitudes then finite negative ⟨magnitude, h⟩ else infinite negative

def ofUnits (n : Int) : Double := ofMagnitude (n < 0) (nearest n.natAbs 1)

/-- Digits with an exponent of ten. What is far too great or small is not computed. -/
def ofDecimal (negative : Bool) (digits : Nat) (exponent : Int) : Double :=
  let order := (Nat.toDigits 10 digits).length + exponent
  if digits = 0 ∨ order ≤ -324 then ofMagnitude negative 0
  else if 310 ≤ order then infinite negative
  else ofMagnitude negative (nearest (digits * Nat.pow 10 exponent.toNat * one) (Nat.pow 10 (-exponent).toNat))

/-- There is none for an integer that is too great. -/
def ofInteger? (n : Int) : Option Double :=
  match ofUnits (n * one) with
  | infinite _ => none
  | x => some x

def add : Double → Double → Double
  | nan, _ | _, nan => nan
  | infinite a, infinite b => if a = b then infinite a else nan
  | infinite a, _ | _, infinite a => infinite a
  | finite a m, finite b n =>
    match signed a (units m) + signed b (units n) with
    | 0 => ofMagnitude (a && b) 0
    | sum => ofUnits sum

/-- The integer next to a finite number on the side of zero. -/
def truncated? : Double → Option Int
  | finite negative magnitude => some (signed negative (units magnitude / one))
  | _ => none

/-! ## Reading -/

/-- Digits and an exponent, with a point somewhere in or around the digits. -/
def ofNumeral? (negative : Bool) (t : Text) : Option Double := do
  let (coefficient, order) := t.span fun c => c != CodePoint.scalar 'e' && c != CodePoint.scalar 'E'
  let exponent ← match order.drop 1 with
    | [] => if order.isEmpty then some 0 else none
    | .scalar '-' :: rest => (Numeral.digits? rest).map fun ds => -(Numeral.ofDigits ds : Int)
    | .scalar '+' :: rest | rest => (Numeral.digits? rest).map fun ds => (Numeral.ofDigits ds : Int)
  let (whole, fraction) := coefficient.span (· != CodePoint.scalar '.')
  let whole ← digits whole
  let fraction ← digits (fraction.drop 1)
  if (whole ++ fraction).isEmpty then none
  else some (ofDecimal negative (Numeral.ofDigits (whole ++ fraction)) (exponent - fraction.length))
where
  /-- There may be none on one side of the point. -/
  digits (t : Text) : Option (List Nat) := if t.isEmpty then some [] else Numeral.digits? t

/-- Whether a text is a name in small letters, itself in letters of any case. -/
def spells (name t : Text) : Bool :=
  t.map (fun c => if CodePoint.between 'A' 'Z' c then CodePoint.ofNat (c.toNat + 32) else c) == name

/-- The number that a text stands for, with a sign or none and with blanks around it. -/
def ofText? (t : Text) : Option Double :=
  let (negative, t) := match Numeral.withoutMargins t with
    | .scalar '-' :: rest => (true, rest)
    | .scalar '+' :: rest => (false, rest)
    | t => (false, t)
  if spells "inf" t || spells "infinity" t then some (infinite negative)
  else if spells "nan" t then some nan
  else ofNumeral? negative t

/-! ## Writing -/

/-- A decimal as digits and an exponent of ten. -/
structure Decimal where
  digits : Nat
  exponent : Int
  deriving Repr

namespace Decimal

/-- Without zeros at the end of the digits. -/
def trimmed (d : Decimal) : Decimal :=
  let zeros := ((Nat.toDigits 10 d.digits).reverse.takeWhile (· = '0')).length
  ⟨d.digits / Nat.pow 10 zeros, d.exponent + zeros⟩

/-- The decimal with a point if it is neither very great nor very small, and with one digit before
the point and an exponent else. -/
def written (d : Decimal) : Text :=
  let digits := Text.ofNat d.digits
  let point := digits.length + d.exponent
  if point ≤ -4 ∨ 16 < point then
    let fraction := if digits.length = 1 then [] else CodePoint.scalar '.' :: digits.drop 1
    let order := Text.ofNat (point - 1).natAbs
    digits.take 1 ++ fraction ++ (if point ≤ 0 then "e-" else "e+")
      ++ (if order.length = 1 then CodePoint.scalar '0' :: order else order)
  else if point ≤ 0 then
    "0." ++ List.replicate (-point).toNat (CodePoint.scalar '0') ++ digits
  else if d.exponent < 0 then digits.take point.toNat ++ "." ++ digits.drop point.toNat
  else digits ++ List.replicate d.exponent.toNat (CodePoint.scalar '0') ++ ".0"

end Decimal

/-- The power of ten above so many units: the least one that is greater. -/
def order (n : Nat) : Int :=
  if one ≤ n then (Nat.toDigits 10 (n / one)).length
  else 1 - (Nat.toDigits 10 ((one - 1) / n)).length

/-- The decimal of so many digits that is nearest to a magnitude among those that stand for it. -/
def decimal? (magnitude length : Nat) : Option Decimal :=
  let exponent := order (units magnitude) - length
  let n := units magnitude * Nat.pow 10 (-exponent).toNat
  let divisor := Nat.pow 10 exponent.toNat * one
  let below := n / divisor
  let standsFor (digits : Nat) : Bool :=
    ofDecimal false digits exponent == ofMagnitude false magnitude
  match standsFor below, standsFor (below + 1) with
  | true, true => some ⟨rounded n divisor, exponent⟩
  | true, false => some ⟨below, exponent⟩
  | false, true => some ⟨below + 1, exponent⟩
  | false, false => none

/-- The shortest decimal for a magnitude; seventeen digits are always enough. -/
def shortest (magnitude : Nat) : Decimal :=
  if magnitude = 0 then ⟨0, 0⟩
  else (((List.range 17).findSome? fun n => decimal? magnitude (n + 1)).getD ⟨0, 0⟩).trimmed

def written : Double → Text
  | finite negative magnitude =>
    (if negative then [CodePoint.scalar '-'] else []) ++ (shortest magnitude).written
  | infinite negative => if negative then "-inf" else "inf"
  | nan => "nan"

end Double

/-! ## Numbers -/

/-- A number is an integer of any size or a double. -/
inductive Number
  | integer (n : Int)
  | double (x : Double)
  deriving Repr

namespace Number

def same : Number → Number → Bool
  | integer a, integer b => a == b
  | integer n, double x | double x, integer n => x.isInteger n
  | double x, double y => x.same y

/-- So many are as many as the number says, or more. -/
def atMost (number : Number) (count : Nat) : Bool :=
  match number with
  | integer n => n ≤ count
  | double x => x.atMost count

/-- So many are fewer than the number says. -/
def exceeds (number : Number) (count : Nat) : Bool :=
  match number with
  | integer n => count < n
  | double x => x.exceeds count

def less : Number → Number → Bool
  | integer a, integer b => a < b
  | integer n, double x => x.exceeds n
  | double x, integer n => x.atMost n && !x.isInteger n
  | double x, double y => x.less y

def isInteger : Number → Bool
  | integer _ => true
  | double _ => false

/-- No count is as great. -/
def isEndless : Number → Bool
  | integer _ => false
  | double x => x.isEndless

end Number

end PegCompiler
