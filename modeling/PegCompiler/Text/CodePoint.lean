/-!
Text as a sequence of code points. Every code point up to 10FFFF may occur, the surrogates
D800..DFFF included, because an escape in a grammar can name a surrogate on its own. Lengths,
offsets and the order of texts count code points.
-/

namespace PegCompiler

/-- A Unicode code point: a scalar value or a surrogate, given by its distance from D800. -/
inductive CodePoint
  | scalar (char : Char)
  | surrogate (index : Fin 2048)
  deriving DecidableEq, Repr, Inhabited

namespace CodePoint

instance : Coe Char CodePoint := ⟨scalar⟩

def toNat : CodePoint → Nat
  | scalar char => char.toNat
  | surrogate index => 0xD800 + index.val

def toChar? : CodePoint → Option Char
  | scalar char => some char
  | surrogate _ => none

/-- The code point of a number; a number above 10FFFF gives the null character. -/
def ofNat (n : Nat) : CodePoint :=
  if h : 0xD800 ≤ n ∧ n < 0xE000 then surrogate ⟨n - 0xD800, by omega⟩ else scalar (Char.ofNat n)

/-- `c` lies between `lo` and `hi`, both included. -/
def between (lo hi c : CodePoint) : Bool := lo.toNat ≤ c.toNat && c.toNat ≤ hi.toNat

end CodePoint

abbrev Text := List CodePoint

namespace Text

def ofChars (chars : List Char) : Text := chars.map CodePoint.scalar

def ofString (s : String) : Text := ofChars s.toList

instance : Coe String Text := ⟨ofString⟩

/-- The text as a string, if no surrogate occurs in it. -/
def toString? (t : Text) : Option String :=
  (List.mapM CodePoint.toChar? t).map String.ofList

def ofNat (n : Nat) : Text := ofChars (Nat.toDigits 10 n)

def ofInt : Int → Text
  | .ofNat n => ofNat n
  | .negSucc n => CodePoint.scalar '-' :: ofNat (n + 1)

/-- The order of texts by their code points; a proper beginning comes first. -/
def le : Text → Text → Bool
  | [], _ => true
  | _ :: _, [] => false
  | a :: as, b :: bs => a.toNat < b.toNat || (a == b && le as bs)

/-- `t` occurs somewhere in `whole`. -/
def occursIn (t : Text) : (whole : Text) → Bool
  | [] => t.isEmpty
  | c :: rest => t.isPrefixOf (c :: rest) || occursIn t rest

/-- `n` blanks. -/
def blanks (n : Nat) : Text := List.replicate n (CodePoint.scalar ' ')

/-- The texts one after the other with `separator` between neighbours. -/
def join (separator : Text) (texts : List Text) : Text := separator.intercalate texts

/-- `t` without the part up to its last `mark`, and that part; nothing if `mark` is absent. -/
def splitLast? (mark : CodePoint) (t : Text) : Option (Text × Text) :=
  match t.reverse.span (· ≠ mark) with
  | (_, []) => none
  | (after, _ :: before) => some (before.reverse, after.reverse)

/-- The parts of `t` before and after its first `mark`. -/
def splitFirst? (mark : CodePoint) (t : Text) : Option (Text × Text) :=
  match t.span (· ≠ mark) with
  | (_, []) => none
  | (before, _ :: after) => some (before, after)

end Text

end PegCompiler
