import PegCompiler.Text.Lines
import PegCompiler.Text.Quoted

/-!
Text as bytes in UTF-8. Reading is strict: no overlong forms, no surrogates, nothing above 10FFFF. A
failure says where it is, how many bytes it concerns and why. Writing fails at a surrogate, which
has no bytes. `readGrammar` drops one leading byte-order mark and makes every line end a line feed.
-/

namespace PegCompiler

inductive Utf8Fault
  | startByte
  | continuationByte
  | endOfData
  deriving DecidableEq, Repr

structure Utf8Error where
  fault : Utf8Fault
  offset : Nat
  bytes : List Nat
  deriving Repr

namespace Utf8Error

def reason (error : Utf8Error) : Text :=
  match error.fault with
  | .startByte => "invalid start byte"
  | .continuationByte => "invalid continuation byte"
  | .endOfData => "unexpected end of data"

def message (error : Utf8Error) : Text :=
  let place : Text := match error.bytes with
    | [byte] => "byte 0x" ++ Text.hexadecimal 2 byte ++ " in position " ++ Text.ofNat error.offset
    | bytes => "bytes in position " ++ Text.ofNat error.offset ++ "-"
        ++ Text.ofNat (error.offset + bytes.length - 1)
  "'utf-8' codec can't decode " ++ place ++ ": " ++ error.reason

end Utf8Error

/-- Surrogates in a text that is to be written, and the offset of the first one. -/
structure Unencodable where
  offset : Nat
  surrogates : Text
  deriving Repr

def Unencodable.message (error : Unencodable) : Text :=
  let place : Text := match error.surrogates with
    | [c] => "character '\\u" ++ Text.hexadecimal 4 c.toNat ++ "' in position "
        ++ Text.ofNat error.offset
    | run => "characters in position " ++ Text.ofNat error.offset ++ "-"
        ++ Text.ofNat (error.offset + run.length - 1)
  "'utf-8' codec can't encode " ++ place ++ ": surrogates not allowed"

namespace Utf8

/-- What a first byte asks for: the payload it carries, the least and the greatest second byte,
and the number of bytes after the second. -/
structure Lead where
  payload : Nat
  least : Nat
  greatest : Nat
  more : Nat

def lead? (b : Nat) : Option Lead :=
  if 0xC2 ≤ b ∧ b ≤ 0xDF then some ⟨b - 0xC0, 0x80, 0xBF, 0⟩
  else if b = 0xE0 then some ⟨0, 0xA0, 0xBF, 1⟩
  else if b = 0xED then some ⟨0xD, 0x80, 0x9F, 1⟩
  else if 0xE1 ≤ b ∧ b ≤ 0xEF then some ⟨b - 0xE0, 0x80, 0xBF, 1⟩
  else if b = 0xF0 then some ⟨0, 0x90, 0xBF, 2⟩
  else if 0xF1 ≤ b ∧ b ≤ 0xF3 then some ⟨b - 0xF0, 0x80, 0xBF, 2⟩
  else if b = 0xF4 then some ⟨4, 0x80, 0x8F, 2⟩
  else none

/-- Reads the bytes after the first one; `taken` are the bytes read so far, in order. -/
def tail (payload least greatest more : Nat) (taken : List Nat) :
    List Nat → Except (Utf8Fault × List Nat) (Nat × List Nat)
  | [] => .error (.endOfData, taken)
  | b :: rest =>
    if b < least ∨ greatest < b then .error (.continuationByte, taken)
    else
      let payload := payload * 64 + (b - 0x80)
      match more with
      | 0 => .ok (payload, rest)
      | more + 1 => tail payload 0x80 0xBF more (taken ++ [b]) rest

def decodeFrom : Nat → Nat → List Nat → Except Utf8Error Text
  | _, _, [] => .ok []
  | 0, _, _ => .ok []
  | fuel + 1, offset, b :: rest =>
    if b < 0x80 then return CodePoint.ofNat b :: (← decodeFrom fuel (offset + 1) rest)
    else match lead? b with
      | none => .error ⟨.startByte, offset, [b]⟩
      | some lead =>
        match tail lead.payload lead.least lead.greatest lead.more [b] rest with
        | .error (fault, bytes) => .error ⟨fault, offset, bytes⟩
        | .ok (n, after) =>
          return CodePoint.ofNat n :: (← decodeFrom fuel (offset + lead.more + 2) after)

def decode (bytes : List Nat) : Except Utf8Error Text := decodeFrom bytes.length 0 bytes

/-- The bytes of the scalar value `n`. -/
def bytes (n : Nat) : List Nat :=
  if n < 0x80 then [n]
  else if n < 0x800 then [0xC0 + n / 64, 0x80 + n % 64]
  else if n < 0x10000 then [0xE0 + n / 4096, 0x80 + n / 64 % 64, 0x80 + n % 64]
  else [0xF0 + n / 262144, 0x80 + n / 4096 % 64, 0x80 + n / 64 % 64, 0x80 + n % 64]

def isScalar (c : CodePoint) : Bool := c.toChar?.isSome

def encode (t : Text) : Except Unencodable (List Nat) :=
  match t.span isScalar with
  | (_, []) => .ok (t.flatMap fun c => bytes c.toNat)
  | (before, rest) => .error ⟨before.length, rest.takeWhile (!isScalar ·)⟩

end Utf8

namespace Text

/-- The text of a file whose bytes are UTF-8. -/
def read (bytes : List Nat) : Except Utf8Error Text :=
  return normalizeNewlines (← Utf8.decode bytes)

/-- The text of a grammar file: one byte-order mark at its beginning does not belong to it. A file
that ends within such a mark is empty. -/
def readGrammar : List Nat → Except Utf8Error Text
  | [0xEF] | [0xEF, 0xBB] => .ok []
  | 0xEF :: 0xBB :: 0xBF :: rest => read rest
  | bytes => read bytes

end Text

end PegCompiler
