import PegCompiler.Grammar.Location

/-!
A place in a text that is being read: what lies before it, the nearest code point first, and what
lies after it. Offset, line and column follow from what lies before, so that they never have to be
kept in step. Only a line feed begins a new line.
-/

namespace PegCompiler

structure Cursor where
  source : Option Text
  before : Text
  after : Text
  deriving Repr

namespace Cursor

/-- The beginning of `text`. -/
def start (source : Option Text) (text : Text) : Cursor := ⟨source, [], text⟩

def peek? (cursor : Cursor) : Option CodePoint := cursor.after.head?

def atEnd (cursor : Cursor) : Bool := cursor.after.isEmpty

/-- One code point further; at the end of the text the cursor stays. -/
def next (cursor : Cursor) : Cursor :=
  match cursor.after with
  | [] => cursor
  | c :: rest => { cursor with before := c :: cursor.before, after := rest }

def advance : Nat → Cursor → Cursor
  | 0, cursor => cursor
  | n + 1, cursor => advance n cursor.next

def startsWith (literal : Text) (cursor : Cursor) : Bool := literal.isPrefixOf cursor.after

/-- The part of the current line before the cursor, the nearest code point first. -/
def lineBefore (cursor : Cursor) : Text := cursor.before.takeWhile (· ≠ CodePoint.scalar '\n')

def position (cursor : Cursor) : Position where
  offset := cursor.before.length
  line := cursor.before.count (CodePoint.scalar '\n') + 1
  column := cursor.lineBefore.length + 1

/-- The line that the cursor is on, without its end. -/
def line (cursor : Cursor) : Text :=
  cursor.lineBefore.reverse ++ cursor.after.takeWhile (· ≠ CodePoint.scalar '\n')

/-- The text from `first` on up to `last`. -/
def textBetween (first last : Cursor) : Text :=
  (last.before.take (last.before.length - first.before.length)).reverse

def locationBetween (first last : Cursor) : Location :=
  ⟨first.source, first.position, last.position⟩

/-- The text that is being read. -/
def whole (cursor : Cursor) : Text := cursor.before.reverse ++ cursor.after

end Cursor

end PegCompiler
