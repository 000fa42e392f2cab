/-!
Indexes into lists and texts. A negative index counts from the end. As an end of a piece an index
may lie anywhere: it is moved into the list first.
-/

namespace PegCompiler

namespace Index

/-- The place of an index in a list of `length` elements, if there is one. -/
def place? (length : Nat) (index : Int) : Option Nat :=
  let place := if index < 0 then index + length else index
  if 0 ≤ place ∧ place < length then some place.toNat else none

/-- The element at an index. -/
def at? {α : Type} (items : List α) (index : Int) : Option α :=
  (place? items.length index).bind fun place => items[place]?

/-- An index as the end of a piece, moved into the list. -/
def bound (length : Nat) (index : Int) : Nat :=
  min (if index < 0 then index + length else index).toNat length

/-- The elements from an index on. -/
def behind {α : Type} (items : List α) (start : Int) : List α := items.drop (bound items.length start)

/-- The elements up to an index. -/
def upTo {α : Type} (items : List α) (stop : Int) : List α := items.take (bound items.length stop)

/-- The elements from one index up to another. -/
def slice {α : Type} (items : List α) (start stop : Int) : List α :=
  (upTo items stop).drop (bound items.length start)

theorem place?_natCast {length n : Nat} (h : n < length) : place? length n = some n := by
  have : ¬ (n : Int) < 0 := by omega
  simp [place?, this, h]

theorem bound_natCast (length n : Nat) : bound length n = min n length := by
  have : ¬ (n : Int) < 0 := by omega
  simp [bound, this]

end Index

end PegCompiler
