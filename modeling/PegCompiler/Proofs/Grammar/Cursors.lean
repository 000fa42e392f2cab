import PegCompiler.Grammar.Cursor

/-!
What lies between two places in a text. `Cursor.Reads` says that one cursor stands behind another
one, and which piece of the text is between them; what the operations on cursors give follows from
the piece that they pass.
-/

namespace PegCompiler

namespace Cursor

variable {c d e : Cursor} {t u : Text}

/-- From `c` on the text reads `t`, and `d` is the place behind that. -/
structure Reads (c : Cursor) (t : Text) (d : Cursor) : Prop where
  source : d.source = c.source
  before : d.before = t.reverse ++ c.before
  after : c.after = t ++ d.after

namespace Reads

theorem refl (c : Cursor) : c.Reads [] c := ⟨rfl, rfl, rfl⟩

theorem trans (h : c.Reads t d) (k : d.Reads u e) : c.Reads (t ++ u) e :=
  ⟨k.source.trans h.source, by simp [k.before, h.before], by simp [k.after, h.after]⟩

/-- The place behind a piece is known from the piece. -/
theorem eq (h : c.Reads t d) : d = ⟨c.source, t.reverse ++ c.before, d.after⟩ := by
  rw [← h.source, ← h.before]

theorem unique (h : c.Reads t d) (k : c.Reads t e) : d = e := by
  have same : d.after = e.after := List.append_cancel_left (h.after.symm.trans k.after)
  rw [h.eq, k.eq, same]

theorem next {x : CodePoint} (h : c.peek? = some x) : c.Reads [x] c.next := by
  obtain ⟨source, before, after⟩ := c
  cases after with
  | nil => cases h
  | cons y rest =>
    cases h
    exact ⟨rfl, rfl, rfl⟩

theorem advance (h : c.after = t ++ u) : c.Reads t (c.advance t.length) := by
  induction t generalizing c with
  | nil => exact refl c
  | cons x t ih =>
    have first : c.peek? = some x := by rw [peek?, h]; rfl
    have one := next first
    have rest : c.next.after = t ++ u := (List.cons.inj (one.after.symm.trans h)).2
    exact one.trans (ih rest)

theorem after_advance (h : c.after = t ++ u) : (c.advance t.length).after = u :=
  List.append_cancel_left ((advance h).after.symm.trans h)

/-- A piece in two parts has a place between them. -/
theorem split (h : c.Reads (t ++ u) d) : ∃ m, c.Reads t m ∧ m.Reads u d :=
  ⟨⟨c.source, t.reverse ++ c.before, u ++ d.after⟩, ⟨rfl, rfl, by simp [h.after]⟩,
    ⟨h.source, by simp [h.before], rfl⟩⟩

theorem peek? {x : CodePoint} (h : c.Reads (x :: t) d) : c.peek? = some x := by
  simp [Cursor.peek?, h.after]

theorem behind {x : CodePoint} (h : c.Reads (x :: t) d) : c.next.Reads t d := by
  obtain ⟨m, one, rest⟩ := split (t := [x]) h
  exact (one.unique (next h.peek?)) ▸ rest

theorem textBetween (h : c.Reads t d) : c.textBetween d = t := by
  simp [Cursor.textBetween, h.before]

theorem whole (h : c.Reads t d) : d.whole = c.whole := by
  simp [Cursor.whole, h.before, h.after]

theorem length_after (h : c.Reads t d) : c.after.length = t.length + d.after.length := by
  rw [h.after, List.length_append]

end Reads

theorem peek?_eq_some {x : CodePoint} : c.peek? = some x ↔ ∃ rest, c.after = x :: rest :=
  List.head?_eq_some_iff

theorem peek?_eq_none : c.peek? = none ↔ c.after = [] := List.head?_eq_none_iff

theorem next_of_end (h : c.peek? = none) : c.next = c := by
  obtain ⟨source, before, after⟩ := c
  obtain rfl : after = [] := peek?_eq_none.mp h
  rfl

/-- `d` is the place `c` or one behind it in the same text. -/
def Leads (c d : Cursor) : Prop := ∃ t, c.Reads t d

namespace Leads

theorem refl (c : Cursor) : c.Leads c := ⟨[], .refl c⟩

theorem trans (h : c.Leads d) (k : d.Leads e) : c.Leads e := by
  obtain ⟨t, h⟩ := h
  obtain ⟨u, k⟩ := k
  exact ⟨_, h.trans k⟩

theorem next (c : Cursor) : c.Leads c.next := by
  cases here : c.peek? with
  | none =>
    rw [next_of_end here]
    exact refl c
  | some x => exact ⟨[x], .next here⟩

theorem advance (n : Nat) (c : Cursor) : c.Leads (c.advance n) := by
  induction n generalizing c with
  | zero => exact refl c
  | succ n ih => exact (next c).trans (ih c.next)

theorem length_le (h : c.Leads d) : d.after.length ≤ c.after.length := by
  obtain ⟨t, h⟩ := h
  have := h.length_after
  omega

end Leads

theorem length_next_lt {x : CodePoint} (h : c.peek? = some x) :
    c.next.after.length < c.after.length := by
  have := (Reads.next h).length_after
  simp only [List.length_singleton] at this
  omega

theorem startsWith_iff {literal : Text} :
    c.startsWith literal = true ↔ ∃ rest, c.after = literal ++ rest := by
  simp only [startsWith, List.isPrefixOf_iff_prefix, List.IsPrefix]
  exact exists_congr fun _ => eq_comm

theorem startsWith_of_ne {literal : Text} {x y : CodePoint} (here : c.peek? = some y)
    (first : literal.head? = some x) (other : y ≠ x) : c.startsWith literal = false := by
  rw [Bool.eq_false_iff, ne_eq, startsWith_iff]
  rintro ⟨rest, after⟩
  rw [peek?, after, List.head?_append, first, Option.some_or] at here
  exact other (Option.some.inj here).symm

end Cursor

end PegCompiler
