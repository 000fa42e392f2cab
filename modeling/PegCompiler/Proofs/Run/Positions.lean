import Mathlib.Data.List.Induction
import Mathlib.Data.List.TakeWhile
import Mathlib.Data.Prod.Lex
import Mathlib.Tactic.IntervalCases
import PegCompiler.Run.ParseError

/-!
Positions in an input, and the excerpts that show them. `Place.lastLine_concat` says what one code point
more does to the last line of a text; all else follows from it. Lines are counted by the breaks in front
of an offset (`Place.line_eq`), where a break is told by its last code point alone. From one offset to the
next the position moves on, except from the inside of a carriage return and line feed to their end
(`Place.position_succ`), and the line that an excerpt shows holds no break (`Place.lineAround_unbroken`).
The main theorem is `Place.positions_shown`.
-/

namespace PegCompiler

namespace Place

def carriageReturn : CodePoint := '\r'

/-- A line break ends with the code point at `i`: it ends a line, and it is not the carriage return in
front of a line feed. -/
def breakEndsAt (t : Text) (i : Nat) : Bool :=
  t[i]?.any endsLine && !(t[i]? == some carriageReturn && t[i + 1]? == some Text.newline)

/-- The number of line breaks of a text. -/
def breaks (t : Text) : Nat := (List.range t.length).countP (breakEndsAt t)

/-- A line feed behind `t` would belong to a carriage return at its end. -/
def Pairs (t : Text) (c : CodePoint) : Prop := t.getLast? = some carriageReturn ∧ c = Text.newline

instance (t : Text) (c : CodePoint) : Decidable (Pairs t c) := inferInstanceAs (Decidable (_ ∧ _))

section Concat

variable {t rest : Text} {c d : CodePoint}

theorem not_pairs_nil : ¬Pairs [] c := by simp [Pairs]

theorem pairs_cons (other : rest ≠ []) : Pairs (d :: rest) c ↔ Pairs rest c := by
  unfold Pairs
  rw [List.getLast?_cons_of_ne_nil other]

theorem lastLine_cons (alone : ¬(d = carriageReturn ∧ rest.head? = some Text.newline))
    (offset line start : Nat) : lastLine offset line start (d :: rest) =
      if endsLine d then lastLine (offset + 1) (line + 1) (offset + 1) rest
      else lastLine (offset + 1) line start rest := by
  rw [lastLine]
  rintro rest rfl rfl
  exact alone ⟨rfl, rfl⟩

/-- One code point more: if it ends a line, the last line starts behind it, and it counts as a break of
its own unless it completes a pair. -/
theorem lastLine_concat (offset line start : Nat) (c : CodePoint) : (t : Text) →
    lastLine offset line start (t ++ [c]) =
      if endsLine c then
        ((lastLine offset line start t).1 + if Pairs t c then 0 else 1, offset + t.length + 1)
      else lastLine offset line start t
  | [] => by simp [lastLine, not_pairs_nil]
  | [d] => by
    by_cases pairs : Pairs [d] c
    · obtain ⟨first, rfl⟩ := pairs
      obtain rfl : d = carriageReturn := by simpa using first
      rfl
    · have alone : ¬(d = carriageReturn ∧ [c].head? = some Text.newline) := fun ⟨first, second⟩ =>
        pairs ⟨by simp [first], by simpa using second⟩
      rw [List.singleton_append, lastLine_cons alone, lastLine_cons (by simp)]
      simp only [lastLine_cons (show ¬(c = carriageReturn ∧ [].head? = some Text.newline) by simp),
        lastLine, pairs]
      split <;> split <;> rfl
  | d :: e :: rest => by
    by_cases pair : d = carriageReturn ∧ e = Text.newline
    · obtain ⟨rfl, rfl⟩ := pair
      have same : Pairs (carriageReturn :: Text.newline :: rest) c ↔ Pairs rest c := by
        cases rest with
        | nil => exact iff_of_false (fun pairs => absurd pairs.1 (by decide)) not_pairs_nil
        | cons d rest => simp [Pairs]
      have further := lastLine_concat (offset + 2) (line + 1) (offset + 2) c rest
      change lastLine (offset + 2) (line + 1) (offset + 2) (rest ++ [c]) = _
      rw [further]
      simp only [same, List.length_cons, show offset + 2 + rest.length + 1 =
        offset + (rest.length + 1 + 1) + 1 by omega]
      rfl
    · have alone {rest : Text} : ¬(d = carriageReturn ∧ (e :: rest).head? = some Text.newline) :=
        fun ⟨first, second⟩ => pair ⟨first, by simpa using second⟩
      rw [List.cons_append, List.cons_append, lastLine_cons alone, lastLine_cons alone,
        ← List.cons_append, lastLine_concat _ _ _ c (e :: rest), lastLine_concat _ _ _ c (e :: rest)]
      simp only [pairs_cons (c := c) (d := d) (List.cons_ne_nil e rest), List.length_cons]
      split <;> split <;> simp [Nat.add_comm, Nat.add_left_comm]

theorem breakEndsAt_append {u : Text} {i : Nat} (before : i + 1 < t.length) :
    breakEndsAt (t ++ u) i = breakEndsAt t i := by
  simp only [breakEndsAt, List.getElem?_append_left before,
    List.getElem?_append_left (Nat.lt_of_succ_lt before)]

/-- The same of the number of breaks. -/
theorem breaks_concat (t : Text) (c : CodePoint) :
    breaks (t ++ [c]) = breaks t + if endsLine c ∧ ¬Pairs t c then 1 else 0 := by
  cases t using List.reverseRecOn with
  | nil => simp [breaks, breakEndsAt, not_pairs_nil]
  | append_singleton u d =>
    have before : (List.range u.length).countP (breakEndsAt (u ++ [d] ++ [c])) =
        (List.range u.length).countP (breakEndsAt (u ++ [d])) :=
      List.countP_congr fun i inside => by
        rw [breakEndsAt_append (by simpa using inside)]
    have last : breakEndsAt (u ++ [d]) u.length = endsLine d := by simp [breakEndsAt]
    have middle : breakEndsAt (u ++ [d] ++ [c]) u.length =
        (endsLine d && !(d == carriageReturn && c == Text.newline)) := by simp [breakEndsAt]
    have behind : breakEndsAt (u ++ [d] ++ [c]) (u.length + 1) = endsLine c := by simp [breakEndsAt]
    have pairs : Pairs (u ++ [d]) c ↔ d = carriageReturn ∧ c = Text.newline := by simp [Pairs]
    have single : (List.range (u ++ [d]).length) = List.range u.length ++ [u.length] := by
      simp [List.range_succ]
    have double : (List.range (u ++ [d] ++ [c]).length) =
        List.range u.length ++ [u.length] ++ [u.length + 1] := by
      simp [List.range_succ]
    simp only [breaks, single, double, List.countP_append, List.countP_singleton, before, last, middle,
      behind, pairs]
    by_cases pair : d = carriageReturn ∧ c = Text.newline
    · obtain ⟨rfl, rfl⟩ := pair
      rfl
    · have : (d == carriageReturn && c == Text.newline) = false := by simpa using pair
      simp only [this, Bool.not_false, Bool.and_true, pair, not_false_eq_true, and_true]

end Concat

/-! ## The last line of a text -/

/-- Where the last line of a text begins. -/
def lineStart (t : Text) : Nat := (lastLine 0 1 0 t).2

theorem lineStart_concat (t : Text) (c : CodePoint) :
    lineStart (t ++ [c]) = if endsLine c then t.length + 1 else lineStart t := by
  unfold lineStart
  rw [lastLine_concat]
  split <;> simp

theorem line_eq (t : Text) : (lastLine 0 1 0 t).1 = 1 + breaks t := by
  induction t using List.reverseRecOn with
  | nil => rfl
  | append_singleton t c ih =>
    rw [lastLine_concat, breaks_concat]
    by_cases ends : endsLine c = true
    · by_cases pairs : Pairs t c
      · simp [ends, pairs, ih]
      · simp [ends, pairs, ih, Nat.add_assoc]
    · simp [ends, ih]

theorem lineStart_le (t : Text) : lineStart t ≤ t.length := by
  induction t using List.reverseRecOn with
  | nil => exact Nat.le_refl 0
  | append_singleton t c ih =>
    rw [lineStart_concat, List.length_append, List.length_singleton]
    split <;> omega

/-- No line ends in the last line. -/
theorem lastLine_unbroken (t : Text) : ∀ c ∈ t.drop (lineStart t), endsLine c = false := by
  induction t using List.reverseRecOn with
  | nil => simp
  | append_singleton t c ih =>
    rw [lineStart_concat]
    split
    · simp
    · rename_i stays
      rw [List.drop_append_of_le_length (lineStart_le t)]
      intro d member
      rcases List.mem_append.mp member with member | member
      · exact ih d member
      · rw [List.mem_singleton.mp member]
        simpa using stays

theorem lineStart_of_ends {t : Text} {c : CodePoint} (last : t.getLast? = some c)
    (ends : endsLine c = true) : lineStart t = t.length := by
  obtain ⟨u, rfl⟩ := List.getLast?_eq_some_iff.mp last
  rw [lineStart_concat, if_pos ends, List.length_append, List.length_singleton]

/-! ## Positions -/

/-- The offset lies between the carriage return and the line feed of a pair. -/
def InsidePair (input : Text) (offset : Nat) : Prop :=
  (input.take offset).getLast? = some carriageReturn ∧ input[offset]? = some Text.newline

end Place

/-- Line and column, compared as in a dictionary. -/
def Position.lineColumn (position : Position) : ℤ ×ₗ ℤ := toLex (position.line, position.column)

namespace Place

section Positions

variable {input : Text} {p q : Nat}

theorem upTo_natCast (input : Text) (p : Nat) : Index.upTo input p = input.take p := by
  rw [Index.upTo, Index.bound_natCast, ← List.take_take, List.take_length]

theorem position_eq (input : Text) (p : Nat) : position input p =
    ⟨p, (1 + breaks (input.take p) : Nat), p - lineStart (input.take p) + 1⟩ := by
  rw [← line_eq, position, lineAt, upTo_natCast]
  rfl

theorem take_succ (inside : p < input.length) : input.take (p + 1) = input.take p ++ [input[p]] := by
  rw [List.take_succ_eq_append_getElem inside]

/-- From one offset to the next the position moves on, except inside of a pair. -/
theorem position_succ (inside : p < input.length) :
    (InsidePair input p → (position input (p + 1 : Nat)).lineColumn = (position input p).lineColumn) ∧
    (¬InsidePair input p →
      (position input p).lineColumn < (position input (p + 1 : Nat)).lineColumn) := by
  have upper := lineStart_le (input.take p)
  have length : (input.take p).length = p := List.length_take_of_le inside.le
  have pairs : InsidePair input p ↔ Pairs (input.take p) input[p] := by
    simp [InsidePair, Pairs, List.getElem?_eq_getElem inside]
  simp only [position_eq, Position.lineColumn, take_succ inside, breaks_concat, lineStart_concat, pairs]
  constructor
  · rintro ⟨last, feed⟩
    have start := lineStart_of_ends last rfl
    have ends : endsLine input[p] = true := by rw [feed]; rfl
    rw [if_neg (by simp [Pairs, last, feed]), if_pos ends, start, length]
    simp
  · intro single
    rw [Prod.Lex.toLex_lt_toLex]
    by_cases ends : endsLine input[p] = true
    · left
      simp [ends, single]
    · right
      simp [ends]

theorem position_le (le : p ≤ q) (inside : q ≤ input.length) :
    (position input p).lineColumn ≤ (position input q).lineColumn := by
  induction q, le using Nat.le_induction with
  | base => exact le_refl _
  | succ q _ ih =>
    refine (ih (by omega)).trans ?_
    by_cases pair : InsidePair input q
    · exact ((position_succ (by omega)).1 pair).ge
    · exact ((position_succ (by omega)).2 pair).le

/-- Two offsets have the same line and column only if they are the inside and the end of a pair. -/
theorem position_eq_iff (less : p < q) (inside : q ≤ input.length) :
    (position input p).lineColumn = (position input q).lineColumn ↔ InsidePair input p ∧ q = p + 1 := by
  constructor
  · intro same
    by_cases pair : InsidePair input p
    · refine ⟨pair, ?_⟩
      by_contra further
      -- the line feed of the pair is in front of the next offset
      have behind : ¬InsidePair input (p + 1) := by
        rintro ⟨last, -⟩
        rw [take_succ (by omega), List.getLast?_concat] at last
        have feed := pair.2
        rw [List.getElem?_eq_getElem (by omega), Option.some.inj last] at feed
        exact absurd feed (by decide)
      have first := (position_succ (by omega)).1 pair
      have second := (position_succ (by omega)).2 behind
      have third := position_le (show p + 1 + 1 ≤ q by omega) inside
      exact absurd (first ▸ second.trans_le third) same.not_lt
    · have first := (position_succ (by omega)).2 pair
      have second := position_le (show p + 1 ≤ q by omega) inside
      exact absurd (first.trans_le second) same.not_lt
  · rintro ⟨pair, rfl⟩
    exact ((position_succ (by omega)).1 pair).symm

/-! ## Excerpts -/

/-- How far the line goes on from an offset. -/
def lineStop (input : Text) (p : Nat) : Nat :=
  p + ((input.drop p).takeWhile (!endsLine ·)).length

theorem lineStop_le (inside : p ≤ input.length) : lineStop input p ≤ input.length := by
  have := (List.takeWhile_prefix (!endsLine ·) (l := input.drop p)).length_le
  rw [List.length_drop] at this
  unfold lineStop
  omega

/-- It stops at the end of the input or where a line break begins. -/
theorem endsLine_lineStop (before : lineStop input p < input.length) :
    ∃ c, input[lineStop input p]? = some c ∧ endsLine c = true := by
  have rest : (input.drop p).drop ((input.drop p).takeWhile (!endsLine ·)).length =
      (input.drop p).dropWhile (!endsLine ·) := by
    calc
      _ = ((input.drop p).takeWhile (!endsLine ·) ++ (input.drop p).dropWhile (!endsLine ·)).drop
          ((input.drop p).takeWhile (!endsLine ·)).length := by rw [List.takeWhile_append_dropWhile]
      _ = _ := List.drop_left
  have there : input[lineStop input p]? = ((input.drop p).dropWhile (!endsLine ·)).head? := by
    rw [← rest, List.head?_drop, List.getElem?_drop, lineStop]
  have known := List.getElem?_eq_getElem before
  have stops := List.head?_dropWhile_not (!endsLine ·) (input.drop p)
  rw [← there, known] at stops
  exact ⟨_, known, by simpa using stops⟩

/-- The line around an offset is the piece from the start of the last line in front of it on. -/
theorem lineAround_eq (inside : p ≤ input.length) : lineAround input p =
    (lineStart (input.take p), (input.take (lineStop input p)).drop (lineStart (input.take p))) := by
  have upper : lineStart (input.take p) ≤ (input.take p).length := lineStart_le _
  have behind : Index.behind input (p : Int) = input.drop p := by
    rw [Index.behind, Index.bound_natCast, Nat.min_eq_left inside]
  have further : (input.drop p).takeWhile (!endsLine ·) =
      (input.drop p).take ((input.drop p).takeWhile (!endsLine ·)).length :=
    List.prefix_iff_eq_take.mp (List.takeWhile_prefix _)
  rw [lineAround, lineAt, upTo_natCast, behind, lineStop, List.take_add, ← further,
    List.drop_append_of_le_length upper]
  rfl

/-- No line ends in the line around an offset. -/
theorem lineAround_unbroken (input : Text) (p : Nat) :
    ∀ c ∈ (lineAround input p).2, endsLine c = false := by
  have upper : lineStart (input.take p) ≤ (input.take p).length := lineStart_le _
  intro c member
  rw [lineAround, lineAt, upTo_natCast] at member
  rcases List.mem_append.mp member with member | member
  · exact lastLine_unbroken _ c member
  · simpa using List.mem_takeWhile_imp member

end Positions

/-- Positions are counted from the input in front of them, and excerpts agree with them: an excerpt for a
span shows the line around its start, from the place that the column says up to the next line break, with
the caret below the start. -/
theorem positions_shown (input : Text) (source : Option Text) {p q : Nat} (le : p ≤ q)
    (inside : q ≤ input.length) :
    (∀ other : Text, other.take p = input.take p → position other p = position input p) ∧
    (position input p).line = 1 + breaks (input.take p) ∧
    (position input p).lineColumn ≤ (position input q).lineColumn ∧
    (p < q → ((position input p).lineColumn = (position input q).lineColumn ↔
      InsidePair input p ∧ q = p + 1)) ∧
    ∀ error : ParseError, error.place.value = (span input source p q).value →
      ∃ stop : Nat, p ≤ stop ∧ stop ≤ input.length ∧
        (stop < input.length → ∃ c, input[stop]? = some c ∧ endsLine c = true) ∧
        let column := (position input p).column
        let piece := Index.slice input (p - (column - 1)) stop
        1 ≤ column ∧ column - 1 ≤ p ∧ (∀ c ∈ piece, endsLine c = false) ∧
        error.format? input = some (Text.unlines ["Error: " ++ error.message.shown,
          " --> " ++ Location.shown ⟨source, position input p, position input q⟩, piece,
          Text.blanks (column - 1).toNat ++ "^"]) := by
  have here : p ≤ input.length := le.trans inside
  refine ⟨fun other same => ?_, ?_, position_le le inside, fun less => position_eq_iff less inside,
    fun error placed => ?_⟩
  · rw [position_eq, position_eq, same]
  · rw [position_eq]
    push_cast
    rfl
  · have upper : lineStart (input.take p) ≤ p :=
      (lineStart_le _).trans (List.length_take_of_le here).le
    have column : (position input p).column - 1 = (p - lineStart (input.take p) : Nat) := by
      rw [position_eq]
      dsimp only
      omega
    have start : (p : Int) - ((position input p).column - 1) = (lineStart (input.take p) : Nat) := by
      omega
    have piece : Index.slice input (p - ((position input p).column - 1)) (lineStop input p) =
        (lineAround input p).2 := by
      rw [start, Index.slice, upTo_natCast, Index.bound_natCast, lineAround_eq here,
        Nat.min_eq_left (upper.trans here)]
    refine ⟨lineStop input p, Nat.le_add_right _ _, lineStop_le here, endsLine_lineStop, ?_⟩
    refine ⟨by omega, by omega, ?_, ?_⟩
    · rw [piece]
      exact lineAround_unbroken input p
    · have format : error.format? input =
          some (ParseError.excerpt error.message.shown (span input source p q) input) := by
        rw [ParseError.format?, ErrorPlace.span?_of_value placed, Option.map_some]
      have caret : ((p : Int) - (lineAround input p).1).toNat =
          ((position input p).column - 1).toNat := by
        rw [lineAround_eq here]
        dsimp only
        omega
      rw [format, piece, ← caret]
      rfl

/-- Inside of a pair the next line has begun, and it is shown empty. -/
theorem pair_positions_shown :
    (2 : Nat) ≤ 3 ∧ 3 ≤ (Text.ofString "a\r\nb").length ∧ InsidePair (Text.ofString "a\r\nb") 2 ∧
    (position (Text.ofString "a\r\nb") (2 : Nat)).lineColumn =
      (position (Text.ofString "a\r\nb") (3 : Nat)).lineColumn ∧
    (ParseError.mk (.text "no") none none
      (.span (span (Text.ofString "a\r\nb") none (2 : Nat) (3 : Nat)))).format?
        (Text.ofString "a\r\nb") = some "Error: no\n --> 2:1\n\n^" := by
  have inside : InsidePair (Text.ofString "a\r\nb") 2 := ⟨by decide, by decide⟩
  obtain ⟨-, -, -, same, excerpts⟩ := positions_shown (Text.ofString "a\r\nb") none
    (show 2 ≤ 3 by decide) (by decide)
  obtain ⟨stop, behind, within, -, -, -, unbroken, format⟩ :=
    excerpts ⟨.text "no", none, none,
      .span (span (Text.ofString "a\r\nb") none (2 : Nat) (3 : Nat))⟩ rfl
  have stops : stop = 2 := by
    have within : stop ≤ 4 := within
    interval_cases stop
    · rfl
    · exact absurd (unbroken Text.newline (by decide)) (by decide)
    · exact absurd (unbroken Text.newline (by decide)) (by decide)
  subst stops
  exact ⟨by decide, by decide, inside, (same (by decide)).mpr ⟨inside, rfl⟩, format⟩

end Place

end PegCompiler
