import PegCompiler.Proofs.Grammar.Shape
import PegCompiler.Proofs.Grammar.Skipping
import PegCompiler.Run.Entry

/-!
Descriptions of what was expected, read as text of a grammar. A message describes an expected text
as a string and an expected class in brackets. The reader of grammars finds in such a description
exactly what it describes (`Scan.descriptions_read`): every code point is written in one of the ways
that the reader knows (`Scan.Spells`), and begins with none of the marks that mean something at its
place.
-/

namespace PegCompiler

theorem CodePoint.ofNat_toNat (x : CodePoint) : ofNat x.toNat = x := by
  cases x with
  | scalar char =>
    have valid : ¬(0xD800 ≤ char.toNat ∧ char.toNat < 0xE000) := by
      rcases char.valid with low | ⟨high, -⟩
      · exact fun bounds => absurd low (by exact Nat.not_lt.mpr bounds.1)
      · exact fun bounds => absurd high (by exact Nat.not_lt.mpr (Nat.le_of_lt_succ bounds.2))
    simp [ofNat, toNat, valid]
  | surrogate index =>
    have bounds : 0xD800 ≤ 0xD800 + index.val ∧ 0xD800 + index.val < 0xE000 := by omega
    simp [ofNat, toNat, bounds]

theorem Cursor.Reads.length_lt {c d : Cursor} {t : Text} (reads : c.Reads t d)
    (nonempty : t ≠ []) : d.after.length < c.after.length := by
  have length := reads.length_after
  have := List.length_pos_iff.mpr nonempty
  omega

namespace Scan

variable {c d : Cursor} {x y : CodePoint} {t : Text}

/-- The ways to write a code point in a string or a class. -/
inductive Spells (x : CodePoint) : Text → Prop
  | plain : x ≠ '\\' → x ≠ '\n' → Spells x [x]
  | letter {y : CodePoint} : shortEscape? y = some x → Spells x ['\\', y]
  | itself : shortEscape? x = none → x ≠ 'x' → x ≠ 'u' → Spells x ['\\', x]
  | number {digits : Text} : digits.length = 2 → hexNumber? 2 digits = some x.toNat →
    Spells x ('\\' :: 'x' :: digits)

theorem Spells.ne_nil (spells : Spells x t) : t ≠ [] := by cases spells <;> simp

theorem get_run : (get : Scan Cursor) c = .ok (c, c) := rfl

theorem hexNumber?_of_length {width : Nat} {digits : Text} (length : digits.length = width)
    (rest : Text) : hexNumber? width (digits ++ rest) = hexNumber? width digits := by
  subst length
  simp [hexNumber?]

theorem escape_letter (here : c.peek? = some y) (found : shortEscape? y = some x) :
    escape c = .ok (x, c.next) := by
  refine (run_bind get_run).trans ?_
  rw [here]
  simp only [found]
  rfl

theorem escape_itself (here : c.peek? = some x) (noLetter : shortEscape? x = none) (noX : x ≠ 'x')
    (noU : x ≠ 'u') : escape c = .ok (x, c.next) := by
  refine (run_bind get_run).trans ?_
  rw [here]
  simp [noLetter, noX, noU]
  rfl

theorem escape_number {n : Nat} (here : c.peek? = some (.scalar 'x'))
    (found : hexNumber? 2 c.next.after = some n) :
    escape c = .ok (CodePoint.ofNat n, c.advance 3) := by
  have noLetter : shortEscape? (.scalar 'x') = none := rfl
  refine (run_bind get_run).trans ?_
  rw [here]
  simp only [noLetter, beq_self_eq_true, Bool.true_or, if_true, found]
  rfl

theorem element_plain (plain : x ≠ '\\') : element x c = .ok (x, c.next) := by
  have passed : (modify Cursor.next : Scan PUnit) c = .ok (⟨⟩, c.next) := rfl
  refine (run_bind passed).trans ?_
  rw [if_neg (by simpa using plain)]
  rfl

theorem element_escape : element '\\' c = escape c.next := rfl

/-- However a code point is written, it is read. -/
theorem Spells.element (spells : Spells x t) (reads : c.Reads t d) :
    ∃ first, t.head? = some first ∧ first ≠ '\n' ∧ c.peek? = some first ∧
      Scan.element first c = .ok (x, d) := by
  cases spells with
  | plain noBackslash noNewline =>
    obtain rfl : d = c.next := reads.unique (.next reads.peek?)
    exact ⟨x, rfl, noNewline, reads.peek?, element_plain noBackslash⟩
  | @letter y found =>
    have behind := reads.behind
    obtain rfl : d = c.next.next := behind.unique (.next behind.peek?)
    exact ⟨_, rfl, by decide, reads.peek?, escape_letter behind.peek? found⟩
  | itself noLetter noX noU =>
    have behind := reads.behind
    obtain rfl : d = c.next.next := behind.unique (.next behind.peek?)
    exact ⟨_, rfl, by decide, reads.peek?, escape_itself behind.peek? noLetter noX noU⟩
  | @number digits length found =>
    have behind := reads.behind
    have there : c.next.next.after = digits ++ d.after := behind.behind.after
    have three : (CodePoint.scalar 'x' :: digits).length = 3 := by simp [length]
    obtain rfl : d = c.next.advance 3 := behind.unique (three ▸ .advance behind.after)
    refine ⟨_, rfl, by decide, reads.peek?, ?_⟩
    have number : hexNumber? 2 c.next.next.after = some x.toNat := by
      rw [there, hexNumber?_of_length length, found]
    rw [element_escape, escape_number behind.peek? number, CodePoint.ofNat_toNat]

end Scan

namespace Describe

open Scan

theorem upperHexadecimal_reads : ∀ n < 0xA0,
    (Text.upperHexadecimal 2 n).length = 2 ∧ hexNumber? 2 (Text.upperHexadecimal 2 n) = some n := by
  decide +kernel

/-- What means something inside brackets. -/
def marks : Text := "]^-"

theorem upperHexadecimal_free : ∀ n < 0xA0, ∀ y ∈ Text.upperHexadecimal 2 n, y ∉ marks := by
  decide +kernel

theorem eq_of_mem_marks {x : CodePoint} (mark : x ∈ marks) : x = ']' ∨ x = '^' ∨ x = '-' := by
  simpa [marks, Text.ofString, Text.ofChars] using mark

/-- A code point is described by itself, by a letter that stands for it, or by its number. -/
theorem escapedChar_cases (x : CodePoint) :
    (x ≠ '\\' ∧ x ≠ '"' ∧ x ≠ '\n' ∧ escapedChar x = [x]) ∨
    (∃ y, shortEscape? y = some x ∧ y ∉ marks ∧ escapedChar x = [.scalar '\\', y]) ∨
    (x.toNat < 0xA0 ∧
      escapedChar x = .scalar '\\' :: .scalar 'x' :: Text.upperHexadecimal 2 x.toNat) := by
  unfold escapedChar
  split
  · rename_i same
    subst same
    exact .inr (.inl ⟨'\\', rfl, by decide, rfl⟩)
  rename_i noBackslash
  split
  · rename_i same
    subst same
    exact .inr (.inl ⟨'"', rfl, by decide, rfl⟩)
  rename_i noQuote
  split
  · rename_i zero
    obtain rfl : x = '\x00' := by rw [← x.ofNat_toNat, zero]; rfl
    exact .inr (.inl ⟨'0', rfl, by decide, rfl⟩)
  split
  · rename_i same
    subst same
    exact .inr (.inl ⟨'t', rfl, by decide, rfl⟩)
  split
  · rename_i same
    subst same
    exact .inr (.inl ⟨'n', rfl, by decide, rfl⟩)
  rename_i noNewline
  split
  · rename_i same
    subst same
    exact .inr (.inl ⟨'r', rfl, by decide, rfl⟩)
  split
  · rename_i control
    have small : x.toNat < 0xA0 := by
      simp only [isControl, Bool.or_eq_true, Bool.and_eq_true, decide_eq_true_eq] at control
      omega
    exact .inr (.inr ⟨small, rfl⟩)
  · exact .inl ⟨noBackslash, noQuote, noNewline, rfl⟩

theorem escapedChar_spells (x : CodePoint) : Spells x (escapedChar x) := by
  obtain ⟨noBackslash, -, noNewline, written⟩ | ⟨y, found, -, written⟩ | ⟨small, written⟩ :=
    escapedChar_cases x
  · exact written ▸ .plain noBackslash noNewline
  · exact written ▸ .letter found
  · obtain ⟨length, found⟩ := upperHexadecimal_reads x.toNat small
    exact written ▸ .number length found

/-- A description never begins with a quote. -/
theorem escapedChar_head (x : CodePoint) : (escapedChar x).head? ≠ some Text.doubleQuote := by
  obtain ⟨-, noQuote, -, written⟩ | ⟨y, -, -, written⟩ | ⟨-, written⟩ := escapedChar_cases x
  · rw [written]
    exact fun same => noQuote (Option.some.inj same)
  all_goals
    rw [written]
    exact of_decide_eq_true rfl

/-- Only a mark has a mark in its description. -/
theorem escapedChar_free {x : CodePoint} (noMark : x ∉ marks) : ∀ y ∈ escapedChar x, y ∉ marks := by
  obtain ⟨-, -, -, written⟩ | ⟨z, -, free, written⟩ | ⟨small, written⟩ := escapedChar_cases x
  · simpa [written] using noMark
  · rw [written]
    simpa using ⟨by decide, free⟩
  · rw [written]
    simpa using ⟨by decide, by decide, upperHexadecimal_free x.toNat small⟩

/-- Inside brackets a mark is written behind a backslash. -/
theorem escapedMember_eq (x : CodePoint) :
    escapedMember [x] = if x ∈ marks then [.scalar '\\', x] else escapedChar x := by
  split
  · rename_i mark
    rcases eq_of_mem_marks mark with rfl | rfl | rfl <;> rfl
  · rename_i noMark
    have each : ∀ y ∈ escapedChar x, (if (Text.ofString "]^-").contains y then
        [.scalar '\\', y] else [y]) = [y] := fun y member =>
      if_neg (by simpa [marks] using escapedChar_free noMark y member)
    rw [escapedMember, escaped, List.flatMap_singleton, List.flatMap_def, List.map_congr_left each,
      ← List.flatMap_def, List.flatMap_singleton']

theorem escapedMember_spells (x : CodePoint) : Spells x (escapedMember [x]) := by
  rw [escapedMember_eq]
  split
  · rename_i mark
    rcases eq_of_mem_marks mark with rfl | rfl | rfl <;> exact .itself rfl (by decide) (by decide)
  · exact escapedChar_spells x

/-- The description of a member never begins with a mark. -/
theorem escapedMember_head (x : CodePoint) : ∃ y t, escapedMember [x] = y :: t ∧ y ∉ marks := by
  rw [escapedMember_eq]
  split
  · exact ⟨_, _, rfl, by decide⟩
  · rename_i noMark
    have free := escapedChar_free noMark
    cases written : escapedChar x with
    | nil => exact absurd written (escapedChar_spells x).ne_nil
    | cons y t => exact ⟨y, t, rfl, free y (by simp [written])⟩

theorem member_head {part : ClassPart} (ordered : part.IsOrdered) :
    ∃ y t, member part = y :: t ∧ y ∉ marks := by
  cases part with
  | loose texts => exact absurd ordered id
  | char x => exact escapedMember_head x
  | range lo hi =>
    obtain ⟨y, t, written, free⟩ := escapedMember_head lo
    exact ⟨y, _, by rw [member, written]; rfl, free⟩

/-- Neither a range nor the inversion mark is seen where members begin or end. -/
theorem members_head {parts : List ClassPart} (ordered : ∀ part ∈ parts, part.IsOrdered) :
    ∃ (y : CodePoint) (t : Text), parts.flatMap member ++ "]" = y :: t ∧ y ≠ '-' ∧ y ≠ '^' := by
  cases parts with
  | nil => exact ⟨']', [], rfl, by decide, by decide⟩
  | cons part parts =>
    obtain ⟨y, t, written, free⟩ := member_head (ordered part (by simp))
    exact ⟨y, _, by rw [List.flatMap_cons, written]; rfl, fun same => free (same ▸ by decide),
      fun same => free (same ▸ by decide)⟩

end Describe

namespace Scan

open Describe

variable {c d opening : Cursor} {fuel : Nat}

theorem stringBody_reads {s : Text} (enough : c.after.length < fuel)
    (reads : c.Reads (escaped s ++ [Text.doubleQuote]) d) :
    stringBody opening Text.doubleQuote fuel c = .ok (s, d) := by
  induction s generalizing c fuel with
  | nil =>
    cases fuel with
    | zero => omega
    | succ fuel =>
      obtain rfl : d = c.next := reads.unique (.next reads.peek?)
      refine (run_bind get_run).trans ?_
      rw [reads.peek?]
      rfl
  | cons x s ih =>
    cases fuel with
    | zero => omega
    | succ fuel =>
      have reads : c.Reads (escapedChar x ++ (escaped s ++ [Text.doubleQuote])) d := by
        simpa [escaped] using reads
      obtain ⟨m, one, rest⟩ := reads.split
      obtain ⟨first, head, noNewline, here, read⟩ := (escapedChar_spells x).element one
      have noQuote : first ≠ Text.doubleQuote := fun same => escapedChar_head x (same ▸ head)
      have shorter := one.length_lt (escapedChar_spells x).ne_nil
      refine (run_bind get_run).trans ?_
      rw [here]
      dsimp only
      rw [if_neg (by simpa using noNewline), if_neg (by simpa using noQuote)]
      exact (run_bind read).trans (run_bind (ih (by omega) rest))

/-- The description of a text is a string that is read as this text. -/
theorem string_reads {s : Text} (reads : c.Reads (Describe.literal s) d) :
    string c = .ok (s, d) := by
  have here : c.peek? = some Text.doubleQuote := reads.peek?
  refine (run_bind get_run).trans ?_
  rw [here]
  dsimp only
  have opened : (set c.next : Scan PUnit) c = .ok (⟨⟩, c.next) := rfl
  refine (run_bind opened).trans ?_
  have shorter := Cursor.length_next_lt here
  exact stringBody_reads (by omega) reads.behind

theorem classElement_reads {x : CodePoint} (reads : c.Reads (escapedMember [x]) d) :
    classElement c = .ok (x, d) := by
  obtain ⟨first, -, noNewline, here, read⟩ := (escapedMember_spells x).element reads
  refine (run_bind get_run).trans ?_
  rw [here]
  dsimp only
  rw [if_neg (by simpa using noNewline)]
  exact read

theorem rangeAhead_eq_false (noDash : c.peek? ≠ some (.scalar '-')) : rangeAhead c = false := by
  unfold rangeAhead
  split
  · rfl
  · rename_i after
    exact absurd (congrArg List.head? after) noDash
  · rfl

theorem rangeAhead_eq_true {hi : CodePoint}
    (reads : c.Reads (.scalar '-' :: escapedMember [hi]) d) : rangeAhead c = true := by
  obtain ⟨y, t, written, free⟩ := escapedMember_head hi
  have noBracket : y ≠ ']' := fun same => free (same ▸ by decide)
  have after : c.after = .scalar '-' :: y :: (t ++ d.after) := by simpa [written] using reads.after
  unfold rangeAhead
  split
  · rename_i after'
    rw [after] at after'
    exact absurd (List.cons.inj (List.cons.inj after').2).1 noBracket
  · rfl
  · rename_i other
    exact absurd after (other _ _)

/-- A member of a class is read as it is if what follows is not taken for the end of a range. -/
theorem classPart_reads {part : ClassPart} (ordered : part.IsOrdered)
    (reads : c.Reads (member part) d) (noDash : d.peek? ≠ some (.scalar '-')) :
    classPart c = .ok (part, d) := by
  cases part with
  | loose texts => exact absurd ordered id
  | char x =>
    refine (run_bind get_run).trans ((run_bind (classElement_reads reads)).trans ?_)
    refine (run_bind get_run).trans ?_
    rw [rangeAhead_eq_false noDash]
    rfl
  | range lo hi =>
    rw [member, List.append_assoc] at reads
    obtain ⟨m, low, rest⟩ := reads.split
    have rest : m.Reads (.scalar '-' :: escapedMember [hi]) d := rest
    refine (run_bind get_run).trans ((run_bind (classElement_reads low)).trans ?_)
    refine (run_bind get_run).trans ?_
    rw [rangeAhead_eq_true rest, if_pos rfl]
    have passed : (modify Cursor.next : Scan PUnit) m = .ok (⟨⟩, m.next) := rfl
    refine (run_bind passed).trans ((run_bind (classElement_reads rest.behind)).trans ?_)
    rw [if_neg (Nat.not_lt.mpr ordered)]
    rfl

theorem classParts_reads {parts : List ClassPart} (ordered : ∀ part ∈ parts, part.IsOrdered)
    (enough : c.after.length < fuel) (reads : c.Reads (parts.flatMap member ++ "]") d) :
    classParts fuel c = .ok (parts, d) := by
  induction parts generalizing c fuel with
  | nil =>
    cases fuel with
    | zero => omega
    | succ fuel =>
      obtain rfl : d = c.next := reads.unique (.next reads.peek?)
      refine (run_bind get_run).trans ?_
      rw [reads.peek?]
      rfl
  | cons part parts ih =>
    cases fuel with
    | zero => omega
    | succ fuel =>
      have reads : c.Reads (member part ++ (parts.flatMap member ++ "]")) d := by
        simpa using reads
      obtain ⟨m, one, rest⟩ := reads.split
      have here := ordered part (by simp)
      obtain ⟨y, t, written, free⟩ := member_head here
      have first : c.peek? = some y := by simp [Cursor.peek?, one.after, written]
      have noBracket : y ≠ ']' := fun same => free (same ▸ by decide)
      have others : ∀ part ∈ parts, part.IsOrdered :=
        fun other member => ordered other (by simp [member])
      -- What follows the first member begins the second one or is the bracket.
      have noDash : m.peek? ≠ some (.scalar '-') := by
        obtain ⟨z, u, follows, noDash, -⟩ := members_head others
        rw [Cursor.peek?, rest.after, follows]
        exact fun dash => noDash (Option.some.inj dash)
      have shorter := one.length_lt (by simp [written])
      refine (run_bind get_run).trans ?_
      rw [first, if_neg (by simpa using noBracket)]
      exact (run_bind (classPart_reads here one noDash)).trans
        (run_bind (ih others (by omega) rest))

/-- The description of a class is read as this class, but for the flag that a class may have. -/
theorem charClass_reads {members : CharClass} (ordered : ∀ part ∈ members.parts, part.IsOrdered)
    (reads : c.Reads (Describe.charClass members) d) (noFlag : d.peek? ≠ some (.scalar 'i')) :
    charClass c = .ok (.charClass { location := c.locationBetween d }
      ⟨members.parts, members.inverted, false⟩, d) := by
  have here : c.peek? = some (.scalar '[') := reads.peek?
  have shorter := Cursor.length_next_lt here
  have flag : ignoreCaseFlag d = .ok (false, d) := by
    refine (run_bind get_run).trans ?_
    have noFlag : (d.peek? == some (CodePoint.scalar 'i')) = false := by simpa using noFlag
    rw [noFlag]
    rfl
  have passed (c : Cursor) : (modify Cursor.next : Scan PUnit) c = .ok (⟨⟩, c.next) := rfl
  refine (run_bind get_run).trans ((run_bind (passed c)).trans ?_)
  refine (run_bind get_run).trans ?_
  cases inverted : members.inverted with
  | true =>
    rw [Describe.charClass, inverted, List.append_assoc, List.append_assoc] at reads
    have inside : c.next.Reads (.scalar '^' :: (members.parts.flatMap member ++ "]")) d :=
      reads.behind
    have mark : (c.next.peek? == some (CodePoint.scalar '^')) = true := by simp [inside.peek?]
    rw [mark]
    have shorter' := Cursor.length_next_lt inside.peek?
    refine (run_bind (passed c.next)).trans ?_
    refine (run_bind (classParts_reads ordered (by omega) inside.behind)).trans ?_
    exact run_bind flag
  | false =>
    rw [Describe.charClass, inverted] at reads
    have inside : c.next.Reads (members.parts.flatMap member ++ "]") d := reads.behind
    have noMark : (c.next.peek? == some (CodePoint.scalar '^')) = false := by
      obtain ⟨y, t, follows, -, noMark⟩ := members_head ordered
      have first : c.next.peek? = some y := by rw [Cursor.peek?, inside.after, follows]; rfl
      simpa [first] using noMark
    rw [noMark]
    refine (run_bind (classParts_reads ordered (by omega) inside)).trans ?_
    exact run_bind flag

/-- The description of a text is a string that is read as this text, and the one of a class is read
as a class of the same parts, inverted or not as it is; both are read up to their ends, wherever they
stand. -/
theorem descriptions_read (source : Option Text) (before : Text) :
    (∀ (s : Text) (ignoreCase : Bool), ∃ t, Describe.entry (.literal s ignoreCase) = some (.text t) ∧
      ∀ rest, string ⟨source, before, t ++ rest⟩ = .ok (s, ⟨source, t.reverse ++ before, rest⟩)) ∧
    ∀ members : CharClass, (∀ part ∈ members.parts, part.IsOrdered) →
      ∃ t, Describe.entry (.charClass members) = some (.text t) ∧
        ∀ rest, rest.head? ≠ some (CodePoint.scalar 'i') →
          ∃ info, charClass ⟨source, before, t ++ rest⟩ =
          .ok (.charClass info ⟨members.parts, members.inverted, false⟩,
            ⟨source, t.reverse ++ before, rest⟩) := by
  constructor
  · exact fun s ignoreCase => ⟨_, rfl, fun rest => string_reads ⟨rfl, rfl, rfl⟩⟩
  · exact fun members ordered =>
      ⟨_, rfl, fun rest noFlag => ⟨_, charClass_reads ordered ⟨rfl, rfl, rfl⟩ noFlag⟩⟩

/-- Everything that means something inside brackets, some of it at the ends of ranges. -/
def marksClass : CharClass :=
  ⟨[.char '^', .range '\x00' '\\', .range ']' '\x85', .char '-', .char '"'], true, true⟩

theorem marks_read : (∀ part ∈ marksClass.parts, part.IsOrdered) ∧
    Describe.charClass marksClass = "[^\\^\\0-\\\\\\]-\\x85\\-\\\"]" ∧
    ∃ info, charClass (.start none (Describe.charClass marksClass)) =
      .ok (.charClass info ⟨marksClass.parts, true, false⟩,
        ⟨none, (Describe.charClass marksClass).reverse, []⟩) := by
  have ordered : ∀ part ∈ marksClass.parts, part.IsOrdered := by
    simp [marksClass, ClassPart.IsOrdered, CodePoint.toNat]
  obtain ⟨t, described, reads⟩ := (descriptions_read none []).2 marksClass ordered
  obtain rfl : Describe.charClass marksClass = t := by simpa [Describe.entry] using described
  obtain ⟨info, read⟩ := reads [] (by simp)
  simp only [List.append_nil] at read
  exact ⟨ordered, by decide +kernel, info, read⟩

end Scan

end PegCompiler
