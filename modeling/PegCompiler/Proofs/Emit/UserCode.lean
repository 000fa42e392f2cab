import Mathlib.Data.List.TakeDrop
import PegCompiler.Emit.UserCode
import PegCompiler.Proofs.Text.Dedenting

/-!
User code is emitted line by line. The first line is written without the white space around it, if
anything is left; the lines behind it lose the margin they share, the blank lines at both ends and
the white space at their own ends, and are nested if the first line ends with a colon
(`Emit.userCode_lines`). That holds as long as no line behind the first one has a line boundary of
another kind in it, but for a carriage return in front of the line feed; the first line may have.
-/

namespace PegCompiler

namespace Text

variable {first : Text} {later : List Text}

theorem splitFirstLine_eq {code : Text} (split : splitAt newline code = first :: later) :
    splitFirstLine code = (first, unlines later) := by
  have whole : code = unlines (first :: later) := by rw [unlines, ← split, join_splitAt]
  have free : ∀ c ∈ first, decide (c ≠ newline) = true := by
    intro c member
    have absent := not_mem_splitAt newline code first (by simp [split])
    exact decide_eq_true fun same => absent (same ▸ member)
  cases later with
  | nil =>
    rw [unlines_singleton] at whole
    subst whole
    have none : splitFirst? newline code = none := by
      rw [splitFirst?, List.span_eq_takeWhile_dropWhile, List.dropWhile_eq_nil_iff.mpr free]
    rw [splitFirstLine, none]
    rfl
  | cons next rest =>
    rw [unlines_cons_cons] at whole
    subst whole
    have some : splitFirst? newline (first ++ newline :: unlines (next :: rest)) =
        some (first, unlines (next :: rest)) := by
      rw [splitFirst?, List.span_eq_takeWhile_dropWhile, List.takeWhile_append_of_pos free,
        List.dropWhile_append_of_pos free]
      simp
    rw [splitFirstLine, some]
    rfl

theorem trim_eq_nil {t : Text} : trim t = [] ↔ ∀ c ∈ t, c.isBlank = true :=
  trimEnds_eq_nil (p := CodePoint.isBlank)

theorem isBlank_of_isIndent {c : CodePoint} (indent : isIndent c = true) : c.isBlank = true := by
  simp only [isIndent, Bool.or_eq_true, beq_iff_eq] at indent
  rcases indent with rfl | rfl <;> decide

theorem trimRight_eq_nil {t : Text} (blank : ∀ c ∈ t, c.isBlank = true) : trimRight t = [] := by
  rw [trimRight, List.reverse_eq_nil_iff]
  exact List.dropWhile_eq_nil_iff.mpr fun c member => blank c (List.mem_reverse.mp member)

theorem isBlank_of_isBare {line : Text} (bare : isBare line = true) : ∀ c ∈ line, c.isBlank = true :=
  fun c member => isBlank_of_isIndent (List.all_eq_true.mp bare c member)

theorem dedented_subset (margin line : Text) : dedented margin line ⊆ line := by
  unfold dedented
  split
  · exact List.nil_subset _
  · exact List.drop_subset _ _

theorem isSingle_dedented {line : Text} (single : isSingle line = true) (margin : Text) :
    isSingle (dedented margin line) = true := by
  unfold dedented
  split
  · rfl
  · exact isSingle_drop single _

theorem trimRight_withoutReturn (line : Text) : trimRight (withoutReturn line) = trimRight line := by
  rcases withoutReturn_cases line with same | returned
  · rw [← same]
  · have blank : (CodePoint.scalar '\r').isBlank = true := by decide
    conv_rhs => rw [returned]
    simp [trimRight, dropBlanks, blank]

/-- What is left of a bare line behind its margin is trimmed. -/
theorem trimRight_dedented (margin line : Text) :
    trimRight (dedented margin line) = trimRight (line.drop margin.length) := by
  unfold dedented
  split
  · rename_i bare
    rw [trimRight_eq_nil fun c member => isBlank_of_isBare bare c (List.mem_of_mem_drop member)]
    rfl
  · rfl

end Text

namespace Emit

variable {first : Text} {later kept : List Text}

/-- What is kept of the lines behind the first one: all but the bare lines at both ends, and nothing
where there is only white space. -/
structure Keeps (later kept : List Text) : Prop where
  nothing : (∀ line ∈ later, ∀ c ∈ line, c.isBlank = true) → kept = []
  some : (∃ line ∈ later, ∃ c ∈ line, c.isBlank = false) → Trims Text.isBare later kept

theorem laterLines_unlines (free : ∀ line ∈ later, Text.newline ∉ line)
    (single : ∀ line ∈ later, Text.isSingle line = true) :
    ∃ kept margin, Keeps later kept ∧ (kept ≠ [] → Text.IsMargin kept margin) ∧
      laterLines (Text.unlines later) =
        kept.map fun line => Text.trimRight (line.drop margin.length) := by
  rcases Decidable.em (∀ line ∈ later, ∀ c ∈ line, c.isBlank = true) with void | black
  · have nothing : Text.trim (Text.unlines later) = [] :=
      Text.trim_eq_nil.mpr ((Text.forall_mem_unlines (by decide)).mpr void)
    refine ⟨[], [], ⟨fun _ => rfl, fun ⟨line, member, c, inLine, black⟩ => ?_⟩,
      fun some => absurd rfl some, by rw [laterLines, nothing]; rfl⟩
    simp [void line member c inLine] at black
  · have some : ∃ line ∈ later, Text.isBare line = false := by
      refine Decidable.byContradiction fun none => black fun line member c inLine => ?_
      refine Text.isBlank_of_isBare ?_ c inLine
      rw [← Bool.not_eq_false]
      exact fun notBare => none ⟨line, member, notBare⟩
    let margin := Text.margin (later.filter (!Text.isBare ·))
    let kept := trimEnds Text.isBare later
    have isMargin : Text.IsMargin later margin := Text.isMargin_margin some
    have trims : Trims Text.isBare later kept := trims_trimEnds Text.isBare later
    have nonempty : later ≠ [] := by
      rintro rfl
      simp at some
    have visible : Text.trim (Text.unlines later) ≠ [] := fun nothing =>
      black ((Text.forall_mem_unlines (by decide)).mp (Text.trim_eq_nil.mp nothing))
    have trimmed : Text.trimNewlines (Text.dedent (Text.unlines later)) =
        Text.unlines (kept.map (Text.dedented margin)) := by
      have free' : ∀ line ∈ later.map (Text.dedented margin), Text.newline ∉ line := by
        intro line member
        obtain ⟨whole, inLater, rfl⟩ := List.mem_map.mp member
        exact fun inLine => free whole inLater (Text.dedented_subset _ _ inLine)
      have ends : trimEnds (List.isEmpty ∘ Text.dedented margin) later = kept :=
        trimEnds_congr fun line member => Text.isEmpty_dedented isMargin member
      rw [Text.dedent_unlines free nonempty, ← ends, ← trimEnds_map]
      exact Text.trimEnds_unlines free'
    have lines : Text.lines (Text.unlines (kept.map (Text.dedented margin))) =
        (kept.map (Text.dedented margin)).map Text.withoutReturn := by
      refine Text.lines_unlines (fun line member => ?_) fun line last => ?_
      · obtain ⟨whole, inKept, rfl⟩ := List.mem_map.mp member
        exact Text.isSingle_dedented (single whole (trims.sublist.subset inKept)) margin
      · rw [List.getLast?_map] at last
        obtain ⟨whole, isLast, rfl⟩ := Option.map_eq_some_iff.mp last
        rw [Text.isEmpty_dedented isMargin (trims.sublist.subset (List.mem_of_getLast? isLast))]
        exact trims.last whole isLast
    refine ⟨kept, margin, ⟨fun void => absurd void black, fun _ => trims⟩,
      fun _ => isMargin.trims trims, ?_⟩
    rw [laterLines, if_neg (by simpa using visible), trimmed, lines, List.map_map, List.map_map]
    exact List.map_congr_left fun line _ =>
      (Text.trimRight_withoutReturn _).trans (Text.trimRight_dedented margin line)

/-- A line, if there is anything in it, and the lines behind it: nested, if it ends with a colon. -/
def opened (line : Text) (others : List Text) : List Text :=
  if line = [] then others
  else if line.getLast? = some (CodePoint.scalar ':') then
    line :: others.map fun other => if other = [] then other else Text.blanks 4 ++ other
  else line :: others

/-- User code, line for line: the first line of the code without the white space around it, and of the
lines behind it those that are kept, without their margin and the white space at their ends. -/
theorem userCode_lines {code : Text} (split : Text.splitAt Text.newline code = first :: later)
    (single : ∀ line ∈ later, Text.isSingle line = true) :
    ∃ kept margin, Keeps later kept ∧ (kept ≠ [] → Text.IsMargin kept margin) ∧
      userCode code = opened (Text.trim first)
        (kept.map fun line => Text.trimRight (line.drop margin.length)) := by
  have free : ∀ line ∈ later, Text.newline ∉ line := fun line member =>
    Text.not_mem_splitAt Text.newline code line (by simp [split, member])
  obtain ⟨kept, margin, keeps, isMargin, lines⟩ := laterLines_unlines free single
  refine ⟨kept, margin, keeps, isMargin, ?_⟩
  rw [userCode, Text.splitFirstLine_eq split]
  simp only [lines, indented, List.isEmpty_iff]
  rfl

def nestedText : Text := " if a:\n    b\r\n\n      c \n  "

theorem nested_lines :
    let later : List Text :=
      [Text.ofString "    b\r", [], Text.ofString "      c ", Text.ofString "  "]
    Text.splitAt Text.newline nestedText = Text.ofString " if a:" :: later ∧
    (∀ line ∈ later, Text.isSingle line = true) ∧
    userCode nestedText =
      [Text.ofString "if a:", Text.ofString "    b", [], Text.ofString "      c"] ∧
    ∃ kept margin, Keeps later kept ∧ (kept ≠ [] → Text.IsMargin kept margin) ∧
      userCode nestedText = opened (Text.trim " if a:")
        (kept.map fun line => Text.trimRight (line.drop margin.length)) := by
  intro later
  have split : Text.splitAt Text.newline nestedText = Text.ofString " if a:" :: later := by decide
  have single : ∀ line ∈ later, Text.isSingle line = true := by decide
  exact ⟨split, single, by decide, userCode_lines split single⟩

/-- The same with one notion of what is blank, and with white space taken away at the end of the first
line only. -/
def LineForLine (code : Text) : Prop :=
  ∀ first later, Text.splitAt Text.newline code = first :: later →
    ∃ kept margin, Trims (List.all · CodePoint.isBlank) later kept ∧
      (kept ≠ [] → Text.IsMargin kept margin) ∧
      userCode code = opened (Text.trimRight first)
        (kept.map fun line => Text.trimRight (line.drop margin.length))

/-- Not all code is written like that: the first line loses its indentation as well, a form feed ends a
line behind the first one, and a line of no-break spaces stays at the end. -/
theorem not_lineForLine : ¬LineForLine " a" ∧ ¬LineForLine "\na\x0cb" ∧ ¬LineForLine "\na\n\xa0" := by
  refine ⟨fun claimed => ?_, fun claimed => ?_, fun claimed => ?_⟩
  · obtain ⟨kept, margin, trims, -, code⟩ := claimed " a" [] (by decide)
    obtain rfl : kept = [] := List.subset_nil.mp trims.sublist.subset
    rw [List.map_nil] at code
    exact absurd code (by decide)
  · obtain ⟨kept, margin, trims, -, code⟩ := claimed [] [Text.ofString "a\x0cb"] (by decide)
    have count : (userCode "\na\x0cb").length = kept.length := by
      rw [code]
      exact List.length_map ..
    have few := trims.sublist.length_le
    rw [← count] at few
    exact absurd few (by decide)
  · obtain ⟨kept, margin, trims, -, code⟩ :=
      claimed [] [Text.ofString "a", Text.ofString "\xa0"] (by decide)
    have count : (userCode "\na\n\xa0").length = kept.length := by
      rw [code]
      exact List.length_map ..
    obtain rfl := trims.sublist.eq_of_length (count.symm.trans (by decide))
    exact absurd (trims.last (Text.ofString "\xa0") rfl) (by decide)

end Emit

end PegCompiler
