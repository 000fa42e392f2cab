import PegCompiler.Compile.Output
import PegCompiler.Proofs.Compile.Generation

/-!
What the patterns of classes are read as. Every code point that stands for itself or behind a backslash
is read back, wherever it stands: alone, beside a dash or at an end of a range. One that is written by
its number can't be read, and then the whole pattern can't. So a compiled module can be loaded, as far as
its classes go, exactly if no class has a code point that is written by its number
(`Grammar.classes_load`).
-/

namespace PegCompiler

open ClassPattern

/-- A pattern shows the code point as it is, or behind a backslash. -/
def CodePoint.isPlain (c : CodePoint) : Bool := special.contains c || (c.isPrintable && !c.isBlank)

/-- The code points that the pattern of a part shows. -/
def ClassPart.ends : ClassPart → List CodePoint
  | .char c => [c]
  | .range lo hi => [lo, hi]
  | .loose _ => []

/-- No code point of the class is written by its number. -/
def CharClass.isPlain (members : CharClass) : Bool :=
  members.parts.all fun part => part.ends.all CodePoint.isPlain

/-- The matcher that the class asks for. -/
def CharClass.matcher (members : CharClass) : ClassMatcher :=
  ⟨members.inverted, members.ignoreCase, members.parts⟩

namespace ClassPattern

variable {c : CodePoint} {part : ClassPart} {parts : List ClassPart}

/-- What begins with an escaped code point can be told from a closing bracket, a dash and a caret. -/
theorem escaped_cons (c : CodePoint) : ∃ first others, escaped c = first :: others ∧
    first ≠ .scalar ']' ∧ first ≠ .scalar '-' ∧ first ≠ .scalar '^' := by
  unfold escaped
  split
  · exact ⟨.scalar '\\', [c], rfl, by decide, by decide, by decide⟩
  · rename_i ordinary
    split
    · exact ⟨.scalar '\\', _, rfl, by decide, by decide, by decide⟩
    · refine ⟨c, [], rfl, ?_, ?_, ?_⟩ <;> rintro rfl <;> exact ordinary (by decide)

/-- What is escaped stands for itself behind a backslash, and begins no number there. -/
theorem isMark_of_special : ∀ c ∈ special, isMark c = true ∧ c ≠ .scalar 'x' := by decide

/-- A brace is no digit, so a number in braces is not read. -/
theorem member?_numbered (c : CodePoint) (rest : Text) : member? (numbered c ++ rest) = none := by
  have digits (others : Text) : Scan.hexNumber? 2 (.scalar '\x7b' :: others) = none := by
    have few : ((others.take 1).filterMap Scan.hexDigit?).length ≤ 1 :=
      Nat.le_trans (List.length_filterMap_le _ _) (List.length_take_le 1 others)
    have skips : (List.take 2 (.scalar '\x7b' :: others)).filterMap Scan.hexDigit? =
        (others.take 1).filterMap Scan.hexDigit? := rfl
    unfold Scan.hexNumber?
    rw [skips]
    exact if_neg (by omega)
  change (Scan.hexNumber? 2 (.scalar '\x7b' :: _)).map _ = none
  rw [digits]
  rfl

/-- The first code point is read back if it is plain, and otherwise nothing is. -/
theorem member?_escaped (c : CodePoint) (rest : Text) :
    member? (escaped c ++ rest) = if c.isPlain then some (c, rest) else none := by
  unfold escaped CodePoint.isPlain
  by_cases isSpecial : special.contains c = true
  · obtain ⟨mark, noNumber⟩ := isMark_of_special c (by simpa using isSpecial)
    simp only [isSpecial, if_true, Bool.true_or]
    simp [member?, mark]
  · rw [Bool.not_eq_true] at isSpecial
    simp only [isSpecial, Bool.false_eq_true, if_false, Bool.false_or]
    by_cases shown : (c.isPrintable && !c.isBlank) = true
    · have clear : ¬(!c.isPrintable || c.isBlank) = true := by simpa using shown
      rw [if_neg clear, if_pos shown]
      have other : c ≠ .scalar ']' ∧ c ≠ .scalar '\\' := by
        constructor <;> rintro rfl <;> exact absurd isSpecial (by decide)
      simp [member?, other]
    · have hidden : (!c.isPrintable || c.isBlank) = true := by
        cases h : c.isPrintable <;> simp_all
      rw [if_pos hidden, if_neg shown]
      exact member?_numbered c rest

/-- The pattern of a part without the brackets. -/
def written : ClassPart → Text
  | .char c => escaped c
  | .range lo hi => escaped lo ++ (CodePoint.scalar '-' :: escaped hi)
  | .loose _ => []

theorem part_eq (ordered : part.IsOrdered) : ClassPattern.part part = .ok (written part) := by
  cases part with
  | char c => rfl
  | range lo hi =>
    simp only [ClassPattern.part, written, List.append_assoc]
    rfl
  | loose texts => exact absurd ordered id

theorem pattern_eq {members : CharClass} (ordered : ∀ part ∈ members.parts, part.IsOrdered) :
    pattern members = .ok (CodePoint.scalar '[' ::
      ((if members.inverted then [CodePoint.scalar '^'] else []) ++
        ((members.parts.map written).flatten ++ [CodePoint.scalar ']']))) := by
  have each : ∀ parts : List ClassPart, (∀ part ∈ parts, part.IsOrdered) →
      parts.mapM ClassPattern.part = .ok (parts.map written) := by
    intro parts ordered
    induction parts with
    | nil => rfl
    | cons part rest ih =>
      obtain ⟨here, others⟩ := List.forall_mem_cons.mp ordered
      rw [List.mapM_cons, part_eq here, ih others]
      rfl
  rw [pattern, each _ ordered]
  cases members.inverted <;> simp [bind, Except.bind, pure, Except.pure] <;> rfl

/-- Behind a part comes the next one, or the closing bracket. -/
theorem following_cons (parts : List ClassPart) (ordered : ∀ part ∈ parts, part.IsOrdered) :
    ∃ first others, (parts.map written).flatten ++ [CodePoint.scalar ']'] = first :: others ∧
      first ≠ .scalar '-' ∧ first ≠ .scalar '^' := by
  cases parts with
  | nil => exact ⟨_, [], rfl, by decide, by decide⟩
  | cons part rest =>
    rw [List.map_cons, List.flatten_cons]
    cases part with
    | char c =>
      obtain ⟨first, others, same, -, noDash, noCaret⟩ := escaped_cons c
      exact ⟨first, _, by rw [written, same]; rfl, noDash, noCaret⟩
    | range lo hi =>
      obtain ⟨first, others, same, -, noDash, noCaret⟩ := escaped_cons lo
      exact ⟨first, _, by rw [written, same]; rfl, noDash, noCaret⟩
    | loose texts => exact absurd (ordered _ List.mem_cons_self) id

theorem escaped_append_ne (c : CodePoint) (rest : Text) :
    escaped c ++ rest ≠ [CodePoint.scalar ']'] := by
  obtain ⟨first, others, same, noBracket, -⟩ := escaped_cons c
  rw [same]
  exact fun closing => noBracket (List.cons.inj closing).1

/-- The parts are read back if all code points of them are plain, and otherwise nothing is. -/
theorem parts?_written (ordered : ∀ part ∈ parts, part.IsOrdered) {fuel : Nat}
    (enough : parts.length < fuel) :
    parts? fuel ((parts.map written).flatten ++ [CodePoint.scalar ']']) =
      if parts.all fun part => part.ends.all CodePoint.isPlain then some parts else none := by
  induction parts generalizing fuel with
  | nil =>
    obtain ⟨fuel, rfl⟩ := Nat.exists_eq_add_of_lt enough
    simp [parts?]
  | cons part rest ih =>
    obtain ⟨fuel, rfl⟩ : ∃ n, fuel = n + 1 := ⟨fuel - 1, by omega⟩
    obtain ⟨here, others⟩ := List.forall_mem_cons.mp ordered
    obtain ⟨first, further, following, noDash, -⟩ := following_cons rest others
    have ih := @ih others fuel (by simpa using enough)
    rw [List.map_cons, List.flatten_cons, List.append_assoc]
    cases part with
    | char c =>
      rw [written, parts?, if_neg (escaped_append_ne c _), member?_escaped]
      by_cases plain : c.isPlain = true
      · rw [following] at ih ⊢
        simp only [plain, if_true]
        split
        · simp_all
        · simp_all
        · rename_i same
          obtain ⟨rfl, rfl⟩ := Prod.mk.inj (Option.some.inj same)
          rw [ih]
          simp [ClassPart.ends, plain]
      · simp [plain, ClassPart.ends]
    | range lo hi =>
      rw [written, parts?, List.append_assoc, if_neg (escaped_append_ne lo _), member?_escaped]
      by_cases low : lo.isPlain = true
      · simp only [low, if_true, List.cons_append, if_neg (escaped_append_ne hi _), member?_escaped]
        by_cases high : hi.isPlain = true
        · rw [if_pos high]
          simp only [if_pos (show lo.toNat ≤ hi.toNat from here), ih]
          simp [ClassPart.ends, low, high]
        · simp [ClassPart.ends, high]
      · simp [ClassPart.ends, low]
    | loose texts => exact absurd here id

theorem length_le_written (ordered : ∀ part ∈ parts, part.IsOrdered) :
    parts.length ≤ (parts.map written).flatten.length := by
  induction parts with
  | nil => simp
  | cons part rest ih =>
    obtain ⟨here, others⟩ := List.forall_mem_cons.mp ordered
    have shown : 1 ≤ (written part).length := by
      cases part with
      | char c =>
        obtain ⟨first, further, same, -⟩ := escaped_cons c
        simp [written, same]
      | range lo hi => simp [written]; omega
      | loose texts => exact absurd here id
    have := ih others
    simp only [List.map_cons, List.flatten_cons, List.length_append, List.length_cons]
    omega

/-- Without a caret the class is not inverted. -/
theorem read?_plain {first : CodePoint} {others : Text} (noCaret : first ≠ .scalar '^') :
    read? (.scalar '[' :: first :: others) =
      match parts? (first :: others).length (first :: others) with
      | some (part :: parts) => some (false, part :: parts)
      | _ => none := by
  unfold read?
  split
  rename_i inverted rest marked
  split at marked
  · rename_i same
    exact absurd (List.cons.inj (List.cons.inj same).2).1 noCaret
  · rename_i same
    cases same
    cases marked
    rfl
  · rename_i other
    exact absurd rfl (other _)

/-- The class of a pattern is read back if all code points of it are plain, and otherwise nothing is. -/
theorem read?_pattern {members : CharClass} (nonempty : members.parts ≠ [])
    (ordered : ∀ part ∈ members.parts, part.IsOrdered) : ∃ text, pattern members = .ok text ∧
      read? text = if members.isPlain then some (members.inverted, members.parts) else none := by
  refine ⟨_, pattern_eq ordered, ?_⟩
  have bound := length_le_written ordered
  have enough : members.parts.length <
      ((members.parts.map written).flatten ++ [CodePoint.scalar ']']).length := by
    rw [List.length_append, List.length_singleton]
    omega
  have parts := parts?_written ordered enough
  have marked : read? (CodePoint.scalar '[' ::
      ((if members.inverted then [CodePoint.scalar '^'] else []) ++
        ((members.parts.map written).flatten ++ [CodePoint.scalar ']']))) =
      match (if members.isPlain then some members.parts else none) with
      | some (part :: parts) => some (members.inverted, part :: parts)
      | _ => none := by
    rw [CharClass.isPlain, ← parts]
    cases members.inverted with
    | true => rfl
    | false =>
      -- no part begins with a caret of its own
      obtain ⟨first, others, same, -, noCaret⟩ := following_cons _ ordered
      rw [if_neg Bool.false_ne_true, List.nil_append, same]
      exact read?_plain noCaret
  rw [marked]
  cases members.isPlain with
  | false => rfl
  | true =>
    cases h : members.parts with
    | nil => exact absurd h nonempty
    | cons part rest => rfl

end ClassPattern

/-- What is found for each element of a list is found for all, or nothing is. -/
theorem mapM_eq_ite {α β : Type} {find : α → Option β} {good : α → Bool} {give : α → β} {as : List α}
    (each : ∀ a ∈ as, find a = if good a then some (give a) else none) :
    as.mapM find = if as.all good then some (as.map give) else none := by
  induction as with
  | nil => rfl
  | cons a rest ih =>
    obtain ⟨here, others⟩ := List.forall_mem_cons.mp each
    rw [List.mapM_cons, here, ih others, List.all_cons]
    cases good a <;> cases rest.all good <;> rfl

namespace Grammar

variable {g : Grammar} {settings : Settings}

/-- The tables that lowering makes have matchers if all code points of the classes are plain. -/
theorem matchers?_eq {tables : Tables} (has : g.tables = some tables) (textual : tables.Textual) :
    g.matchers? = if tables.classes.all CharClass.isPlain then
      some (tables.classes.map CharClass.matcher) else none := by
  rw [matchers?, has]
  refine mapM_eq_ite fun members member => ?_
  obtain ⟨nonempty, ordered⟩ := textual.classes members member
  obtain ⟨text, written, reads⟩ := read?_pattern nonempty ordered
  rw [written]
  dsimp only
  rw [ClassMatcher.ofPattern?, reads]
  cases members.isPlain <;> rfl

/-- The grammar with its code written. -/
def emitted (settings : Settings) (g : Grammar) : Grammar :=
  (Pass.emission.run settings (g.compiled settings)).grammar

theorem emitted_tables : (g.emitted settings).tables = (g.compiled settings).tables := by
  unfold emitted
  simp only [Pass.run]
  split <;> rfl

/-- Without matchers a module can't be loaded. -/
theorem result_unreadable (has : g.matchers? = none) (loaded : Result) :
    g.result settings .parser ≠ .ok loaded := by
  unfold result
  dsimp only
  split
  · nofun
  · split
    · nofun
    · rw [has]
      nofun

theorem result_readable (has : g.matchers? ≠ none) :
    g.result settings .parser ≠ .error .unreadableClass := by
  have found : ¬g.matchers?.isNone = true := by simpa using has
  unfold result
  dsimp only
  split
  · nofun
  · split
    · nofun
    · rw [if_neg found]
      split <;> nofun

/-- The pattern of a class with parts is read back as the class if no code point of it is written by its
number, and can't be read otherwise. So the module of a grammar that was checked can't be loaded if
there is such a code point in one of its classes, and its classes don't keep it from being loaded if
there is none. -/
theorem classes_load (members : CharClass) (settings : Settings) :
    (members.parts ≠ [] → (∀ part ∈ members.parts, part.IsOrdered) →
      ∃ text, ClassPattern.pattern members = .ok text ∧
        ClassPattern.read? text =
          if members.isPlain then some (members.inverted, members.parts) else none) ∧
    ∀ (g : Grammar) (text : Text) (source : Option Text),
      Grammar.read text source = .ok g → (Stage.check.run settings g).failure = none →
      ∃ tables, (g.emitted settings).tables = some tables ∧
        (tables.classes.all CharClass.isPlain = true →
          (g.emitted settings).matchers? = some (tables.classes.map CharClass.matcher) ∧
          (g.emitted settings).result settings .parser ≠ .error .unreadableClass) ∧
        (tables.classes.all CharClass.isPlain = false →
          (g.emitted settings).matchers? = none ∧
          ∀ loaded, (g.emitted settings).result settings .parser ≠ .ok loaded) := by
  refine ⟨fun nonempty ordered => read?_pattern nonempty ordered,
    fun g text source read checked => ?_⟩
  obtain ⟨rules, tables, lowered, textual, -⟩ := (preparation_of_read read checked).prepared.lower
  have has : (g.emitted settings).tables = some tables := by
    rw [emitted_tables, compiled]
    simp only [Pass.run, lowered]
  have matchers := matchers?_eq has textual
  refine ⟨tables, has, fun plain => ?_, fun hidden => ?_⟩
  · rw [if_pos plain] at matchers
    exact ⟨matchers, result_readable (by simp [matchers])⟩
  · rw [if_neg (by simp [hidden])] at matchers
    exact ⟨matchers, result_unreadable matchers⟩

/-- Letters, a caret, a dash and a closing bracket. -/
def bracketText : Text := .ofString "s = [^a-z^\\]-]"

def bracketClass : CharClass where
  parts := [.range (.scalar 'a') (.scalar 'z'), .char (.scalar '^'), .char (.scalar ']'),
    .char (.scalar '-')]
  inverted := true
  ignoreCase := false

theorem bracket_loads : (∃ text, ClassPattern.pattern bracketClass = .ok text ∧
      ClassPattern.read? text = some (true, bracketClass.parts)) ∧
    ∃ g, Grammar.read bracketText none = .ok g ∧
      (Stage.check.run plainSettings g).failure = none ∧
      (g.emitted plainSettings).matchers? = some [bracketClass.matcher] := by
  obtain ⟨patterns, modules⟩ := classes_load bracketClass plainSettings
  obtain ⟨g, read, checked, passes⟩ := exists_of_accepted
    (show (accepted? plainSettings bracketText).any (fun g =>
      decide ((g.emitted plainSettings).tables.map Tables.classes = some [bracketClass])) = true by
        decide +kernel)
  obtain ⟨tables, has, plain, -⟩ := modules g _ _ read checked
  have classes : tables.classes = [bracketClass] := by simpa [has] using passes
  refine ⟨?_, g, read, checked, ?_⟩
  · obtain ⟨text, written, reads⟩ := patterns (by simp [bracketClass])
      (by simp [bracketClass, ClassPart.IsOrdered]; decide)
    exact ⟨text, written, reads.trans (if_pos (by decide +kernel))⟩
  · rw [(plain (by rw [classes]; decide +kernel)).1, classes]
    rfl

/-- The code of the grammar is written, and can't be loaded as a parser. -/
def isUnloadable (g : Grammar) : Bool :=
  match (g.compile Stage.standard { output := .text "source" } none).outcome,
    (g.compile Stage.standard {} none).outcome with
  | .ok (_, _, [(none, .source (some _))]), .error .unreadableClass => true
  | _, _ => false

/-- A blank is written by its number. -/
theorem blank_unreadable :
    (∃ text, ClassPattern.pattern ⟨[.char (.scalar ' ')], false, false⟩ = .ok text ∧
      ClassPattern.read? text = none) ∧
    ∃ g settings h code, Grammar.read (.ofString "s = [ ]") none = .ok g ∧
      (Stage.check.run plainSettings g).failure = none ∧
      (g.compile Stage.standard { output := .text "source" } none).outcome =
        .ok (settings, h, [(none, .source (some code))]) ∧
      (g.compile Stage.standard {} none).outcome = .error .unreadableClass := by
  refine ⟨⟨_, rfl, by decide +kernel⟩, ?_⟩
  obtain ⟨g, read, checked, passes⟩ := exists_of_accepted
    (show (accepted? plainSettings (.ofString "s = [ ]")).any isUnloadable = true by decide +kernel)
  unfold isUnloadable at passes
  split at passes
  · rename_i compiled failed
    exact ⟨g, _, _, _, read, checked, compiled, failed⟩
  · cases passes

end Grammar

end PegCompiler
