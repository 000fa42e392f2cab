import PegCompiler.Proofs.Grammar.Reaching

/-!
What is ahead decides where a rule ends: a name with an equals sign behind it begins the next one, also
with a display name in between. Looking ahead scans text that may not be read in the end. Where that fails,
reading fails as well (`elements_broken`), so that no rule ends because of an error that nobody reports;
and where a rule is read, its head was ahead (`rule_begins`).
-/

namespace PegCompiler

namespace CodePoint

/-- The code points that have a meaning of their own in the text of a grammar. -/
def marks : Text := .ofString "\n'\"[]()\x7b\x7d=;,:@$&!?*+|./"

def isMark (x : CodePoint) : Bool := marks.contains x

theorem startsName_of_isMark {x : CodePoint} (mark : x.isMark = true) : x.startsName = false := by
  have all : ∀ x ∈ marks, x.startsName = false := by decide +kernel
  exact all x (List.contains_iff_mem.mp mark)

theorem ne_of_isMark {x y : CodePoint} (name : x.startsName = true) (mark : y.isMark = true) : x ≠ y :=
  ne_of_startsName name (startsName_of_isMark mark)

end CodePoint

namespace Scan

/-- Nothing is found. -/
abbrev Never {α : Type} : α → Cursor → Prop := fun _ _ => False

variable {c d e m : Cursor} {x : CodePoint} {found value : Text} {error : SyntaxError}
variable {nested : Nested} {inDelimiter : Bool} {fuel : Nat}

theorem peek?_of_startsWithName (starts : c.after.startsWithName = true) :
    ∃ x, c.peek? = some x ∧ x.startsName = true := by
  cases after : c.after with
  | nil => simp [after, Text.startsWithName] at starts
  | cons x rest => exact ⟨x, by simp [Cursor.peek?, after], by rwa [after] at starts⟩

theorem peek?_of_startsQuote (quote : startsQuote c.peek? = true) :
    ∃ x, c.peek? = some x ∧ (x = '\x27' ∨ x = '\x22') := by
  rcases (by simpa [startsQuote] using quote :
    c.peek? = some (.scalar '\x27') ∨ c.peek? = some (.scalar '\x22')) with single | double
  · exact ⟨_, single, .inl rfl⟩
  · exact ⟨_, double, .inr rfl⟩

/-! Names. -/

theorem nameAhead_of_settled (settled : IsSettled c) :
    nameAhead c = .ok (c.after.startsWithName, c) :=
  run_bind (skip_of_settled settled)

theorem name_eq (settled : IsSettled c) : name c =
    match c.after.splitName? with
    | some (found, _) => .ok (found, c.advance found.length)
    | none => .error ⟨.identifier, c⟩ := by
  refine (run_bind (skip_of_settled settled)).trans ?_
  change (match c.after.splitName? with
    | some (found, _) => _
    | none => _ : Scan Text) c = _
  cases c.after.splitName? <;> rfl

theorem startsWithName_of_name (settled : IsSettled c) (named : name c = .ok (found, d)) :
    c.after.startsWithName = true := by
  rw [name_eq settled] at named
  rw [← Text.splitName?_isSome]
  cases split : c.after.splitName? with
  | none =>
    rw [split] at named
    cases named
  | some found => rfl

theorem name_of_startsWithName (settled : IsSettled c) (starts : c.after.startsWithName = true) :
    ∃ found d, name c = .ok (found, d) := by
  rw [← Text.splitName?_isSome, Option.isSome_iff_exists] at starts
  obtain ⟨⟨found, rest⟩, split⟩ := starts
  exact ⟨found, c.advance found.length, by rw [name_eq settled, split]⟩

/-! The head of a rule. -/

/-- Only a name begins a rule. -/
theorem ruleHead_of_settled (settled : IsSettled c) (noName : c.after.startsWithName = false) :
    ruleHead c = .ok (false, c) := by
  refine (run_bind (nameAhead_of_settled settled)).trans ?_
  rw [noName]
  rfl

/-- What makes a name the head of a rule stands behind it. -/
theorem ruleHead_named (settled : IsSettled c) (named : name c = .ok (found, d))
    (skipped : skip d = .ok ((), e)) : ruleHead c = (do
      if startsQuote e.peek? then
        discard string
        skip
      return (← get).startsWith "=" : Scan Bool) e := by
  refine (run_bind (nameAhead_of_settled settled)).trans ?_
  rw [startsWithName_of_name settled named]
  exact (run_bind (discard_run named)).trans (run_bind skipped)

theorem ruleHead_plain (settled : IsSettled c) (named : name c = .ok (found, d))
    (skipped : skip d = .ok ((), e)) (plain : startsQuote e.peek? = false) :
    ruleHead c = .ok (e.startsWith "=", e) := by
  rw [ruleHead_named settled named skipped, plain]
  rfl

theorem ruleHead_displayed (settled : IsSettled c) (named : name c = .ok (found, d))
    (skipped : skip d = .ok ((), e)) (quote : startsQuote e.peek? = true)
    (strung : string e = .ok (value, m)) {a : Cursor} (again : skip m = .ok ((), a)) :
    ruleHead c = .ok (a.startsWith "=", a) := by
  rw [ruleHead_named settled named skipped, quote]
  exact (run_bind (discard_run strung)).trans (run_bind again)

/-! A label. -/

theorem lookAhead_run {α : Type} {scan : Scan α} {a : α} (run : scan c = .ok (a, d)) :
    lookAhead scan c = .ok (a, c) := by
  simp only [lookAhead, run]

theorem lookAhead_error {α : Type} {scan : Scan α} {error : SyntaxError}
    (run : scan c = .error error) : lookAhead scan c = .error error := by
  simp only [lookAhead, run]

theorem labelAhead_unnamed (settled : IsSettled c) (starts : c.after.startsWithName = false) :
    labelAhead c = .ok (false, c) := by
  refine lookAhead_run (d := c) ((run_bind (nameAhead_of_settled settled)).trans ?_)
  rw [starts]
  rfl

theorem labelAhead_named (settled : IsSettled c) (named : name c = .ok (found, d))
    (skipped : skip d = .ok ((), e)) : labelAhead c = .ok (e.startsWith ":", c) := by
  refine lookAhead_run (d := e) ((run_bind (nameAhead_of_settled settled)).trans ?_)
  rw [startsWithName_of_name settled named]
  exact (run_bind (discard_run named)).trans (run_bind skipped)

theorem labelAhead_broken (settled : IsSettled c) (named : name c = .ok (found, d))
    (skipped : skip d = .error error) : labelAhead c = .error error := by
  refine lookAhead_error ((run_bind (nameAhead_of_settled settled)).trans ?_)
  rw [startsWithName_of_name settled named]
  exact (run_bind (discard_run named)).trans (run_bind_error skipped)

/-! Elements where the head of a rule cannot be scanned. -/

/-- An element with neither a label nor an operator in front of it. -/
theorem labeled_plain {P : Expr → Cursor → Prop} (settled : IsSettled c) (here : c.peek? = some x)
    (plain : x ≠ '@' ∧ x ≠ '&' ∧ x ≠ '!' ∧ x ≠ '$') (noLabel : labelAhead c = .ok (false, c))
    (h : Reaches (suffixed nested inDelimiter) c P) : Reaches (labeled nested inDelimiter) c P := by
  obtain ⟨noAt, noAnd, noNot, noText⟩ := plain
  have auto : (c.peek? == some (CodePoint.scalar '@')) = false := by simp [here, noAt]
  refine .settled settled (.get ?_)
  rw [auto]
  refine .ite nofun fun _ => .bind (labelAhead_reaches.of_run noLabel) ?_
  rintro _ _ - ⟨rfl, rfl⟩
  refine .ite nofun fun _ => .bind (P := P) (.settled settled (.get ?_))
    fun body d _ holds => .ite nofun fun _ => .pure holds
  rw [here]
  split
  · exact absurd (Option.some.inj ‹_›) noAnd
  · exact absurd (Option.some.inj ‹_›) noNot
  · exact absurd (Option.some.inj ‹_›) noText
  · exact h

/-- With a string behind a name, the element that is read there is the name alone. -/
theorem labeled_name (settled : IsSettled c) (named : name c = .ok (found, d))
    (skipped : skip d = .ok ((), e)) (quote : startsQuote e.peek? = true) :
    Reaches (labeled nested inDelimiter) c fun _ m => m = e := by
  have starts := startsWithName_of_name settled named
  obtain ⟨x, here, begins⟩ := peek?_of_startsWithName starts
  obtain ⟨y, there, isQuote⟩ := peek?_of_startsQuote quote
  have noLabel : labelAhead c = .ok (false, c) := by
    have noColon : e.startsWith ":" = false := by
      refine Cursor.startsWith_of_ne there (x := ':') rfl ?_
      rcases isQuote with rfl | rfl <;> decide
    rw [labelAhead_named settled named skipped, noColon]
  have other {y : CodePoint} (mark : y.isMark = true) : x ≠ y := CodePoint.ne_of_isMark begins mark
  refine labeled_plain settled here ⟨other (by decide), other (by decide),
    other (by decide), other (by decide)⟩ noLabel (.settled settled (.get ?_))
  refine .bind (P := fun _ m => m = d) (.settled settled (.get ?_)) ?_
  · rw [here]
    split
    · exact absurd (Option.some.inj ‹_›) (other (by decide))
    · exact absurd (Option.some.inj ‹_›) (other (by decide))
    · exact absurd (Option.some.inj ‹_›) (other (by decide))
    · exact absurd (Option.some.inj ‹_›) (other (by decide))
    · exact absurd (Option.some.inj ‹_›) (other (by decide))
    · refine .bind (nameAhead_runs.of_run (nameAhead_of_settled settled)) ?_
      rintro _ _ - ⟨rfl, rfl⟩
      refine .ite (fun _ => .bind (name_reaches.of_run named) ?_) fun no => absurd starts no
      rintro _ _ - ⟨rfl, rfl⟩
      exact .locationFrom (.pure rfl)
  · rintro _ _ - rfl
    refine .bind (ahead_reaches.of_run (run_bind skipped)) ?_
    rintro _ _ - ⟨rfl, rfl⟩
    rw [there]
    rcases isQuote with rfl | rfl <;> exact .pure rfl

/-- A literal ends behind its string if what comes next there cannot be skipped. -/
theorem literal_broken (broken : ∀ value m n, string c = .ok (value, m) → skip m ≠ .ok ((), n)) :
    Reaches literal c fun _ m => ∃ value, string c = .ok (value, m) := by
  refine .get (.bind string_runs.ran fun value m _ strung => ?_)
  refine .bind (P := fun _ n => n = m) (.get (.ite (fun flag => ?_) fun _ => .pure rfl)) ?_
  · -- The flag could be skipped over: there is nothing to skip in front of it.
    have letter : m.peek? = some (.scalar 'i') := by
      simp only [Bool.and_eq_true, beq_iff_eq] at flag
      exact flag.1
    exact absurd (skip_of_settled (isSettled_of_ne letter (by decide) (by decide) (by decide)))
      (broken value m m strung)
  · rintro _ _ - rfl
    exact .locationFrom (.pure ⟨value, strung⟩)

theorem sequenceEnds_quote (settled : IsSettled c) (here : c.peek? = some x)
    (isQuote : x = '\x27' ∨ x = '\x22') (unnamed : c.after.startsWithName = false) :
    sequenceEnds c = .ok (false, c) := by
  have noEnd : (Text.ofString ")/;\x7b|,").contains x = false := by
    rcases isQuote with rfl | rfl <;> decide
  refine (run_bind (run_bind (skip_of_settled settled))).trans ?_
  rw [here]
  change (if (Text.ofString ")/;\x7b|,").contains x = true then _ else ruleHeadAhead : Scan Bool) c = _
  rw [if_neg (Bool.eq_false_iff.mp noEnd)]
  simp only [ruleHeadAhead, ruleHead_of_settled settled unnamed]

/-- A string that cannot be scanned, or with blanks behind it that cannot, cannot be read as elements. -/
theorem elements_quote (settled : IsSettled c) (quote : startsQuote c.peek? = true)
    (broken : ∀ value m n, string c = .ok (value, m) → skip m ≠ .ok ((), n)) :
    Reaches (elements nested inDelimiter fuel) c Never := by
  obtain ⟨x, here, isQuote⟩ := peek?_of_startsQuote quote
  obtain ⟨rest, after⟩ := Cursor.peek?_eq_some.mp here
  have unnamed : c.after.startsWithName = false := by
    rw [after]
    refine CodePoint.startsName_of_isMark (x := x) ?_
    rcases isQuote with rfl | rfl <;> decide
  cases fuel with
  | zero => exact .get (.fail (.refl c))
  | succ fuel =>
    have ends := sequenceEnds_quote settled here isQuote unnamed
    refine .bind (sequenceEnds_runs.of_run ends) fun _ _ _ ⟨goesOn, same⟩ => ?_
    rw [goesOn, same]
    refine .ite nofun fun _ => .bind (P := Never) ?_ nofun
    have marks : x ≠ '@' ∧ x ≠ '&' ∧ x ≠ '!' ∧ x ≠ '$' := by
      rcases isQuote with rfl | rfl <;> decide
    refine labeled_plain settled here marks (labelAhead_unnamed settled unnamed)
      (.settled settled (.get ?_))
    refine .bind (P := fun _ m => ∃ value, string c = .ok (value, m)) (.settled settled (.get ?_)) ?_
    · rw [here]
      rcases isQuote with rfl | rfl <;> exact literal_broken broken
    · rintro _ m - ⟨value, strung⟩
      refine .bind (P := Never) (.bind (P := Never) ?_ nofun) nofun
      cases run : skip m with
      | error error => exact (skip_reaches m).of_error run
      | ok result => exact absurd run (broken value m result.2 strung)

/-- Text that cannot even be scanned for the head of a rule cannot be read as elements: a broken comment
behind the name is met in the search for a label, and a broken string is the next element. -/
theorem elements_broken (settled : IsSettled c) (broken : ruleHead c = .error error) :
    Reaches (do
      let first ← labeled nested inDelimiter
      return first :: (← elements nested inDelimiter fuel)) c Never := by
  cases starts : c.after.startsWithName with
  | false =>
    rw [ruleHead_of_settled settled starts] at broken
    cases broken
  | true =>
    obtain ⟨found, d, named⟩ := name_of_startsWithName settled starts
    cases skipped : skip d with
    | error fault =>
      obtain ⟨x, here, begins⟩ := peek?_of_startsWithName starts
      have auto : (c.peek? == some (CodePoint.scalar '@')) = false := by
        simpa [here] using CodePoint.ne_of_isMark begins (by decide)
      have noLabel := labelAhead_broken settled named skipped
      refine .bind (P := Never) (.settled settled (.get ?_)) nofun
      rw [auto]
      exact .ite nofun fun _ => .bind (P := Never) (labelAhead_reaches.of_error noLabel) nofun
    | ok result =>
      obtain ⟨_, e⟩ := result
      cases quote : startsQuote e.peek? with
      | false =>
        rw [ruleHead_plain settled named skipped quote] at broken
        cases broken
      | true =>
        refine .bind (labeled_name settled named skipped quote) ?_
        rintro _ e - rfl
        refine .bind (elements_quote (skip_ok skipped).2 quote fun value m n strung again => ?_) nofun
        rw [ruleHead_displayed settled named skipped quote strung again] at broken
        cases broken

/-- Where a rule is read, the head of one is found. -/
theorem rule_begins (settled : IsSettled c) (inner : ∀ inDelimiter c, Runs (nested inDelimiter) c) :
    Reaches (rule nested) c fun _ _ => ∃ e, ruleHead c = .ok (true, e) := by
  refine .settled settled (.get (.bind name_reaches.ran fun found d _ named => .locationFrom ?_))
  refine .bind (skip_reaches d).ran fun _ e _ skipped => .get ?_
  have defined {m displayFirst : Cursor} (display : Option Text)
      (head : ∀ a, skip m = .ok ((), a) → a.startsWith "=" = true → ∃ e, ruleHead c = .ok (true, e)) :
      Reaches (definition nested c displayFirst found (c.locationBetween d) display) m
        fun _ _ => ∃ e, ruleHead c = .ok (true, e) := by
    refine .bind eat_reaches ?_
    rintro _ m - ⟨a, skipped, equals⟩
    have finish {body : Expr} {n : Cursor} : Reaches (ruleEnd c found (c.locationBetween d) body) n
        fun _ _ => ∃ e, ruleHead c = .ok (true, e) :=
      .locationFrom (.discard tryEat_runs fun _ _ _ _ => .pure (head a skipped equals))
    refine .bind (inner false m) fun _ _ _ _ => ?_
    cases display with
    | none => exact .bind (P := fun _ _ => True) (.pure trivial) fun _ _ _ _ => finish
    | some display =>
      exact .locationFrom (.bind (P := fun _ _ => True) (.pure trivial) fun _ _ _ _ => finish)
  refine .ite (fun quote => ?_) fun noQuote => ?_
  · refine .bind (P := fun _ m => ∃ value, string e = .ok (value, m)) ?_ ?_
    · rw [← bind_pure_comp]
      exact .bind string_runs.ran fun value m _ strung => .pure ⟨value, strung⟩
    · rintro display m - ⟨_, strung⟩
      refine defined display fun a again equals => ⟨a, ?_⟩
      rw [ruleHead_displayed settled named skipped quote strung again, equals]
  · refine .bind (P := fun _ m => m = e) (.pure rfl) ?_
    rintro display e - rfl
    refine defined display fun a again equals => ⟨e, ?_⟩
    rw [skip_of_settled (skip_ok skipped).2] at again
    cases again
    rw [ruleHead_plain settled named skipped (Bool.eq_false_iff.mpr noQuote), equals]

end Scan

end PegCompiler
