import PegCompiler.Run.State

/-!
What the matching primitives do to a state that is somewhere in its input: they only move the
position, never beyond the end, and what is not empty moves it forward.
-/

namespace PegCompiler

namespace Text

theorem lowercase_eq_nil_iff {t : Text} : t.lowercase = [] ↔ t = [] := by
  cases t with
  | nil => simp [lowercase, lowercaseFrom]
  | cons c rest =>
    simp only [lowercase, lowercaseFrom, List.append_eq_nil_iff, reduceCtorEq, iff_false, not_and]
    intro none
    split at none
    · cases none
    · split at none <;> cases none

end Text

namespace ParserState

/-- A state within its input. -/
structure Inside (s : ParserState) : Prop where
  lower : 0 ≤ s.offset
  upper : s.offset ≤ s.input.length

/-- What a primitive gives: either nothing and the same state, or a text, at least one code point of
it if `consuming`, and the state behind it. -/
def Advances (s : ParserState) (consuming : Prop) (result : Option Text × ParserState) : Prop :=
  match result with
  | (none, after) => after = s
  | (some _, after) => ∃ n : Nat, after = s.advance n ∧ s.offset + n ≤ s.input.length ∧
      (consuming → 0 < n)

variable {s : ParserState}

theorem Inside.rest (inside : s.Inside) :
    s.rest = s.input.drop s.offset.toNat ∧ s.rest.length = s.input.length - s.offset.toNat := by
  have lower := inside.lower
  have upper := inside.upper
  have place : Index.bound s.input.length s.offset = s.offset.toNat := by
    unfold Index.bound
    rw [if_neg (by omega)]
    omega
  simp [ParserState.rest, Index.behind, place]

/-- Inside the input there is always an answer. -/
theorem Inside.matchOne (inside : s.Inside) (accepts : CodePoint → Bool) :
    ∃ result, s.matchOne accepts = .ok result ∧ s.Advances True result := by
  have lower := inside.lower
  unfold ParserState.matchOne peek
  by_cases behind : (s.input.length : Int) ≤ s.offset
  · rw [if_pos behind]
    exact ⟨_, rfl, rfl⟩
  · have bound : s.offset.toNat < s.input.length := by omega
    have here : Index.at? s.input s.offset = some s.input[s.offset.toNat] := by
      have place := Index.place?_natCast bound
      rw [Int.toNat_of_nonneg lower] at place
      simp [Index.at?, place, bound]
    rw [if_neg behind, here]
    refine ⟨_, rfl, ?_⟩
    by_cases accepted : accepts s.input[s.offset.toNat] = true
    · simp only [accepted, if_true]
      exact ⟨1, rfl, by omega, fun _ => Nat.one_pos⟩
    · simp only [accepted]
      rfl

theorem Inside.matchAny (inside : s.Inside) :
    ∃ result, s.matchAny = .ok result ∧ s.Advances True result :=
  inside.matchOne _

theorem Inside.matchClass (inside : s.Inside) (matcher : ClassMatcher) :
    ∃ result, s.matchClass matcher = .ok result ∧ s.Advances True result := by
  unfold ParserState.matchClass
  split
  · exact ⟨_, rfl, rfl⟩
  · split
    · exact inside.matchAny
    · exact ⟨_, rfl, rfl⟩

theorem Inside.matchLiteral (inside : s.Inside) (literal : Text) :
    s.Advances (literal ≠ []) (s.matchLiteral literal) := by
  have lower := inside.lower
  have upper := inside.upper
  unfold ParserState.matchLiteral
  split
  · rename_i matched
    simp only [Bool.and_eq_true, List.isPrefixOf_iff_prefix] at matched
    have length := matched.2.length_le
    rw [inside.rest.2] at length
    refine ⟨literal.length, rfl, by omega, fun nonempty => List.length_pos_iff.mpr nonempty⟩
  · rfl

theorem Inside.matchLowercase (inside : s.Inside) (lowered : Text) :
    s.Advances (lowered ≠ []) (s.matchLowercase lowered) := by
  have lower := inside.lower
  have upper := inside.upper
  unfold ParserState.matchLowercase
  simp only
  split
  · rename_i same
    have length : (Index.slice s.input s.offset (s.offset + lowered.length)).length ≤
        s.input.length - s.offset.toNat := by
      have place : Index.bound s.input.length s.offset = s.offset.toNat := by
        unfold Index.bound
        rw [if_neg (by omega)]
        omega
      unfold Index.slice Index.upTo
      rw [place, List.length_drop, List.length_take]
      omega
    refine ⟨_, rfl, by omega, fun nonempty => List.length_pos_iff.mpr fun empty => nonempty ?_⟩
    rw [← same, Text.lowercase_eq_nil_iff]
    exact empty
  · rfl

/-- The primitive goes by nothing but the input and the offset. -/
def Positional (primitive : ParserState → Except Raise (Option Text × ParserState)) : Prop :=
  ∀ s s' : ParserState, s.input = s'.input → s.offset = s'.offset →
    (primitive s).map (fun result => (result.1, result.2.offset)) =
      (primitive s').map fun result => (result.1, result.2.offset)

theorem positional_matchOne (accepts : CodePoint → Bool) : Positional (·.matchOne accepts) := by
  intro s s' input offset
  have peeks : s.peek = s'.peek := by simp [peek, input, offset]
  simp only [matchOne, peeks]
  rcases s'.peek with raised | _ | c
  · rfl
  · exact congrArg (fun offset => Except.ok (none, offset)) offset
  · cases accepted : accepts c with
    | false => simpa [bind, Except.bind, pure, Except.pure, Except.map, accepted] using offset
    | true => simpa [bind, Except.bind, pure, Except.pure, Except.map, accepted, advance] using offset

theorem positional_matchClass (matcher : ClassMatcher) : Positional (·.matchClass matcher) := by
  intro s s' input offset
  have rests : s.rest = s'.rest := by simp [ParserState.rest, input, offset]
  simp only [matchClass, rests]
  cases s'.rest with
  | nil => exact congrArg (fun offset => Except.ok (none, offset)) offset
  | cons c rest =>
    simp only
    split
    · exact positional_matchOne _ s s' input offset
    · exact congrArg (fun offset => Except.ok (none, offset)) offset

theorem positional_matchLiteral (literal : Text) :
    Positional fun s => .ok (s.matchLiteral literal) := by
  intro s s' input offset
  have rests : s.rest = s'.rest := by simp [ParserState.rest, input, offset]
  simp only [matchLiteral, rests, input, offset]
  split <;> simp [Except.map, advance, offset]

theorem positional_matchLowercase (lowered : Text) :
    Positional fun s => .ok (s.matchLowercase lowered) := by
  intro s s' input offset
  simp only [matchLowercase, input, offset]
  split <;> simp [Except.map, advance, offset]

end ParserState

/-- What leaves try to match. -/
inductive Primitive (matcher : CharClass → ClassMatcher) :
    (ParserState → Except Raise (Option Text × ParserState)) → Prop
  | literal (value : Text) : Primitive matcher fun s => .ok (s.matchLiteral value)
  | lowercase (value : Text) : Primitive matcher fun s => .ok (s.matchLowercase value)
  | charClass (members : CharClass) : Primitive matcher (·.matchClass (matcher members))
  | any : Primitive matcher (·.matchAny)

namespace Primitive

variable {matcher : CharClass → ClassMatcher}
  {primitive : ParserState → Except Raise (Option Text × ParserState)}

theorem advances (is : Primitive matcher primitive) : ∃ consuming, ∀ s : ParserState, s.Inside →
    ∃ result, primitive s = .ok result ∧ s.Advances consuming result := by
  cases is with
  | literal value => exact ⟨_, fun s inside => ⟨_, rfl, inside.matchLiteral value⟩⟩
  | lowercase value => exact ⟨_, fun s inside => ⟨_, rfl, inside.matchLowercase value⟩⟩
  | charClass members => exact ⟨_, fun s inside => inside.matchClass _⟩
  | any => exact ⟨_, fun s inside => inside.matchAny⟩

theorem positional (is : Primitive matcher primitive) : ParserState.Positional primitive := by
  cases is with
  | literal value => exact ParserState.positional_matchLiteral value
  | lowercase value => exact ParserState.positional_matchLowercase value
  | charClass members => exact ParserState.positional_matchClass _
  | any => exact ParserState.positional_matchOne _

/-- At the same offset of the same input it gives the same and leads to the same offset. -/
theorem alike (is : Primitive matcher primitive) {s s' : ParserState} (inside : s.Inside)
    (input : s.input = s'.input) (offset : s.offset = s'.offset) : ∃ matched after after',
      primitive s = .ok (matched, after) ∧ primitive s' = .ok (matched, after') ∧
        after.offset = after'.offset := by
  obtain ⟨consuming, advances⟩ := is.advances
  obtain ⟨⟨matched, after⟩, found, -⟩ := advances s inside
  have places := is.positional s s' input offset
  rw [found] at places
  cases found' : primitive s' with
  | error raised =>
    rw [found'] at places
    cases places
  | ok result =>
    rw [found'] at places
    obtain ⟨rfl, stop⟩ : matched = result.1 ∧ after.offset = result.2.offset := by
      simpa [Except.map] using places
    exact ⟨_, after, result.2, found, rfl, stop⟩

end Primitive

end PegCompiler
