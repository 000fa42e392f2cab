import PegCompiler.Proofs.Grammar.Pieces
import PegCompiler.Proofs.Grammar.Unplaced

/-!
The productions of a grammar, read with and without a text behind. Whatever a production gives for the first
text, it gives with the text behind as well, but for the locations. The fuel of the productions and the depth
of nesting only have to be at least as much, because the second text is longer.
-/

namespace PegCompiler

namespace Scan

variable {tail head : Text} {c d : Cursor} {x : CodePoint} {nested nested' : Nested}
variable {inDelimiter : Bool} {fuel fuel' : Nat}

/-- Expressions that differ in their locations only, and places that follow one another. -/
abbrev Alike (tail head : Text) : Expr → Expr → Cursor → Cursor → Prop :=
  fun a b c d => b.unplaced = a.unplaced ∧ Follows tail head c d

abbrev AlikeAll (tail head : Text) : List Expr → List Expr → Cursor → Cursor → Prop :=
  fun a b c d => b.map Expr.unplaced = a.map Expr.unplaced ∧ Follows tail head c d

theorem literal_tracks (apart : tail.BreaksLine) (beside : Beside tail c d) :
    Tracks Never literal literal c d (Alike tail head) := by
  refine .get (.bind (string_tracks beside) ?_)
  rintro value _ _ _ ⟨rfl, beside⟩
  refine .bind (ignoreCaseFlag_tracks apart beside) ?_
  rintro flag _ _ _ ⟨rfl, beside⟩
  exact .locationFrom (.pure ⟨rfl, .beside beside⟩)

theorem charClass_tracks (apart : tail.BreaksLine) (beside : Beside tail c d) (here : c.peek? = some x) :
    Tracks Never charClass charClass c d (Alike tail head) := by
  have next := beside.next here
  have longer : c.after.length ≤ d.after.length := by
    rw [beside.after, List.length_append]
    omega
  have inverts : (d.next.peek? == some (CodePoint.scalar '^')) =
      (c.next.peek? == some (CodePoint.scalar '^')) := by
    rw [Bool.eq_iff_iff, beq_iff_eq, beq_iff_eq]
    exact next.peek?_eq_iff apart (by decide)
  have rest {a b : Cursor} (beside : Beside tail a b) (inverted : Bool) : Tracks Never (do
      let parts ← classParts (c.after.length + 1)
      let ignoreCase ← ignoreCaseFlag
      return .charClass { location := ← locationFrom c } ⟨parts, inverted, ignoreCase⟩ : Scan Expr) (do
      let parts ← classParts (d.after.length + 1)
      let ignoreCase ← ignoreCaseFlag
      return .charClass { location := ← locationFrom d } ⟨parts, inverted, ignoreCase⟩ : Scan Expr)
      a b (Alike tail head) := by
    refine .bind (classParts_tracks apart beside (by omega)) ?_
    rintro parts _ _ _ ⟨rfl, beside⟩
    refine .bind (ignoreCaseFlag_tracks apart beside) ?_
    rintro flag _ _ _ ⟨rfl, beside⟩
    exact .locationFrom (.pure ⟨rfl, .beside beside⟩)
  refine .get (.modify (.get ?_))
  rw [inverts]
  refine .ite .rfl (fun inverted => .modify (rest ?_ _)) fun _ => rest next _
  exact next.next (eq_of_beq inverted)

theorem prefixed_spent (spent : Spent c) : Reaches (prefixed nested inDelimiter) c Never := by
  obtain ⟨⟨source, before, after⟩, skipped, ended⟩ := spent
  obtain rfl : after = [] := ended
  have run : prefixed nested inDelimiter c = _ := run_bind skipped
  unfold Reaches
  rw [run]
  exact (skip_ok skipped).1.sameText

section Seam

variable (seam : Seam tail head)

include seam

theorem sequenceEnds_tracks (follows : Follows tail head c d) :
    Tracks (fun a c' => a = false ∧ IsSettled c' ∧ ∃ error, ruleHead c' = .error error)
      sequenceEnds sequenceEnds c d fun a b c' d' => b = a ∧ Meets tail head c' d' := by
  refine .bind (ahead_tracks seam follows) ?_
  rintro _ _ m n ⟨rfl, rfl, meets⟩
  rcases meets.sees seam with same | ⟨none, x, here, name⟩
  · rw [same]
    cases here : m.peek? with
    | none => exact .pure ⟨rfl, meets⟩
    | some x =>
      have inside : m.after ≠ [] := fun ended => by simp [Cursor.peek?, ended] at here
      refine .ite .rfl (fun _ => .pure ⟨rfl, meets⟩) fun _ => ?_
      intro a c' run
      refine (ruleHeadAhead_tracks seam meets inside a c' run).imp ?_ ?_
      · rintro ⟨rfl, rfl, failure⟩
        exact ⟨rfl, meets.left, failure⟩
      · rintro ⟨b, d', right, rfl, rfl, rfl⟩
        exact ⟨_, _, right, rfl, meets⟩
  · have ended : n.after = head := by
      rcases meets.place with ⟨inside, -⟩ | ⟨-, ended⟩
      · exact absurd (Cursor.peek?_eq_none.mp none) inside
      · exact ended
    have nonempty : head ≠ [] := fun empty => by simp [Cursor.peek?, ended, empty] at here
    obtain ⟨e, opens⟩ := seam.opens n ended nonempty
    have head' : ruleHeadAhead n = .ok (true, n) := by simp [ruleHeadAhead, opens]
    rw [none, here]
    intro a c' run
    cases run
    refine .inr ⟨true, n, ?_, rfl, meets⟩
    change (if _ then _ else _ : Scan Bool) n = _
    split
    · rfl
    · exact head'

/-- Rules that differ in their locations only. -/
abbrev AlikeRule (tail head : Text) : Rule → Rule → Cursor → Cursor → Prop :=
  fun a b c d => b.unplaced = a.unplaced ∧ Follows tail head c d

theorem ruleEnd_tracks {first first' : Cursor} {nameLocation nameLocation' : Location} {body body' : Expr}
    (found : Text) (like : body'.unplaced = body.unplaced) (follows : Follows tail head c d) :
    Tracks Never (ruleEnd first found nameLocation body) (ruleEnd first' found nameLocation' body') c d
      (AlikeRule tail head) := by
  refine .locationFrom (.discard (tryEat_tracks seam follows (by decide)) ?_)
  rintro _ _ ⟨_, _, -, follows⟩
  exact .pure ⟨by simp only [Rule.unplaced, like], follows⟩

section Nested

variable (inner : ∀ inDelimiter c d, Follows tail head c d →
  Tracks Never (nested inDelimiter) (nested' inDelimiter) c d (Alike tail head))

include inner

theorem primary_tracks (follows : Follows tail head c d) :
    Tracks Never (primary nested) (primary nested') c d (Alike tail head) := by
  refine .bind (skip_tracks seam follows) fun _ _ a b meets => .get ?_
  by_cases ended : a.after = []
  · obtain ⟨source, before, after⟩ := a
    subst ended
    exact .fails (.refl _)
  have beside := meets.beside ended
  rw [meets.peek? ended]
  split
  · exact literal_tracks seam.apart beside
  · exact literal_tracks seam.apart beside
  · rename_i here
    exact charClass_tracks seam.apart beside here
  · rename_i here
    exact .set (.locationFrom (.pure ⟨rfl, .beside (beside.next here)⟩))
  · rename_i here
    refine .set (.bind (inner false _ _ (.beside (beside.next here))) ?_)
    rintro body body' _ _ ⟨like, follows⟩
    refine .bind (eat_tracks seam follows (by decide)) fun _ _ _ _ beside => ?_
    split
    · obtain ⟨_, _, rfl⟩ := Expr.sequence_of_unplaced like
      exact .locationFrom (.pure ⟨Expr.unplaced_unary rfl like, .beside beside⟩)
    · obtain ⟨_, _, _, _, _, rfl⟩ := Expr.labeled_of_unplaced like
      exact .locationFrom (.pure ⟨Expr.unplaced_unary rfl like, .beside beside⟩)
    · rename_i notRow notLabeled
      split
      · obtain ⟨_, _, rfl⟩ := Expr.sequence_of_unplaced like.symm
        exact absurd rfl (notRow _ _)
      · obtain ⟨_, _, _, _, _, rfl⟩ := Expr.labeled_of_unplaced like.symm
        exact absurd rfl (notLabeled _ _ _ _ _)
      · exact .pure ⟨like, .beside beside⟩
  · refine .bind (nameAhead_level seam meets ended) ?_
    rintro named _ _ _ ⟨rfl, rfl, meets'⟩
    refine .ite .rfl (fun _ => ?_) fun _ => .fail
    refine .bind (name_tracks seam meets'.follows) ?_
    rintro name _ _ _ ⟨rfl, beside⟩
    exact .locationFrom (.pure ⟨rfl, .beside beside⟩)

theorem range_tracks {first first' : Cursor} {body body' : Expr} (like : body'.unplaced = body.unplaced)
    (beside : Beside tail c d) (here : c.peek? = some x) :
    Tracks Never (range nested first body) (range nested' first' body') c d (Alike tail head) := by
  refine .modify (.bindUnless ((bounds_tracks seam (.beside (beside.next here))).along bounds_reaches)
    (fun found m ⟨ended, low, high⟩ => ?_) ?_)
  · refine .bind (checkBounds_reaches low high) ?_
    rintro _ _ - rfl
    refine .bind (tryEat_end (show (Text.ofString ",").isMark = true by decide) ended) ?_
    rintro _ m - ⟨rfl, rfl⟩
    refine .bind (P := fun _ d => d = m) (.pure rfl) ?_
    rintro _ _ - rfl
    exact .bind (eat_end (by decide) ended) nofun
  · rintro found found' m n ⟨⟨low, high, follows⟩, -⟩
    refine .bind (checkBounds_tracks low high) ?_
    rintro _ _ _ _ ⟨rfl, rfl⟩
    refine .bind (tryEat_tracks seam follows (by decide)) ?_
    rintro more _ m n ⟨rfl, follows⟩
    have close (delimiter delimiter' : Option Expr) {m n : Cursor}
        (likes : delimiter'.map Expr.unplaced = delimiter.map Expr.unplaced)
        (follows : Follows tail head m n) : Tracks Never (do
          eat "|"
          return .range { location := ← locationFrom first } found.1.1 found.2.1 body delimiter) (do
          eat "|"
          return .range { location := ← locationFrom first' } found'.1.1 found'.2.1 body' delimiter')
          m n (Alike tail head) := by
      refine .bind (eat_tracks seam follows (by decide)) fun _ _ _ _ beside => ?_
      rw [low, high]
      exact .locationFrom (.pure ⟨Expr.unplaced_range rfl like likes, .beside beside⟩)
    refine .ite .rfl (fun _ => ?_) fun _ => ?_
    · refine .bind (P := fun a b c' d' => b.map Expr.unplaced = a.map Expr.unplaced ∧
        Follows tail head c' d') ?_ fun a b c' d' ⟨likes, follows⟩ => close a b likes follows
      rw [← bind_pure_comp, ← bind_pure_comp]
      refine .bind (inner true _ _ follows) ?_
      rintro separator separator' _ _ ⟨like, follows⟩
      exact .pure ⟨congrArg some like, follows⟩
    · exact .bind (P := fun a b c' d' => b.map Expr.unplaced = a.map Expr.unplaced ∧
        Follows tail head c' d') (.pure ⟨rfl, follows⟩) fun a b c' d' ⟨likes, follows⟩ =>
        close a b likes follows

theorem suffixed_tracks (follows : Follows tail head c d) :
    Tracks Never (suffixed nested inDelimiter) (suffixed nested' inDelimiter) c d (Alike tail head) := by
  refine .bind (skip_tracks seam follows) fun _ _ a b meets => .get ?_
  refine .bind (primary_tracks seam inner meets.follows) ?_
  rintro body body' _ _ ⟨like, follows⟩
  refine .bind (ahead_tracks seam follows) ?_
  rintro _ _ m n ⟨rfl, rfl, meets⟩
  have apply (operator : Operator) {x : CodePoint} (here : m.peek? = some x) : Tracks Never (do
      modify Cursor.next
      return .unary { location := ← locationFrom a } operator body : Scan Expr) (do
      modify Cursor.next
      return .unary { location := ← locationFrom b } operator body' : Scan Expr) m n
      (Alike tail head) := by
    have inside : m.after ≠ [] := fun ended => by simp [Cursor.peek?, ended] at here
    have next := (meets.beside inside).next here
    exact .modify (.locationFrom (.pure ⟨Expr.unplaced_unary rfl like, .beside next⟩))
  rcases meets.sees seam with same | ⟨none, x, here, name⟩
  · rw [same]
    split
    · exact apply .optional ‹_›
    · exact apply .zeroOrMore ‹_›
    · exact apply .oneOrMore ‹_›
    · rename_i here
      have inside : m.after ≠ [] := fun ended => by simp [Cursor.peek?, ended] at here
      refine .ite .rfl (fun _ => .pure ⟨like, meets.follows⟩) fun _ => ?_
      exact range_tracks seam inner like (meets.beside inside) here
    · exact .pure ⟨like, meets.follows⟩
  · rw [none, here]
    dsimp only
    split
    · exact absurd (Option.some.inj ‹_›) (CodePoint.ne_of_isMark name (by decide))
    · exact absurd (Option.some.inj ‹_›) (CodePoint.ne_of_isMark name (by decide))
    · exact absurd (Option.some.inj ‹_›) (CodePoint.ne_of_isMark name (by decide))
    · exact absurd (Option.some.inj ‹_›) (CodePoint.ne_of_isMark name (by decide))
    · exact .pure ⟨like, meets.follows⟩

/-- An operator in front of its operand. -/
theorem operator_tracks (follows : Follows tail head c d) {first first' : Cursor}
    {operator : Operator} : Tracks Never (do
      let body ← suffixed nested inDelimiter
      return .unary { location := ← locationFrom first } operator body) (do
      let body ← suffixed nested' inDelimiter
      return .unary { location := ← locationFrom first' } operator body) c d (Alike tail head) := by
  refine .bind (suffixed_tracks seam inner follows) ?_
  rintro body body' _ _ ⟨like, follows⟩
  exact .locationFrom (.pure ⟨Expr.unplaced_unary rfl like, follows⟩)

theorem lookahead_tracks (beside : Beside tail c d) (here : c.peek? = some x) (negative : Bool) :
    Tracks Never (do
      set c.next
      if (← ahead) == some (CodePoint.scalar '\x7b') then
        let (code, _) ← code
        return .predicate { location := ← locationFrom c } negative code
      else
        let body ← suffixed nested inDelimiter
        let operator := if negative then Operator.notFollowedBy else .followedBy
        return .unary { location := ← locationFrom c } operator body : Scan Expr) (do
      set d.next
      if (← ahead) == some (CodePoint.scalar '\x7b') then
        let (code, _) ← code
        return .predicate { location := ← locationFrom d } negative code
      else
        let body ← suffixed nested' inDelimiter
        let operator := if negative then Operator.notFollowedBy else .followedBy
        return .unary { location := ← locationFrom d } operator body : Scan Expr) c d
      (Alike tail head) := by
  refine .set (.bind (ahead_tracks seam (.beside (beside.next here))) ?_)
  rintro _ _ m n ⟨rfl, rfl, meets⟩
  refine .ite ?_ (fun _ => ?_) fun _ => operator_tracks seam inner meets.follows
  · rw [beq_iff_eq, beq_iff_eq]
    exact meets.peek?_eq_iff seam (by decide)
  · refine .bind (code_tracks seam meets.follows) ?_
    rintro found found' _ _ ⟨same, beside⟩
    refine .locationFrom (.pure ⟨?_, .beside beside⟩)
    rw [same]
    rfl

theorem prefixed_tracks (follows : Follows tail head c d) :
    Tracks Never (prefixed nested inDelimiter) (prefixed nested' inDelimiter) c d (Alike tail head) := by
  refine .bind (skip_tracks seam follows) fun _ _ a b meets => .get ?_
  by_cases ended : a.after = []
  · obtain ⟨source, before, after⟩ := a
    subst ended
    exact .fails (.refl _)
  have beside := meets.beside ended
  rw [meets.peek? ended]
  split
  · exact lookahead_tracks seam inner beside ‹_› false
  · exact lookahead_tracks seam inner beside ‹_› true
  · exact .set (operator_tracks seam inner (.beside (beside.next ‹_›)))
  · exact suffixed_tracks seam inner meets.follows

/-- What may have a label in front of it. -/
theorem labelable_tracks (follows : Follows tail head c d) {first first' : Cursor} (auto : Bool) :
    Tracks Never (do
      if ← labelAhead then
        let (found, location) ← label
        let body ← prefixed nested inDelimiter
        return .labeled { location := ← locationFrom first } (some found) (some location) auto body
      else
        let body ← prefixed nested inDelimiter
        if auto then return .labeled { location := ← locationFrom first } none none true body
        else return body) (do
      if ← labelAhead then
        let (found, location) ← label
        let body ← prefixed nested' inDelimiter
        return .labeled { location := ← locationFrom first' } (some found) (some location) auto body
      else
        let body ← prefixed nested' inDelimiter
        if auto then return .labeled { location := ← locationFrom first' } none none true body
        else return body) c d (Alike tail head) := by
  refine .bindUnless (labelAhead_tracks seam follows) ?_ ?_
  · rintro _ _ ⟨rfl, rfl, spent⟩
    exact .bind (prefixed_spent spent) nofun
  · rintro labels _ _ _ ⟨rfl, rfl, rfl⟩
    refine .ite .rfl (fun _ => ?_) fun _ => ?_
    · refine .bind (label_tracks seam follows) ?_
      rintro ⟨found, location⟩ ⟨_, location'⟩ _ _ ⟨rfl, beside⟩
      refine .bind (prefixed_tracks seam inner (.beside beside)) ?_
      rintro body body' _ _ ⟨like, follows⟩
      exact .locationFrom (.pure ⟨Expr.unplaced_labeled rfl like, follows⟩)
    · refine .bind (prefixed_tracks seam inner follows) ?_
      rintro body body' _ _ ⟨like, follows⟩
      refine .ite .rfl (fun _ => ?_) fun _ => .pure ⟨like, follows⟩
      exact .locationFrom (.pure ⟨Expr.unplaced_labeled rfl like, follows⟩)

theorem labeled_tracks (follows : Follows tail head c d) :
    Tracks Never (labeled nested inDelimiter) (labeled nested' inDelimiter) c d (Alike tail head) := by
  refine .bind (skip_tracks seam follows) fun _ _ a b meets => .get ?_
  have auto : (b.peek? == some (CodePoint.scalar '@')) = (a.peek? == some (CodePoint.scalar '@')) := by
    rw [Bool.eq_iff_iff, beq_iff_eq, beq_iff_eq]
    exact meets.peek?_eq_iff seam (by decide)
  rw [auto]
  refine .ite .rfl (fun here => .set ?_) fun _ => labelable_tracks seam inner meets.follows _
  have here := eq_of_beq here
  have inside : a.after ≠ [] := fun ended => by simp [Cursor.peek?, ended] at here
  exact labelable_tracks seam inner (.beside ((meets.beside inside).next here)) _

theorem elements_tracks (follows : Follows tail head c d) (more : fuel ≤ fuel') :
    Tracks Never (elements nested inDelimiter fuel) (elements nested' inDelimiter fuel') c d
      (AlikeAll tail head) := by
  induction fuel generalizing c d fuel' with
  | zero => exact .get .fail
  | succ fuel ih =>
    obtain ⟨fuel', rfl⟩ : ∃ n, fuel' = n + 1 := ⟨fuel' - 1, by omega⟩
    refine .bindUnless (sequenceEnds_tracks seam follows) ?_ ?_
    · rintro _ c' ⟨rfl, settled, error, broken⟩
      exact elements_broken settled broken
    · rintro ends _ _ _ ⟨rfl, meets⟩
      refine .ite .rfl (fun _ => .pure ⟨rfl, meets.follows⟩) fun _ => ?_
      refine .bind (labeled_tracks seam inner meets.follows) ?_
      rintro e f _ _ ⟨like, follows⟩
      refine .bind (ih follows (by omega)) ?_
      rintro es fs _ _ ⟨likes, follows⟩
      exact .pure ⟨by simp [like, likes], follows⟩

theorem sequence_tracks (follows : Follows tail head c d) :
    Tracks Never (sequence nested inDelimiter) (sequence nested' inDelimiter) c d (Alike tail head) := by
  refine .bind (skip_tracks seam follows) fun _ _ a b meets => .get ?_
  refine .bind (elements_tracks seam inner meets.follows
    (Nat.succ_le_succ meets.length_le)) ?_
  rintro es fs _ _ ⟨likes, follows⟩
  have row {info info' : Info} (infos : info'.unplaced = info.unplaced) :
      (Expr.sequence info' fs).unplaced = (Expr.sequence info es).unplaced := by
    simp only [Expr.unplaced, Expr.unplacedAll_eq_map, infos, likes]
  split
  · exact .get .fail
  · rename_i only
    obtain ⟨only', rfl, like⟩ : ∃ f, fs = [f] ∧ f.unplaced = only.unplaced := by
      simpa [List.map_eq_singleton_iff] using likes
    have auto : isAuto only' = isAuto only := by
      rw [← Expr.isAuto_unplaced, like, Expr.isAuto_unplaced]
    refine .ite (by rw [auto]) (fun _ => ?_) fun _ => .pure ⟨like, follows⟩
    exact .locationFrom (.pure ⟨row rfl, follows⟩)
  · rename_i notEmpty notSingle
    split
    · exact absurd (List.map_eq_nil_iff.mp likes.symm) notEmpty
    · obtain ⟨e, single, -⟩ := List.map_eq_singleton_iff.mp likes.symm
      exact absurd single (notSingle e)
    · exact .locationFrom (.pure ⟨row rfl, follows⟩)

theorem action_tracks (follows : Follows tail head c d) :
    Tracks Never (action nested inDelimiter) (action nested' inDelimiter) c d (Alike tail head) := by
  refine .bind (skip_tracks seam follows) fun _ _ a b meets => .get ?_
  refine .bind (sequence_tracks seam inner meets.follows) ?_
  rintro body body' _ _ ⟨like, follows⟩
  refine .bind (ahead_tracks seam follows) ?_
  rintro _ _ m n ⟨rfl, rfl, meets⟩
  refine .ite ?_ (fun _ => ?_) fun _ => .pure ⟨like, meets.follows⟩
  · rw [beq_iff_eq, beq_iff_eq]
    exact meets.peek?_eq_iff seam (by decide)
  · refine .bind (code_tracks seam meets.follows) ?_
    rintro ⟨found, location⟩ ⟨_, location'⟩ _ _ ⟨rfl, beside⟩
    refine .locationFrom (.pure ⟨?_, .beside beside⟩)
    simp only [Expr.unplaced, Info.unplaced, like]

theorem alternatives_tracks (follows : Follows tail head c d) (more : fuel ≤ fuel') :
    Tracks Never (alternatives nested inDelimiter fuel) (alternatives nested' inDelimiter fuel') c d
      (AlikeAll tail head) := by
  induction fuel generalizing c d fuel' with
  | zero => exact .get .fail
  | succ fuel ih =>
    obtain ⟨fuel', rfl⟩ : ∃ n, fuel' = n + 1 := ⟨fuel' - 1, by omega⟩
    refine .bind (tryEat_tracks seam follows (by decide)) ?_
    rintro slash _ _ _ ⟨rfl, follows⟩
    refine .ite .rfl (fun _ => ?_) fun _ => .pure ⟨rfl, follows⟩
    refine .bind (action_tracks seam inner follows) ?_
    rintro e f _ _ ⟨like, follows⟩
    refine .bind (ih follows (by omega)) ?_
    rintro es fs _ _ ⟨likes, follows⟩
    exact .pure ⟨by simp [like, likes], follows⟩

theorem choiceOf_tracks (follows : Follows tail head c d) :
    Tracks Never (choiceOf nested inDelimiter) (choiceOf nested' inDelimiter) c d (Alike tail head) := by
  refine .bind (skip_tracks seam follows) fun _ _ a b meets => .get ?_
  refine .bind (action_tracks seam inner meets.follows) ?_
  rintro e f _ _ ⟨like, follows⟩
  refine .bind (alternatives_tracks seam inner follows (Nat.succ_le_succ meets.length_le)) ?_
  rintro es fs _ _ ⟨likes, follows⟩
  split
  · obtain rfl : fs = [] := List.map_eq_nil_iff.mp likes
    exact .pure ⟨like, follows⟩
  · rename_i nonempty
    split
    · exact absurd (List.map_eq_nil_iff.mp likes.symm) nonempty
    · exact .locationFrom (.pure ⟨Expr.unplaced_choice rfl (by simp [like, likes]), follows⟩)

theorem definition_tracks {first first' displayFirst displayFirst' : Cursor}
    {nameLocation nameLocation' : Location} (found : Text) (display : Option Text)
    (follows : Follows tail head c d) :
    Tracks Never (definition nested first displayFirst found nameLocation display)
      (definition nested' first' displayFirst' found nameLocation' display) c d
      (AlikeRule tail head) := by
  refine .bind (eat_tracks seam follows (by decide)) fun _ _ _ _ beside => ?_
  refine .bind (inner false _ _ (.beside beside)) ?_
  rintro body body' m n ⟨like, follows⟩
  cases display with
  | none =>
    refine .bind (P := Alike tail head) (.pure ⟨like, follows⟩) ?_
    rintro _ _ _ _ ⟨like, follows⟩
    exact ruleEnd_tracks seam found like follows
  | some display =>
    refine .locationFrom (.bind (P := Alike tail head) (.pure ⟨?_, follows⟩) ?_)
    · simp only [Expr.unplaced, Info.unplaced, like]
    · rintro _ _ _ _ ⟨like, follows⟩
      exact ruleEnd_tracks seam found like follows

theorem rule_tracks (follows : Follows tail head c d) :
    Tracks Never (rule nested) (rule nested') c d (AlikeRule tail head) := by
  refine .bind (skip_tracks seam follows) fun _ _ a b meets => .get ?_
  refine .bind (name_tracks seam meets.follows) ?_
  rintro found _ _ _ ⟨rfl, beside⟩
  refine .locationFrom (.bind (skip_tracks seam (.beside beside)) fun _ _ p q meets => .get ?_)
  rw [meets.startsQuote seam]
  refine .ite .rfl (fun quote => ?_) fun _ => ?_
  · have inside : p.after ≠ [] := fun ended => by simp [Cursor.peek?, ended, startsQuote] at quote
    refine .bind (P := Level tail) ?_ ?_
    · rw [← bind_pure_comp]
      refine .bind (string_tracks (meets.beside inside)) ?_
      rintro display _ _ _ ⟨rfl, beside⟩
      exact .pure ⟨rfl, beside⟩
    · rintro display _ _ _ ⟨rfl, beside⟩
      exact definition_tracks seam inner _ _ (.beside beside)
  · refine .bind (P := fun a b c' d' => b = a ∧ Follows tail head c' d') (.pure ⟨rfl, meets.follows⟩) ?_
    rintro display _ _ _ ⟨rfl, follows⟩
    exact definition_tracks seam inner _ _ follows

end Nested

theorem choice_tracks {depth depth' : Nat} (deep : depth ≤ depth') (follows : Follows tail head c d) :
    Tracks Never (choice depth inDelimiter) (choice depth' inDelimiter) c d (Alike tail head) := by
  induction depth generalizing c d depth' inDelimiter with
  | zero => exact .get .fail
  | succ depth ih =>
    obtain ⟨depth', rfl⟩ : ∃ n, depth' = n + 1 := ⟨depth' - 1, by omega⟩
    exact choiceOf_tracks seam (fun _ _ _ => ih (by omega)) follows

theorem initializer_tracks (meets : Meets tail head c d) :
    Tracks Never initializer initializer c d fun a b c' d' =>
      b.map Initializer.unplaced = a.map Initializer.unplaced ∧ Follows tail head c' d' := by
  refine .get (.ite ?_ (fun _ => ?_) fun _ => .pure ⟨rfl, meets.follows⟩)
  · rw [beq_iff_eq, beq_iff_eq]
    exact meets.peek?_eq_iff seam (by decide)
  · refine .bind (code_tracks seam meets.follows) ?_
    rintro ⟨found, location⟩ ⟨_, location'⟩ _ _ ⟨rfl, beside⟩
    refine .locationFrom (.discard (tryEat_tracks seam (.beside beside) (by decide)) ?_)
    rintro _ _ ⟨_, _, -, follows⟩
    exact .pure ⟨rfl, follows⟩

end Seam

end Scan

end PegCompiler
