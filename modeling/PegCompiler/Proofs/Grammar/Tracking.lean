import PegCompiler.Proofs.Grammar.RuleHeads

/-!
A grammar text with another text behind it. Scanning the first text alone and scanning it with `tail`
behind it go on in step, and `Scan.Tracks` says so of single scans: wherever the one leads, the other one
leads to the same finding, at the same place of the first text. Only at the end of the first text they part:
what is skipped there leads the second one on to `head`, where a rule begins.
-/

namespace PegCompiler

section Apart

variable {α : Type} {p : α → Bool} {l tail : List α}

/-- What ends before `tail` at the latest ends where it ends without it. -/
theorem takeWhile_apart (stop : ∀ x ∈ tail.head?, p x = false) :
    (l ++ tail).takeWhile p = l.takeWhile p := by
  induction l with
  | nil =>
    cases tail with
    | nil => rfl
    | cons x tail => simp [stop x rfl]
  | cons x l ih => simp only [List.cons_append, List.takeWhile_cons, ih]

theorem dropWhile_apart (stop : ∀ x ∈ tail.head?, p x = false) :
    (l ++ tail).dropWhile p = l.dropWhile p ++ tail := by
  induction l with
  | nil =>
    cases tail with
    | nil => rfl
    | cons x tail => simp [stop x rfl]
  | cons x l ih =>
    simp only [List.cons_append, List.dropWhile_cons, ih]
    split <;> rfl

end Apart

/-- The text is empty or begins with a line feed. -/
abbrev Text.BreaksLine (t : Text) : Prop := ∀ x ∈ t.head?, x = CodePoint.scalar '\n'

/-- What stands behind a text: from `tail` on, skipping leads to `head`, and there a rule begins if there
is anything. -/
structure Seam (tail head : Text) : Prop where
  apart : tail.BreaksLine
  skips : ∀ fuel (d : Cursor), d.after = tail → d.after.length < fuel →
    ∃ e, Scan.skipFrom fuel d = .ok e ∧ e.after = head
  opens : ∀ d : Cursor, d.after = head → head ≠ [] → ∃ e, Scan.ruleHead d = .ok (true, e)

/-- `d` has the same before it as `c`, and then `tail`. -/
def Beside (tail : Text) (c d : Cursor) : Prop := d.after = c.after ++ tail

/-- `d` stands beside `c`, or behind what is skipped at the end of the text of `c`. -/
inductive Follows (tail head : Text) (c d : Cursor) : Prop
  | beside : Beside tail c d → Follows tail head c d
  | ended : c.after = [] → d.after = head → Follows tail head c d

namespace Beside

variable {tail : Text} {c d : Cursor} {x : CodePoint}

theorem after (h : Beside tail c d) : d.after = c.after ++ tail := h

theorem peek? (h : Beside tail c d) (here : c.peek? = some x) : d.peek? = some x := by
  obtain ⟨rest, behind⟩ := Cursor.peek?_eq_some.mp here
  exact Cursor.peek?_eq_some.mpr ⟨rest ++ tail, by rw [h, behind, List.cons_append]⟩

theorem advance {n : Nat} (h : Beside tail c d) (inside : n ≤ c.after.length) :
    Beside tail (c.advance n) (d.advance n) := by
  have first : c.after = c.after.take n ++ c.after.drop n := (List.take_append_drop n _).symm
  have second : d.after = c.after.take n ++ (c.after.drop n ++ tail) := by
    rw [← List.append_assoc, ← first, h]
  have length : (c.after.take n).length = n := List.length_take_of_le inside
  have left := Cursor.Reads.after_advance first
  have right := Cursor.Reads.after_advance second
  rw [length] at left right
  rw [Beside, left, right]

theorem next (h : Beside tail c d) (here : c.peek? = some x) : Beside tail c.next d.next := by
  refine h.advance (n := 1) ?_
  have := Cursor.length_next_lt here
  omega

theorem peek?_eq_iff (apart : tail.BreaksLine) (h : Beside tail c d) (other : x ≠ '\n') :
    d.peek? = some x ↔ c.peek? = some x := by
  cases here : c.peek? with
  | some y => rw [h.peek? here]
  | none =>
    rw [Cursor.peek?, h.after, Cursor.peek?_eq_none.mp here, List.nil_append]
    refine ⟨fun first => absurd (apart x first) other, fun none => ?_⟩
    cases none

theorem startsWithName (h : Beside tail c d) (inside : c.after ≠ []) :
    d.after.startsWithName = c.after.startsWithName := by
  rw [h.after]
  cases after : c.after with
  | nil => exact absurd after inside
  | cons x rest => rfl

/-- A piece of a line is the same in both texts. -/
theorem startsWith (apart : tail.BreaksLine) (h : Beside tail c d)
    {literal : Text} (line : CodePoint.scalar '\n' ∉ literal) :
    d.startsWith literal = c.startsWith literal := by
  have same (l : Text) : literal.isPrefixOf (l ++ tail) = literal.isPrefixOf l := by
    induction literal generalizing l with
    | nil => simp
    | cons x literal ih =>
      simp only [List.mem_cons, not_or] at line
      cases l with
      | cons y l => simp [List.isPrefixOf, ih line.2]
      | nil =>
        cases tail with
        | nil => rfl
        | cons y tail =>
          obtain rfl := apart y rfl
          simp [List.isPrefixOf, Ne.symm line.1]
  rw [Cursor.startsWith, Cursor.startsWith, h, same]

end Beside

namespace Scan

variable {tail head : Text} {c d c' : Cursor} {fuel fuel' : Nat}

theorem commentEnd?_beside (apart : tail.BreaksLine)
    (beside : Beside tail c d) (more : fuel ≤ fuel') (found : commentEnd? fuel c = some c') :
    ∃ d', commentEnd? fuel' d = some d' ∧ Beside tail c' d' := by
  induction fuel generalizing c d fuel' with
  | zero => cases found
  | succ fuel ih =>
    obtain ⟨fuel', rfl⟩ : ∃ n, fuel' = n + 1 := ⟨fuel' - 1, by omega⟩
    have same : d.startsWith "*/" = c.startsWith "*/" := beside.startsWith apart (by decide)
    rw [commentEnd?] at found ⊢
    rw [same]
    split at found
    · rename_i closes
      obtain rfl := Option.some.inj found
      obtain ⟨rest, behind⟩ := Cursor.startsWith_iff.mp closes
      have two : c.after.length = 2 + rest.length := by
        rw [behind, List.length_append]
        rfl
      rw [if_pos closes]
      exact ⟨_, rfl, beside.advance (by omega)⟩
    · rename_i opened
      split at found
      · cases found
      · rename_i inside
        obtain ⟨x, rest, behind⟩ : ∃ x rest, c.after = x :: rest := by
          cases after : c.after with
          | nil => simp [Cursor.atEnd, after] at inside
          | cons x rest => exact ⟨x, rest, rfl⟩
        have here : c.peek? = some x := Cursor.peek?_eq_some.mpr ⟨rest, behind⟩
        have inside' : ¬d.atEnd = true := by simp [Cursor.atEnd, beside.after, behind]
        rw [if_neg opened, if_neg inside']
        exact ih (beside.next here) (by omega) found

theorem lineEnd_beside (apart : tail.BreaksLine)
    (beside : Beside tail c d) : Beside tail (lineEnd c) (lineEnd d) := by
  have same : d.after.takeWhile (· ≠ CodePoint.scalar '\n') =
      c.after.takeWhile (· ≠ CodePoint.scalar '\n') := by
    rw [beside.after]
    exact takeWhile_apart fun x first => by simp [apart x first]
  rw [lineEnd, lineEnd, same]
  exact beside.advance (List.takeWhile_sublist _).length_le

/-- Skipping beside a text goes the same way, and over the seam where the text ends. -/
theorem skipFrom_beside (apart : tail.BreaksLine)
    (ends : ∀ fuel (d : Cursor), d.after = tail → d.after.length < fuel →
      ∃ e, skipFrom fuel d = .ok e ∧ e.after = head)
    (beside : Beside tail c d) (enough : c.after.length < fuel) (enough' : d.after.length < fuel')
    (skipped : skipFrom fuel c = .ok c') :
    ∃ d', skipFrom fuel' d = .ok d' ∧
      (c'.after ≠ [] ∧ Beside tail c' d' ∨ c'.after = [] ∧ d'.after = head) := by
  induction fuel generalizing c d fuel' with
  | zero => omega
  | succ fuel ih =>
    obtain ⟨fuel', rfl⟩ : ∃ n, fuel' = n + 1 := ⟨fuel' - 1, by omega⟩
    cases here : c.peek? with
    | none =>
      rw [skipFrom_end here] at skipped
      obtain rfl := Except.ok.inj skipped
      have ended := Cursor.peek?_eq_none.mp here
      obtain ⟨e, run, after⟩ := ends (fuel' + 1) d (by rw [beside.after, ended, List.nil_append]) enough'
      exact ⟨e, run, .inr ⟨ended, after⟩⟩
    | some x =>
      have here' := beside.peek? here
      have shorter := Cursor.length_next_lt here
      have shorter' := Cursor.length_next_lt here'
      have block : d.startsWith "/*" = c.startsWith "/*" := beside.startsWith apart (by decide)
      have line : d.startsWith "//" = c.startsWith "//" := beside.startsWith apart (by decide)
      rw [skipFrom_succ here] at skipped
      rw [skipFrom_succ here', block, line]
      split at skipped
      · rename_i opening
        obtain ⟨rest, behind⟩ := Cursor.startsWith_iff.mp opening
        have two : c.after.length = 2 + rest.length := by
          rw [behind, List.length_append]
          rfl
        have lengths : d.after.length = c.after.length + tail.length := by
          rw [beside.after, List.length_append]
        rw [if_pos opening]
        split at skipped
        · rename_i after comment
          have more : c.after.length + 1 ≤ d.after.length + 1 := by omega
          obtain ⟨after', comment', beside'⟩ :=
            commentEnd?_beside apart (beside.advance (n := 2) (by omega)) more comment
          have beyond := (commentEnd?_leads comment).length_le
          have beyond' := (commentEnd?_leads comment').length_le
          have twice := (Cursor.Leads.next c.next).length_le
          have twice' := (Cursor.Leads.next d.next).length_le
          simp only [Cursor.advance] at beyond beyond'
          rw [comment']
          exact ih beside' (by omega) (by omega) skipped
        · cases skipped
      · rename_i noBlock
        rw [if_neg noBlock]
        split at skipped
        · rename_i blank
          rw [if_pos blank]
          exact ih (beside.next here) (by omega) (by omega) skipped
        · rename_i noBlank
          rw [if_neg noBlank]
          split at skipped
          · rename_i comment
            have other : x ≠ '\n' := by
              rintro rfl
              exact noBlank (by decide)
            have further := length_lineEnd_lt here other
            have further' := length_lineEnd_lt here' other
            rw [if_pos comment]
            exact ih (lineEnd_beside apart beside) (by omega) (by omega) skipped
          · rename_i noLine
            obtain rfl := Except.ok.inj skipped
            have inside : c.after ≠ [] := fun ended => by
              rw [Cursor.peek?_eq_none.mpr ended] at here
              cases here
            rw [if_neg noLine]
            exact ⟨d, rfl, .inl ⟨inside, beside⟩⟩

/-- Skipping goes the same way from each place with the same text behind it. -/
theorem skipFrom_again (same : d.after = c.after) (enough : c.after.length < fuel)
    (enough' : d.after.length < fuel') (skipped : skipFrom fuel c = .ok c') :
    ∃ d', skipFrom fuel' d = .ok d' ∧ d'.after = c'.after := by
  have ends (fuel : Nat) (d : Cursor) (ended : d.after = []) (_ : d.after.length < fuel) :
      ∃ e, skipFrom fuel d = .ok e ∧ e.after = [] :=
    ⟨d, skipFrom_end (Cursor.peek?_eq_none.mpr ended), ended⟩
  have apart : Text.BreaksLine [] := nofun
  have beside : Beside [] c d := by simp [Beside, same]
  obtain ⟨e, run, place⟩ := skipFrom_beside apart ends beside enough enough' skipped
  refine ⟨e, run, ?_⟩
  rcases place with ⟨-, beside⟩ | ⟨ended, ended'⟩
  · rw [beside.after, List.append_nil]
  · rw [ended', ended]

/-- Whether there is something to skip shows from what stands behind the place. -/
theorem isSettled_congr (same : d.after = c.after) (settled : IsSettled c) : IsSettled d := by
  obtain ⟨e, run, after⟩ :=
    skipFrom_again same (Nat.lt_succ_self _) (Nat.lt_succ_self _) (settled _)
  have leads := skipFrom_leads (d.after.length + 1) d
  rw [run] at leads
  obtain ⟨t, reads⟩ := leads
  have empty : t = [] := by
    have lengths := reads.length_after
    rw [after, ← same] at lengths
    exact List.eq_nil_of_length_eq_zero (by omega)
  subst empty
  exact reads.unique (.refl d) ▸ skipFrom_settles (Nat.lt_succ_self _) run

end Scan

namespace Seam

variable {tail head : Text} {d : Cursor}

/-- At the end of a text with nothing behind it. -/
theorem nil : Seam [] [] where
  apart := nofun
  skips _ d ended _ := ⟨d, Scan.skipFrom_end (Cursor.peek?_eq_none.mpr ended), ended⟩
  opens _ _ nonempty := absurd rfl nonempty

theorem settled (seam : Seam tail head) (here : d.after = head) : Scan.IsSettled d := by
  obtain ⟨e, run, after⟩ := seam.skips (tail.length + 1) ⟨none, [], tail⟩ rfl (Nat.lt_succ_self _)
  exact Scan.isSettled_congr (here.trans after.symm) (Scan.skipFrom_settles (Nat.lt_succ_self _) run)

/-- What stands behind the seam begins with a name. -/
theorem named (seam : Seam tail head) (nonempty : head ≠ []) : head.startsWithName = true := by
  let d : Cursor := ⟨none, [], head⟩
  obtain ⟨e, run⟩ := seam.opens d rfl nonempty
  cases name : head.startsWithName with
  | true => rfl
  | false =>
    rw [Scan.ruleHead_of_settled (seam.settled rfl) name] at run
    cases run

end Seam

/-- A text that begins with a mark and stands on one line. -/
def Text.isMark : Text → Bool
  | [] => false
  | x :: rest => x.isMark && !(x :: rest).contains (CodePoint.scalar '\n')

/-- What was skipped has led both scans to places that follow one another. -/
structure Meets (tail head : Text) (c d : Cursor) : Prop where
  left : Scan.IsSettled c
  right : Scan.IsSettled d
  place : c.after ≠ [] ∧ Beside tail c d ∨ c.after = [] ∧ d.after = head

namespace Meets

variable {tail head : Text} {c d : Cursor} {x : CodePoint}

theorem follows (meets : Meets tail head c d) : Follows tail head c d := by
  rcases meets.place with ⟨-, beside⟩ | ⟨ended, ended'⟩
  · exact .beside beside
  · exact .ended ended ended'

theorem length_le (meets : Meets tail head c d) : c.after.length ≤ d.after.length := by
  rcases meets.place with ⟨-, beside⟩ | ⟨ended, -⟩
  · rw [beside.after, List.length_append]
    omega
  · simp [ended]

theorem beside (meets : Meets tail head c d) (inside : c.after ≠ []) : Beside tail c d := by
  rcases meets.place with ⟨-, beside⟩ | ⟨ended, -⟩
  · exact beside
  · exact absurd ended inside

theorem peek? (meets : Meets tail head c d) (inside : c.after ≠ []) : d.peek? = c.peek? := by
  cases here : c.peek? with
  | none => exact absurd (Cursor.peek?_eq_none.mp here) inside
  | some x => exact (meets.beside inside).peek? here

/-- What is ahead is the same, or the first text has ended and a name begins in the second one. -/
theorem sees (seam : Seam tail head) (meets : Meets tail head c d) :
    d.peek? = c.peek? ∨ c.peek? = none ∧ ∃ x, d.peek? = some x ∧ x.startsName = true := by
  by_cases inside : c.after = []
  · have ended : d.after = head := by
      rcases meets.place with ⟨other, -⟩ | ⟨-, ended⟩
      · exact absurd inside other
      · exact ended
    have none := Cursor.peek?_eq_none.mpr inside
    cases head with
    | nil => exact .inl (none.symm ▸ Cursor.peek?_eq_none.mpr ended)
    | cons x head =>
      exact .inr ⟨none, x, Cursor.peek?_eq_some.mpr ⟨head, ended⟩, seam.named (by simp)⟩
  · exact .inl (meets.peek? inside)

theorem peek?_eq_iff (seam : Seam tail head) (meets : Meets tail head c d)
    (mark : x.isMark = true) : d.peek? = some x ↔ c.peek? = some x := by
  rcases meets.sees seam with same | ⟨none, y, here, name⟩
  · rw [same]
  · have other : y ≠ x := CodePoint.ne_of_isMark name mark
    simp [none, here, other]

theorem startsQuote (seam : Seam tail head) (meets : Meets tail head c d) :
    Scan.startsQuote d.peek? = Scan.startsQuote c.peek? := by
  have single := meets.peek?_eq_iff seam (x := '\x27') (by decide)
  have double := meets.peek?_eq_iff seam (x := '\x22') (by decide)
  rw [Bool.eq_iff_iff]
  simp only [Scan.startsQuote, Bool.or_eq_true, beq_iff_eq, single, double]

theorem startsWith (seam : Seam tail head) (meets : Meets tail head c d) {literal : Text}
    (mark : literal.isMark = true) : d.startsWith literal = c.startsWith literal := by
  cases literal with
  | nil => cases mark
  | cons x rest =>
    simp only [Text.isMark, Bool.and_eq_true, Bool.not_eq_true', List.contains_eq_mem,
      decide_eq_false_iff_not] at mark
    by_cases inside : c.after = []
    · have first (e : Cursor) (starts : e.startsWith (x :: rest) = true) : e.peek? = some x := by
        obtain ⟨behind, after⟩ := Cursor.startsWith_iff.mp starts
        exact Cursor.peek?_eq_some.mpr ⟨rest ++ behind, after⟩
      have no : ¬c.startsWith (x :: rest) = true := fun starts => by
        have := first c starts
        simp [Cursor.peek?, inside] at this
      have no' : ¬d.startsWith (x :: rest) = true := fun starts =>
        no (by simpa [Cursor.peek?, inside] using (meets.peek?_eq_iff seam mark.1).mp (first d starts))
      rw [Bool.not_eq_true] at no no'
      rw [no, no']
    · exact (meets.beside inside).startsWith seam.apart mark.2

end Meets

namespace Scan

/-- Wherever `scan` leads from `c`, `scan'` leads from `d` to a like finding and place, unless the first
one gets lost. -/
def Tracks {α : Type} (lost : α → Cursor → Prop) (scan scan' : Scan α) (c d : Cursor)
    (Q : α → α → Cursor → Cursor → Prop) : Prop :=
  ∀ a c', scan c = .ok (a, c') → lost a c' ∨ ∃ b d', scan' d = .ok (b, d') ∧ Q a b c' d'

section Tracks

variable {α β : Type} {scan scan' : Scan α} {next next' : α → Scan β} {c d c' d' : Cursor}
variable {lost : α → Cursor → Prop} {lost' : β → Cursor → Prop}
variable {P Q : α → α → Cursor → Cursor → Prop} {R : β → β → Cursor → Cursor → Prop}

theorem Tracks.pure {a b : α} (h : Q a b c d) : Tracks lost (pure a) (pure b) c d Q := by
  intro a' c' run
  cases run
  exact .inr ⟨b, d, rfl, h⟩

/-- A scan that does not lead anywhere is tracked by any other. -/
theorem Tracks.lose (fails : Reaches scan c lost) : Tracks lost scan scan' c d Q := by
  intro a c' run
  rw [Reaches, run] at fails
  exact .inl fails.2

theorem Tracks.fails (fails : Reaches scan c Never) : Tracks lost scan scan' c d Q :=
  .lose (fails.mono fun _ _ _ no => no.elim)

theorem Tracks.fail {fault : SyntaxFault} {e : Cursor} :
    Tracks lost (Scan.fail fault e) scan' c d Q := by
  intro a c' run
  cases run

/-- What may get lost in the first part is lost in the whole. -/
theorem Tracks.bindUnless (first : Tracks lost scan scan' c d P)
    (dead : ∀ a c', lost a c' → Reaches (next a) c' lost')
    (second : ∀ a b c' d', P a b c' d' → Tracks lost' (next a) (next' b) c' d' R) :
    Tracks lost' (scan >>= next) (scan' >>= next') c d R := by
  intro a c' run
  cases left : scan c with
  | error fault =>
    rw [run_bind_error left] at run
    cases run
  | ok result =>
    obtain ⟨x, m⟩ := result
    rw [run_bind left] at run
    rcases first x m left with gone | ⟨y, n, right, holds⟩
    · have leads := dead x m gone
      rw [Reaches, run] at leads
      exact .inl leads.2
    · rw [run_bind right]
      exact second x y m n holds a c' run

theorem Tracks.bind (first : Tracks Never scan scan' c d P)
    (second : ∀ a b c' d', P a b c' d' → Tracks lost' (next a) (next' b) c' d' R) :
    Tracks lost' (scan >>= next) (scan' >>= next') c d R :=
  .bindUnless first (fun _ _ no => no.elim) second

theorem Tracks.mono (h : Tracks lost scan scan' c d P)
    (imp : ∀ a b c' d', P a b c' d' → Q a b c' d') : Tracks lost scan scan' c d Q := by
  intro a c' run
  exact (h a c' run).imp_right fun ⟨b, d', right, holds⟩ => ⟨b, d', right, imp _ _ _ _ holds⟩

theorem Tracks.get {next next' : Cursor → Scan α} (rest : Tracks lost (next c) (next' d) c d Q) :
    Tracks lost (get >>= next) (get >>= next') c d Q := rest

theorem Tracks.set {next next' : PUnit → Scan α} (rest : Tracks lost (next ⟨⟩) (next' ⟨⟩) c' d' Q) :
    Tracks lost (set c' >>= next) (set d' >>= next') c d Q := rest

theorem Tracks.modify {f : Cursor → Cursor} {next next' : PUnit → Scan α}
    (rest : Tracks lost (next ⟨⟩) (next' ⟨⟩) (f c) (f d) Q) :
    Tracks lost (modify f >>= next) (modify f >>= next') c d Q := rest

theorem Tracks.locationFrom {first first' : Cursor} {next next' : Location → Scan α}
    (rest : Tracks lost (next (first.locationBetween c)) (next' (first'.locationBetween d)) c d Q) :
    Tracks lost (locationFrom first >>= next) (locationFrom first' >>= next') c d Q := rest

theorem Tracks.ite {p p' : Prop} [Decidable p] [Decidable p'] {yes yes' no no' : Scan α}
    (same : p' ↔ p) (hyes : p → Tracks lost yes yes' c d Q) (hno : ¬p → Tracks lost no no' c d Q) :
    Tracks lost (if p then yes else no) (if p' then yes' else no') c d Q := by
  by_cases h : p
  · rw [if_pos h, if_pos (same.mpr h)]
    exact hyes h
  · rw [if_neg h, if_neg (mt same.mp h)]
    exact hno h

theorem Tracks.discard {next next' : PUnit → Scan β} (first : Tracks Never scan scan' c d P)
    (rest : ∀ c' d', (∃ a b, P a b c' d') → Tracks lost' (next ⟨⟩) (next' ⟨⟩) c' d' R) :
    Tracks lost' (discard scan >>= next) (discard scan' >>= next') c d R :=
  .bind (P := fun _ _ c' d' => ∃ a b, P a b c' d')
    (.bind first fun a b _ _ holds => .pure ⟨a, b, holds⟩) fun _ _ c' d' holds => rest c' d' holds

/-- Looking ahead in both texts stays at both places. -/
theorem Tracks.lookAhead {L : α → Prop} {S : α → α → Prop}
    (h : Tracks (fun a _ => L a) scan scan' c d fun a b _ _ => S a b) :
    Tracks (fun a c' => c' = c ∧ L a) (lookAhead scan) (lookAhead scan') c d
      fun a b c' d' => c' = c ∧ d' = d ∧ S a b := by
  intro a c' run
  unfold Scan.lookAhead at run ⊢
  split at run
  · rename_i m left
    cases run
    rcases h a m left with gone | ⟨b, n, right, like⟩
    · exact .inl ⟨rfl, gone⟩
    · rw [right]
      exact .inr ⟨b, d, rfl, rfl, rfl, like⟩
  · cases run

/-- What is lost is where the first scan leads. -/
theorem Tracks.along {L : α → Cursor → Prop} (h : Tracks lost scan scan' c d Q) (r : Reaches scan c L) :
    Tracks (fun a c' => lost a c' ∧ L a c') scan scan' c d fun a b c' d' => Q a b c' d' ∧ L a c' := by
  intro a c' run
  rw [Reaches, run] at r
  rcases h a c' run with gone | ⟨b, d', right, holds⟩
  · exact .inl ⟨gone, r.2⟩
  · exact .inr ⟨b, d', right, holds, r.2⟩

/-- The first scan was run. -/
theorem Tracks.ran (h : Tracks lost scan scan' c d Q) :
    Tracks lost scan scan' c d fun a b c' d' => Q a b c' d' ∧ scan c = .ok (a, c') := by
  intro a c' run
  exact (h a c' run).imp_right fun ⟨b, d', right, holds⟩ => ⟨b, d', right, holds, run⟩

end Tracks

end Scan

end PegCompiler
