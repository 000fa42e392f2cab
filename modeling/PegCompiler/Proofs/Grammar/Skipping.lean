import PegCompiler.Grammar.Scan
import PegCompiler.Proofs.Grammar.Cursors

/-!
Blanks and comments between the pieces of a grammar text. Skipping them leads on in the text, also where
it fails; and behind what is skipped there is nothing more to skip, so that it makes no difference how
often the productions do it.
-/

namespace PegCompiler

namespace Scan

variable {c d : Cursor} {x : CodePoint} {t : Text} {fuel : Nat}

theorem commentEnd?_leads (found : commentEnd? fuel c = some d) : c.Leads d := by
  induction fuel generalizing c with
  | zero => cases found
  | succ fuel ih =>
    rw [commentEnd?] at found
    split at found
    · exact Option.some.inj found ▸ .advance 2 c
    · split at found
      · cases found
      · exact (Cursor.Leads.next c).trans (ih found)

/-- The rest of a line is what stands before its end. -/
theorem lineEnd_reads (c : Cursor) : ∃ s, CodePoint.scalar '\n' ∉ s ∧ c.Reads s (lineEnd c) ∧
    ∀ x, (lineEnd c).peek? = some x → x = '\n' := by
  have split := (List.takeWhile_append_dropWhile (p := (· ≠ CodePoint.scalar '\n')) (l := c.after)).symm
  refine ⟨_, fun inside => ?_, Cursor.Reads.advance split, fun x here => ?_⟩
  · simpa using List.all_eq_true.mp List.all_takeWhile _ inside
  · rw [Cursor.peek?, lineEnd, Cursor.Reads.after_advance split] at here
    have := List.head?_dropWhile_not (· ≠ CodePoint.scalar '\n') c.after
    rw [here] at this
    simpa using this

theorem lineEnd_eq (line : CodePoint.scalar '\n' ∉ t) (reads : c.Reads t d)
    (stop : d.peek? = some (.scalar '\n')) : lineEnd c = d := by
  obtain ⟨rest, behind⟩ := Cursor.peek?_eq_some.mp stop
  have inside : ∀ x ∈ t, x ≠ CodePoint.scalar '\n' := fun x member same => line (same ▸ member)
  have whole : c.after.takeWhile (· ≠ CodePoint.scalar '\n') = t := by
    rw [reads.after, behind, List.takeWhile_append_of_pos (by simpa using inside)]
    simp
  rw [lineEnd, whole]
  exact (Cursor.Reads.advance reads.after).unique reads

/-- The end of a line that has not ended yet is further on. -/
theorem length_lineEnd_lt (here : c.peek? = some x) (other : x ≠ '\n') :
    (lineEnd c).after.length < c.after.length := by
  obtain ⟨s, -, reads, stop⟩ := lineEnd_reads c
  have lengths := reads.length_after
  cases s with
  | nil =>
    have same : lineEnd c = c := reads.unique (.refl c)
    exact absurd (stop x ((congrArg Cursor.peek? same).trans here)) other
  | cons y s =>
    simp only [List.length_cons] at lengths
    omega

/-- What skipping does at one code point. -/
theorem skipFrom_succ (here : c.peek? = some x) :
    skipFrom (fuel + 1) c =
      if c.startsWith "/*" then
        match commentEnd? (c.after.length + 1) (c.advance 2) with
        | some after => skipFrom fuel after
        | none => .error ⟨.unclosedComment, c⟩
      else if isBlank x then skipFrom fuel c.next
      else if c.startsWith "//" || x == '#' then skipFrom fuel (lineEnd c)
      else .ok c := by
  rw [skipFrom]
  generalize c.peek? = ahead at here ⊢
  subst here
  rfl

theorem skipFrom_end (here : c.peek? = none) : skipFrom fuel c = .ok c := by
  cases fuel with
  | zero => rfl
  | succ fuel => simp only [skipFrom, here]

/-- An outcome that lies further on in the text: the place reached, or that of the error. -/
def LeadsOn (c : Cursor) : Except SyntaxError Cursor → Prop
  | .ok d => c.Leads d
  | .error error => c.Leads error.cursor

theorem LeadsOn.behind {outcome : Except SyntaxError Cursor} (first : c.Leads d)
    (rest : LeadsOn d outcome) : LeadsOn c outcome := by
  cases outcome <;> exact first.trans rest

/-- Skipping goes on in the text, and notices an error there. -/
theorem skipFrom_leads (fuel : Nat) (c : Cursor) : LeadsOn c (skipFrom fuel c) := by
  induction fuel generalizing c with
  | zero => exact Cursor.Leads.refl c
  | succ fuel ih =>
    cases here : c.peek? with
    | none =>
      rw [skipFrom_end here]
      exact Cursor.Leads.refl c
    | some x =>
      rw [skipFrom_succ here]
      split
      · split
        · rename_i comment
          exact .behind ((Cursor.Leads.advance 2 c).trans (commentEnd?_leads comment)) (ih _)
        · exact Cursor.Leads.refl c
      · split
        · exact .behind (.next c) (ih _)
        · split
          · obtain ⟨s, -, reads, -⟩ := lineEnd_reads c
            exact .behind ⟨s, reads⟩ (ih _)
          · exact Cursor.Leads.refl c

/-- There is nothing to skip at the place. -/
def IsSettled (c : Cursor) : Prop := ∀ fuel, skipFrom fuel c = .ok c

theorem isSettled_end (here : c.peek? = none) : IsSettled c := fun _ => skipFrom_end here

/-- Where enough skipping ends, there is nothing more to skip. -/
theorem skipFrom_settles (enough : c.after.length < fuel) (skipped : skipFrom fuel c = .ok d) :
    IsSettled d := by
  induction fuel generalizing c with
  | zero => omega
  | succ fuel ih =>
    cases here : c.peek? with
    | none =>
      rw [skipFrom_end here] at skipped
      exact Except.ok.inj skipped ▸ isSettled_end here
    | some x =>
      rw [skipFrom_succ here] at skipped
      split at skipped
      · rename_i opening
        split at skipped
        · rename_i after comment
          have first := Cursor.length_next_lt here
          have second := (Cursor.Leads.next c.next).length_le
          have beyond := (commentEnd?_leads comment).length_le
          have twice : c.advance 2 = c.next.next := rfl
          rw [twice] at beyond
          exact ih (by omega) skipped
        · cases skipped
      · split at skipped
        · exact ih (by have := Cursor.length_next_lt here; omega) skipped
        · split at skipped
          · rename_i notBlank line
            have other : x ≠ '\n' := by
              rintro rfl
              exact notBlank (by decide)
            exact ih (by have := length_lineEnd_lt here other; omega) skipped
          · rename_i noBlock noBlank noLine
            obtain rfl := Except.ok.inj skipped
            intro again
            cases again with
            | zero => rfl
            | succ again => rw [skipFrom_succ here, if_neg noBlock, if_neg noBlank, if_neg noLine]

/-- A code point that begins neither a blank nor a comment is not skipped. -/
theorem isSettled_of_ne (here : c.peek? = some x) (blank : isBlank x = false) (noSlash : x ≠ '/')
    (noHash : x ≠ '#') : IsSettled c := by
  obtain ⟨rest, behind⟩ := Cursor.peek?_eq_some.mp here
  intro fuel
  cases fuel with
  | zero => rfl
  | succ fuel =>
    have noComment (y : Char) : c.startsWith (Text.ofChars ['/', y]) = false := by
      simp [Cursor.startsWith, behind, Text.ofChars, List.isPrefixOf, noSlash.symm]
    have block : c.startsWith "/*" = false := noComment '*'
    have line : c.startsWith "//" = false := noComment '/'
    rw [skipFrom_succ here]
    simp [block, line, blank, noHash]

theorem run_bind {α β : Type} {scan : Scan α} {next : α → Scan β} {a : α} (run : scan c = .ok (a, d)) :
    (scan >>= next) c = next a d := by
  change Except.bind (scan c) _ = _
  rw [run]
  rfl

theorem run_bind_error {α β : Type} {scan : Scan α} {next : α → Scan β} {error : SyntaxError}
    (run : scan c = .error error) : (scan >>= next) c = .error error := by
  change Except.bind (scan c) _ = _
  rw [run]
  rfl

theorem discard_run {α : Type} {scan : Scan α} {a : α} (run : scan c = .ok (a, d)) :
    discard scan c = .ok (⟨⟩, d) := by
  change (scan >>= fun _ => (pure ⟨⟩ : Scan PUnit)) c = _
  rw [run_bind run]
  rfl

theorem skip_eq_ok_iff : skip c = .ok ((), d) ↔ skipFrom (c.after.length + 1) c = .ok d := by
  unfold skip
  cases skipFrom (c.after.length + 1) c with
  | error fault => exact ⟨nofun, nofun⟩
  | ok e => exact ⟨fun run => congrArg (·.map Prod.snd) run, fun run => by cases run; rfl⟩

theorem skip_of_settled (settled : IsSettled c) : skip c = .ok ((), c) :=
  skip_eq_ok_iff.mpr (settled _)

theorem skip_ok (skipped : skip c = .ok ((), d)) : c.Leads d ∧ IsSettled d := by
  have run := skip_eq_ok_iff.mp skipped
  have leads := skipFrom_leads (c.after.length + 1) c
  rw [run] at leads
  exact ⟨leads, skipFrom_settles (Nat.lt_succ_self _) run⟩

end Scan

end PegCompiler
