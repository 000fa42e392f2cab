import PegCompiler.Proofs.Grammar.Tracking

/-!
The pieces that a grammar is written with, read with and without a text behind. A piece that stands in the
first text is the same in both: names, strings, classes and blocks of code all end where they end without
the text behind them, since that begins with a new line.
-/

namespace PegCompiler

/-- A name ends at the end of a line. -/
theorem Text.splitName?_apart {t tail name rest : Text}
    (apart : tail.BreaksLine) (found : t.splitName? = some (name, rest)) :
    (t ++ tail).splitName? = some (name, rest ++ tail) := by
  cases t with
  | nil => cases found
  | cons x t =>
    have stop : ∀ y ∈ tail.head?, y.continuesName = false := fun y first => by
      rw [apart y first]
      decide +kernel
    rw [Text.splitName?] at found
    rw [List.cons_append, Text.splitName?, takeWhile_apart stop, dropWhile_apart stop]
    split at found
    · rename_i starts
      cases found
      rw [if_pos starts]
    · cases found

namespace Scan

/-- The same finding, and places that stand beside one another. -/
abbrev Level {α : Type} (tail : Text) : α → α → Cursor → Cursor → Prop :=
  fun a b c d => b = a ∧ Beside tail c d

variable {tail head : Text} {c d opening opening' : Cursor} {x quote : CodePoint} {fuel fuel' : Nat}

theorem hexNumber?_append {width n : Nat} {t : Text} (found : hexNumber? width t = some n) (u : Text) :
    width ≤ t.length ∧ hexNumber? width (t ++ u) = some n := by
  unfold hexNumber? at found ⊢
  dsimp only at found ⊢
  split at found
  · rename_i digits
    have enough : width ≤ t.length := by
      have short := List.length_filterMap_le hexDigit? (t.take width)
      rw [digits, List.length_take] at short
      omega
    rw [List.take_append_of_le_length enough, if_pos digits]
    exact ⟨enough, found⟩
  · cases found

theorem escape_tracks (beside : Beside tail c d) : Tracks Never escape escape c d (Level tail) := by
  refine .get ?_
  cases here : c.peek? with
  | none => exact .fail
  | some x =>
    rw [beside.peek? here]
    dsimp only
    have next := beside.next here
    split
    · exact .set (.pure ⟨rfl, next⟩)
    · refine .ite .rfl (fun _ => ?_) fun _ => .set (.pure ⟨rfl, next⟩)
      generalize (if (x == CodePoint.scalar 'x') = true then 2 else 4) = width
      cases digits : hexNumber? width c.next.after with
      | none => exact .fail
      | some n =>
        obtain ⟨enough, digits'⟩ := hexNumber?_append digits tail
        rw [next.after, digits']
        have shorter := Cursor.length_next_lt here
        exact .set (.pure ⟨rfl, beside.advance (by omega)⟩)

theorem element_tracks (beside : Beside tail c d) (here : c.peek? = some x) :
    Tracks Never (element x) (element x) c d (Level tail) :=
  .modify (.ite .rfl (fun _ => escape_tracks (beside.next here)) fun _ => .pure ⟨rfl, beside.next here⟩)

theorem stringBody_tracks (beside : Beside tail c d) (more : fuel ≤ fuel') :
    Tracks Never (stringBody opening quote fuel) (stringBody opening' quote fuel') c d
      (Level tail) := by
  induction fuel generalizing c d fuel' with
  | zero => exact .fail
  | succ fuel ih =>
    obtain ⟨fuel', rfl⟩ : ∃ n, fuel' = n + 1 := ⟨fuel' - 1, by omega⟩
    refine .get ?_
    cases here : c.peek? with
    | none => exact .fail
    | some x =>
      rw [beside.peek? here]
      refine .ite .rfl (fun _ => .fail) fun _ => .ite .rfl (fun _ => ?_) fun _ => ?_
      · exact .set (.pure ⟨rfl, beside.next here⟩)
      · refine .bind (element_tracks beside here) fun a b _ _ ⟨first, beside⟩ => ?_
        exact .bind (ih beside (by omega)) fun as bs _ _ ⟨rest, beside⟩ =>
          .pure ⟨by rw [first, rest], beside⟩

theorem string_tracks (beside : Beside tail c d) : Tracks Never string string c d (Level tail) := by
  refine .get ?_
  cases here : c.peek? with
  | none => exact .fail
  | some quote =>
    rw [beside.peek? here]
    refine .set (stringBody_tracks (beside.next here) ?_)
    rw [beside.after, List.length_append]
    omega

theorem ignoreCaseFlag_tracks (apart : tail.BreaksLine) (beside : Beside tail c d) :
    Tracks Never ignoreCaseFlag ignoreCaseFlag c d (Level tail) := by
  refine .get ?_
  cases here : c.peek? with
  | none =>
    have other : d.peek? ≠ some (CodePoint.scalar 'i') := by
      rw [ne_eq, beside.peek?_eq_iff apart (by decide), here]
      nofun
    refine .ite ?_ (fun flag => ?_) fun _ => .pure ⟨rfl, beside⟩
    · simp [other]
    · simp at flag
  | some x =>
    have next := beside.next here
    have name : d.next.after.startsWithName = c.next.after.startsWithName := by
      rw [next.after]
      cases c.next.after with
      | cons y rest => rfl
      | nil =>
        cases tail with
        | nil => rfl
        | cons y tail =>
          obtain rfl := apart y rfl
          exact CodePoint.startsName_of_isMark (x := CodePoint.scalar '\n') (by decide)
    rw [beside.peek? here, name]
    exact .ite .rfl (fun _ => .set (.pure ⟨rfl, next⟩)) fun _ => .pure ⟨rfl, beside⟩

theorem rangeAhead_iff : rangeAhead c = true ↔
    ∃ y rest, c.after = CodePoint.scalar '-' :: y :: rest ∧ y ≠ ']' := by
  unfold rangeAhead
  split <;> simp_all

/-- A dash at the end of the first text begins a range in the second one at most. -/
theorem rangeAhead_beside (apart : tail.BreaksLine) (beside : Beside tail c d) :
    c.after = [CodePoint.scalar '-'] ∨ (rangeAhead d = true ↔ rangeAhead c = true) := by
  simp only [rangeAhead_iff, beside.after]
  cases c.after with
  | nil =>
    refine .inr ⟨fun ⟨y, rest, first, _⟩ => ?_, nofun⟩
    rw [List.nil_append] at first
    have := apart _ (by rw [first]; rfl)
    simp at this
  | cons x rest =>
    cases rest with
    | nil =>
      by_cases dash : x = CodePoint.scalar '-'
      · exact .inl (by rw [dash])
      · exact .inr (by simp [dash])
    | cons y rest => exact .inr (by simp)

theorem classElement_tracks (beside : Beside tail c d) :
    Tracks Never classElement classElement c d (Level tail) := by
  refine .get ?_
  cases here : c.peek? with
  | none => exact .fail
  | some x =>
    rw [beside.peek? here]
    exact .ite .rfl (fun _ => .fail) fun _ => element_tracks beside here

theorem classPart_tracks (apart : tail.BreaksLine) (beside : Beside tail c d) :
    Tracks (fun _ c' => c'.after = [CodePoint.scalar '-']) classPart classPart c d (Level tail) := by
  refine .get (.bind (classElement_tracks beside) fun lo lo' c₁ d₁ ⟨same, beside⟩ => .get ?_)
  subst same
  rcases rangeAhead_beside apart beside with dash | agree
  · refine .lose (.ite (fun ahead => ?_) fun _ => .pure dash)
    obtain ⟨y, rest, after, -⟩ := rangeAhead_iff.mp ahead
    simp [dash] at after
  · refine .ite agree (fun ahead => ?_) fun _ => .pure ⟨rfl, beside⟩
    obtain ⟨y, rest, after, -⟩ := rangeAhead_iff.mp ahead
    have next := beside.next (Cursor.peek?_eq_some.mpr ⟨_, after⟩)
    refine .modify (.bind (classElement_tracks next) fun hi hi' _ _ ⟨same, beside⟩ => ?_)
    subst same
    exact .ite .rfl (fun _ => .bind (P := fun _ _ _ _ => False) .fail nofun) fun _ => .pure ⟨rfl, beside⟩

/-- A class does not end behind a dash with nothing after it. -/
theorem classParts_dash (dash : c.after = [CodePoint.scalar '-']) :
    Reaches (classParts fuel) c Never := by
  obtain ⟨source, before, after⟩ := c
  subst dash
  cases fuel with
  | zero => exact Cursor.SameText.refl _
  | succ fuel =>
    cases fuel with
    | zero => exact (Cursor.Leads.next _).sameText
    | succ fuel => exact (Cursor.Leads.next _).sameText

theorem classParts_tracks (apart : tail.BreaksLine) (beside : Beside tail c d) (more : fuel ≤ fuel') :
    Tracks Never (classParts fuel) (classParts fuel') c d (Level tail) := by
  induction fuel generalizing c d fuel' with
  | zero => exact .get .fail
  | succ fuel ih =>
    obtain ⟨fuel', rfl⟩ : ∃ n, fuel' = n + 1 := ⟨fuel' - 1, by omega⟩
    have closes : d.peek? = some (.scalar ']') ↔ c.peek? = some (.scalar ']') :=
      beside.peek?_eq_iff apart (by decide)
    refine .get (.ite (by simpa using closes) (fun close => ?_) fun _ => ?_)
    · exact .set (.pure ⟨rfl, beside.next (eq_of_beq close)⟩)
    · refine .bindUnless (classPart_tracks apart beside)
        (fun _ _ dash => .bind (classParts_dash dash) fun _ _ _ no => no.elim) ?_
      rintro part _ _ _ ⟨rfl, beside⟩
      refine .bind (ih beside (by omega)) ?_
      rintro parts _ _ _ ⟨rfl, beside⟩
      exact .pure ⟨rfl, beside⟩

/-- Code is read behind what is skipped in front of it. -/
theorem code_skipped {c' : Cursor} (skipped : skip c = .ok ((), c')) : code c = code c' := by
  have first : code c = _ := run_bind skipped
  have second : code c' = _ := run_bind (skip_of_settled (skip_ok skipped).2)
  exact first.trans second.symm

/-- What a block of code that was read says about the place where it was read. -/
theorem code_ok {found : Text × Location} {c' : Cursor} (settled : IsSettled c)
    (run : code c = .ok (found, c')) : CodeBlock.Balanced found.1 ∧
      c.after = .scalar '\x7b' :: (found.1 ++ .scalar '\x7d' :: c'.after) := by
  by_cases here : c.peek? = some (.scalar '\x7b')
  · rw [code_eq here] at run
    cases search : codeEnd? 1 none (c.after.length + 1) c.next with
    | none =>
      rw [search] at run
      cases run
    | some closing =>
      obtain ⟨t, reads, stop, pending⟩ := codeEnd?_sound search
      rw [search] at run
      cases run
      cases pending with
      | last balanced =>
        refine ⟨reads.textBetween.symm ▸ balanced, ?_⟩
        rw [reads.textBetween, (Cursor.Reads.next here).after, reads.after,
          (Cursor.Reads.next stop).after]
        rfl
  · rw [code_ne settled here] at run
    cases run

/-! What is read behind blanks and comments. -/

theorem advance_literal {literal : Text} (meets : Meets tail head c d) (mark : literal.isMark = true)
    (starts : c.startsWith literal = true) :
    Beside tail (c.advance literal.length) (d.advance literal.length) := by
  obtain ⟨rest, behind⟩ := Cursor.startsWith_iff.mp starts
  have inside : c.after ≠ [] := fun ended => by
    cases literal with
    | nil => cases mark
    | cons x literal => simp [ended] at behind
  refine (meets.beside inside).advance ?_
  rw [behind, List.length_append]
  omega

theorem checkBounds_tracks {found found' : (Boundary × Cursor) × (Boundary × Cursor)}
    (lows : found'.1.1 = found.1.1) (highs : found'.2.1 = found.2.1) :
    Tracks Never (checkBounds found) (checkBounds found') c d fun _ _ c' d' => c' = c ∧ d' = d := by
  obtain ⟨⟨low, lowAt⟩, ⟨high, highAt⟩⟩ := found
  obtain ⟨⟨low', lowAt'⟩, ⟨high', highAt'⟩⟩ := found'
  obtain rfl : low' = low := lows
  obtain rfl : high' = high := highs
  simp only [checkBounds]
  split
  · exact .fail
  · exact .ite .rfl (fun _ => .fail) fun _ => .pure ⟨rfl, rfl⟩
  · exact .pure ⟨rfl, rfl⟩

/-! What is at the end of the first text. -/

/-- Only the end of the text is ahead. -/
def Spent (c : Cursor) : Prop := ∃ e, skip c = .ok ((), e) ∧ e.after = []

theorem tryEat_end {literal : Text} (mark : literal.isMark = true) (ended : c.after = []) :
    Reaches (tryEat literal) c fun found d => found = false ∧ d = c := by
  obtain ⟨source, before, after⟩ := c
  subst ended
  cases literal with
  | nil => cases mark
  | cons x rest => exact ⟨.refl _, rfl, rfl⟩

theorem eat_end {literal : Text} (mark : literal.isMark = true) (ended : c.after = []) :
    Reaches (eat literal) c Never := by
  obtain ⟨source, before, after⟩ := c
  subst ended
  cases literal with
  | nil => cases mark
  | cons x rest => exact .refl _

section Seam

variable (seam : Seam tail head) {literal : Text}

include seam

theorem skip_tracks (follows : Follows tail head c d) :
    Tracks Never skip skip c d fun _ _ c' d' => Meets tail head c' d' := by
  intro _ c' run
  obtain ⟨-, settled⟩ := skip_ok run
  have skipped := skip_eq_ok_iff.mp run
  refine .inr ?_
  cases follows with
  | beside beside =>
    obtain ⟨d', run', place⟩ := skipFrom_beside seam.apart seam.skips beside (Nat.lt_succ_self _)
      (Nat.lt_succ_self _) skipped
    have right := skip_eq_ok_iff.mpr run'
    exact ⟨_, d', right, settled, (skip_ok right).2, place⟩
  | ended ended ended' =>
    rw [skipFrom_end (Cursor.peek?_eq_none.mpr ended)] at skipped
    obtain rfl := Except.ok.inj skipped
    have settled' := seam.settled ended'
    exact ⟨_, d, skip_of_settled settled', settled, settled', .inr ⟨ended, ended'⟩⟩

theorem ahead_tracks (follows : Follows tail head c d) : Tracks Never ahead ahead c d fun a b c' d' =>
    a = c'.peek? ∧ b = d'.peek? ∧ Meets tail head c' d' :=
  .bind (skip_tracks seam follows) fun _ _ _ _ meets => .get (.pure ⟨rfl, rfl, meets⟩)

theorem eat_tracks (follows : Follows tail head c d) (mark : literal.isMark = true) :
    Tracks Never (eat literal) (eat literal) c d fun _ _ c' d' => Beside tail c' d' := by
  refine .bind (skip_tracks seam follows) fun _ _ _ _ meets => .get ?_
  refine .ite (by rw [meets.startsWith seam mark]) (fun starts => ?_) fun _ => .fail
  intro _ _ run
  cases run
  exact .inr ⟨_, _, rfl, advance_literal meets mark starts⟩

theorem tryEat_tracks (follows : Follows tail head c d) (mark : literal.isMark = true) :
    Tracks Never (tryEat literal) (tryEat literal) c d fun a b c' d' =>
      b = a ∧ Follows tail head c' d' := by
  refine .bind (skip_tracks seam follows) fun _ _ _ _ meets => .get ?_
  refine .ite (by rw [meets.startsWith seam mark]) (fun starts => ?_) fun _ => ?_
  · exact .set (.pure ⟨rfl, .beside (advance_literal meets mark starts)⟩)
  · exact .pure ⟨rfl, meets.follows⟩

theorem name_tracks (follows : Follows tail head c d) : Tracks Never name name c d (Level tail) := by
  refine .bind (skip_tracks seam follows) fun _ _ c₁ d₁ meets => .get ?_
  cases found : c₁.after.splitName? with
  | none => exact .fail
  | some split =>
    obtain ⟨name, rest⟩ := split
    have whole := Text.splitName?_append found
    have inside : c₁.after ≠ [] := fun ended => by
      rw [ended] at found
      cases found
    have beside := meets.beside inside
    rw [beside.after, Text.splitName?_apart seam.apart found]
    refine .set (.pure ⟨rfl, beside.advance ?_⟩)
    rw [← whole, List.length_append]
    omega

theorem code_tracks (follows : Follows tail head c d) :
    Tracks Never code code c d fun a b c' d' => b.1 = a.1 ∧ Beside tail c' d' := by
  intro found c' run
  cases skipped : skip c with
  | error fault =>
    have failed : code c = .error fault := run_bind_error skipped
    rw [failed] at run
    cases run
  | ok result =>
    obtain ⟨_, c₁⟩ := result
    obtain ⟨_, d₁, skipped', meets⟩ := (skip_tracks seam follows _ _ skipped).resolve_left id
    rw [code_skipped skipped] at run
    obtain ⟨balanced, after⟩ := code_ok meets.left run
    have beside := meets.beside (by simp [after])
    rw [Beside, after] at beside
    obtain ⟨source, before, after'⟩ := d₁
    simp only [List.cons_append, List.append_assoc] at beside
    subst beside
    refine .inr ⟨_, _, (code_skipped skipped').trans (code_eq_ok_iff.mpr balanced), rfl, rfl⟩

theorem nameAhead_tracks (follows : Follows tail head c d) :
    Tracks Never nameAhead nameAhead c d fun a b c' d' =>
      Meets tail head c' d' ∧ skip c = .ok ((), c') ∧
        a = c'.after.startsWithName ∧ b = d'.after.startsWithName :=
  .bind (skip_tracks seam follows).ran fun _ _ _ _ ⟨meets, ran⟩ => .get (.pure ⟨meets, ran, rfl, rfl⟩)

/-- Where the first text goes on, whether a name is ahead is the same. -/
theorem nameAhead_level (meets : Meets tail head c d) (inside : c.after ≠ []) :
    Tracks Never nameAhead nameAhead c d fun a b c' d' => b = a ∧ c' = c ∧ Meets tail head c' d' := by
  refine (nameAhead_tracks seam meets.follows).mono ?_
  rintro _ _ c' d' ⟨meets', ran, rfl, rfl⟩
  rw [skip_of_settled meets.left] at ran
  cases ran
  exact ⟨(meets'.beside inside).startsWithName inside, rfl, meets'⟩

theorem ruleHead_tracks (meets : Meets tail head c d) (inside : c.after ≠ []) :
    Tracks Never ruleHead ruleHead c d fun a b _ _ => b = a := by
  refine .bind (nameAhead_level seam meets inside) ?_
  rintro named _ _ _ ⟨rfl, rfl, meets'⟩
  refine .ite .rfl (fun _ => .pure rfl) fun _ => .discard (name_tracks seam meets'.follows) ?_
  rintro _ _ ⟨_, _, -, beside⟩
  refine .bind (skip_tracks seam (.beside beside)) fun _ _ p q meets => .get ?_
  rw [meets.startsQuote seam]
  have equals {a b : Cursor} (meets : Meets tail head a b) : Tracks Never (do
      return (← get).startsWith "=" : Scan Bool) (do
      return (← get).startsWith "=" : Scan Bool) a b fun a b _ _ => b = a :=
    .get (.pure (meets.startsWith seam (by decide)))
  refine .ite .rfl (fun quote => ?_) fun _ => equals meets
  have inside : p.after ≠ [] := fun ended => by simp [Cursor.peek?, ended, startsQuote] at quote
  refine .discard (string_tracks (meets.beside inside)) ?_
  rintro _ _ ⟨_, _, -, beside⟩
  exact .bind (skip_tracks seam (.beside beside)) fun _ _ _ _ meets => equals meets

theorem ruleHeadAhead_tracks (meets : Meets tail head c d) (inside : c.after ≠ []) :
    Tracks (fun a c' => a = false ∧ c' = c ∧ ∃ error, ruleHead c = .error error)
      ruleHeadAhead ruleHeadAhead c d fun a b c' d' => b = a ∧ c' = c ∧ d' = d := by
  intro a c' run
  unfold ruleHeadAhead at run ⊢
  cases left : ruleHead c with
  | error error =>
    rw [left] at run
    cases run
    exact .inl ⟨rfl, rfl, error, rfl⟩
  | ok result =>
    obtain ⟨found, m⟩ := result
    obtain ⟨_, n, right, rfl⟩ := (ruleHead_tracks seam meets inside found m left).resolve_left id
    rw [left] at run
    cases run
    rw [right]
    exact .inr ⟨_, d, rfl, rfl, rfl, rfl⟩

theorem labelAhead_tracks (follows : Follows tail head c d) :
    Tracks (fun a c' => c' = c ∧ a = false ∧ Spent c) labelAhead labelAhead c d
      fun a b c' d' => c' = c ∧ d' = d ∧ b = a := by
  refine .lookAhead ?_
  refine .bind (nameAhead_tracks seam follows) ?_
  rintro _ _ a b ⟨meets, ran, rfl, rfl⟩
  by_cases ended : a.after = []
  · refine .lose ?_
    rw [ended]
    exact .pure ⟨rfl, a, ran, ended⟩
  · rw [(meets.beside ended).startsWithName ended]
    refine .ite .rfl (fun _ => .pure rfl) fun _ => .discard (name_tracks seam meets.follows) ?_
    rintro _ _ ⟨_, _, -, beside⟩
    exact .bind (skip_tracks seam (.beside beside)) fun _ _ _ _ meets =>
      .get (.pure (meets.startsWith seam (by decide)))

theorem label_tracks (follows : Follows tail head c d) :
    Tracks Never label label c d fun a b c' d' => b.1 = a.1 ∧ Beside tail c' d' := by
  refine .bind (skip_tracks seam follows) fun _ _ _ _ meets => .get ?_
  refine .bind (name_tracks seam meets.follows) ?_
  rintro name _ _ _ ⟨rfl, beside⟩
  refine .ite .rfl (fun _ => .bind (P := fun _ _ _ _ => False) .fail nofun) fun _ => .locationFrom ?_
  exact .bind (eat_tracks seam (.beside beside) (by decide)) fun _ _ _ _ beside =>
    .pure ⟨rfl, beside⟩

theorem bound_tracks (follows : Follows tail head c d) :
    Tracks (fun _ c' => c'.after = []) bound bound c d fun a b c' d' =>
      b = a ∧ Follows tail head c' d' := by
  refine .bind (skip_tracks seam follows) fun _ _ a b meets => .get ?_
  by_cases ended : a.after = []
  · obtain ⟨source, before, after⟩ := a
    subst ended
    exact .lose ⟨.refl _, rfl⟩
  · have beside := meets.beside ended
    have digit (x : CodePoint) (first : x ∈ tail.head?) :
        (decide (0x30 ≤ x.toNat) && decide (x.toNat ≤ 0x39)) = false := by
      rw [seam.apart x first]
      decide
    rw [beside.after, takeWhile_apart digit]
    refine .ite .rfl (fun _ => ?_) fun _ => .ite .rfl (fun _ => .fail) fun _ => ?_
    · refine .bind (nameAhead_level seam meets ended) ?_
      rintro named _ _ _ ⟨rfl, rfl, meets'⟩
      refine .ite .rfl (fun _ => ?_) fun _ => .pure ⟨rfl, meets'.follows⟩
      refine .bind (name_tracks seam meets'.follows) ?_
      rintro name _ _ _ ⟨rfl, beside⟩
      exact .pure ⟨rfl, .beside beside⟩
    · refine .set (.pure ⟨rfl, .beside (beside.advance ?_)⟩)
      exact (List.takeWhile_sublist _).length_le

theorem bounds_tracks (follows : Follows tail head c d) :
    Tracks (fun _ c' => c'.after = []) bounds bounds c d fun a b c' d' =>
      b.1.1 = a.1.1 ∧ b.2.1 = a.2.1 ∧ Follows tail head c' d' := by
  have dots : (Text.ofString "..").isMark = true := by decide
  refine .bind (skip_tracks seam follows) fun _ _ _ _ meets => .get ?_
  refine .bindUnless (bound_tracks seam meets.follows) (fun low c' ended => ?_) ?_
  · refine .bind (tryEat_end dots ended) ?_
    rintro _ _ _ ⟨rfl, rfl⟩
    cases low with
    | none => exact .get (.fail (.refl _))
    | some low => exact .pure ended
  · rintro low _ _ _ ⟨rfl, follows⟩
    refine .bind (tryEat_tracks seam follows dots) ?_
    rintro found _ _ _ ⟨rfl, follows⟩
    refine .ite .rfl (fun _ => ?_) fun _ => ?_
    · refine .bind (skip_tracks seam follows) fun _ _ _ _ meets => .get ?_
      refine .bindUnless (bound_tracks seam meets.follows) (fun _ _ ended => .pure ended) ?_
      rintro high _ _ _ ⟨rfl, follows⟩
      exact .pure ⟨rfl, rfl, follows⟩
    · split
      · exact .pure ⟨rfl, rfl, follows⟩
      · exact .get .fail

end Seam

end Scan

end PegCompiler
