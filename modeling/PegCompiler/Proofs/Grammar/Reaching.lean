import PegCompiler.Grammar.Reader
import PegCompiler.Proofs.Grammar.CodeBlocks

/-!
Where a scan ends. `Scan.Reaches` says that a scan leads on in the text to a place and a finding with
some property, and that an error of it lies in the same text. Each way to put scans together has a rule
for it, and the pieces that a grammar is written with come first.
-/

namespace PegCompiler

namespace Cursor

variable {c d e : Cursor}

/-- Two places in one text. -/
def SameText (c d : Cursor) : Prop := d.whole = c.whole ∧ d.source = c.source

theorem SameText.refl (c : Cursor) : c.SameText c := ⟨rfl, rfl⟩

theorem SameText.trans (h : c.SameText d) (k : d.SameText e) : c.SameText e :=
  ⟨k.1.trans h.1, k.2.trans h.2⟩

theorem SameText.symm (h : c.SameText d) : d.SameText c := ⟨h.1.symm, h.2.symm⟩

theorem Leads.sameText (h : c.Leads d) : c.SameText d := by
  obtain ⟨t, reads⟩ := h
  exact ⟨reads.whole, reads.source⟩

end Cursor

namespace Scan

/-- From `c` on, `scan` leads to a place and a finding with the property `Q`, or it notices an error in
the text. -/
def Reaches {α : Type} (scan : Scan α) (c : Cursor) (Q : α → Cursor → Prop) : Prop :=
  match scan c with
  | .ok (found, d) => c.Leads d ∧ Q found d
  | .error error => c.SameText error.cursor

section Reaches

variable {α β : Type} {scan : Scan α} {next : α → Scan β} {c d : Cursor}
variable {P Q : α → Cursor → Prop} {R : β → Cursor → Prop}

theorem Reaches.pure {a : α} (h : Q a c) : Reaches (pure a) c Q := ⟨.refl c, h⟩

theorem Reaches.bind (first : Reaches scan c P)
    (second : ∀ a d, c.Leads d → P a d → Reaches (next a) d R) : Reaches (scan >>= next) c R := by
  unfold Reaches at first ⊢
  cases run : scan c with
  | error fault =>
    rw [run] at first
    rw [run_bind_error run]
    exact first
  | ok result =>
    obtain ⟨a, d⟩ := result
    rw [run] at first
    rw [run_bind run]
    have rest := second a d first.1 first.2
    unfold Reaches at rest
    cases again : next a d with
    | error fault =>
      rw [again] at rest
      exact first.1.sameText.trans rest
    | ok result =>
      rw [again] at rest
      exact ⟨first.1.trans rest.1, rest.2⟩

theorem Reaches.mono (h : Reaches scan c P) (imp : ∀ a d, c.Leads d → P a d → Q a d) :
    Reaches scan c Q := by
  unfold Reaches at h ⊢
  split at h
  · exact ⟨h.1, imp _ _ h.1 h.2⟩
  · exact h

theorem Reaches.discard {next : PUnit → Scan β} (first : Reaches scan c P)
    (rest : ∀ a d, c.Leads d → P a d → Reaches (next ⟨⟩) d R) :
    Reaches (discard scan >>= next) c R :=
  .bind (P := fun _ d => ∃ a, P a d)
    (.bind first fun a _ _ holds => .pure ⟨a, holds⟩) fun _ d leads ⟨a, holds⟩ => rest a d leads holds

/-- The scan was run. -/
theorem Reaches.ran (h : Reaches scan c P) : Reaches scan c fun a d => scan c = .ok (a, d) := by
  unfold Reaches at h ⊢
  split at h
  · exact ⟨h.1, ‹_›⟩
  · exact h

/-- A scan that was run from the place leads to what it was seen to lead to. -/
theorem Reaches.of_run {a : α} (h : Reaches scan c P) (run : scan c = .ok (a, d)) :
    Reaches scan c fun b e => b = a ∧ e = d :=
  h.ran.mono fun b e _ again => by
    rw [run] at again
    cases again
    exact ⟨rfl, rfl⟩

theorem Reaches.of_error {error : SyntaxError} (h : Reaches scan c P) (run : scan c = .error error) :
    Reaches scan c Q := by
  unfold Reaches at h ⊢
  rw [run] at h ⊢
  exact h

theorem Reaches.fail {fault : SyntaxFault} (same : c.SameText d) : Reaches (fail fault d) c Q := same

theorem Reaches.get {next : Cursor → Scan α} (rest : Reaches (next c) c Q) :
    Reaches (get >>= next) c Q := rest

theorem Reaches.set {next : PUnit → Scan α} (leads : c.Leads d) (rest : Reaches (next ⟨⟩) d Q) :
    Reaches (set d >>= next) c Q :=
  .bind (P := fun _ e => e = d) ⟨leads, rfl⟩ fun _ _ _ same => same ▸ rest

theorem Reaches.modify {f : Cursor → Cursor} {next : PUnit → Scan α} (leads : c.Leads (f c))
    (rest : Reaches (next ⟨⟩) (f c) Q) : Reaches (modify f >>= next) c Q :=
  .bind (P := fun _ e => e = f c) ⟨leads, rfl⟩ fun _ _ _ same => same ▸ rest

theorem Reaches.locationFrom {first : Cursor} {next : Location → Scan α}
    (rest : Reaches (next (first.locationBetween c)) c Q) : Reaches (locationFrom first >>= next) c Q :=
  rest

theorem Reaches.ite {p : Prop} [Decidable p] {yes no : Scan α} (hyes : p → Reaches yes c Q)
    (hno : ¬p → Reaches no c Q) : Reaches (if p then yes else no) c Q := by
  split
  · exact hyes ‹_›
  · exact hno ‹_›

/-- Looking ahead stays at the place, whatever is found. -/
theorem Reaches.lookAhead (h : Reaches scan c P) : Reaches (lookAhead scan) c fun _ d => d = c := by
  unfold Reaches Scan.lookAhead
  rw [Reaches] at h
  cases run : scan c with
  | ok result => exact ⟨.refl c, rfl⟩
  | error error =>
    rw [run] at h
    exact h

end Reaches

/-- Whatever the scan finds. -/
abbrev Runs {α : Type} (scan : Scan α) (c : Cursor) : Prop := Reaches scan c fun _ _ => True

variable {c opening : Cursor} {quote : CodePoint} {literal : Text}

theorem skip_reaches (c : Cursor) :
    Reaches skip c fun _ d => IsSettled d ∧ (IsSettled c → d = c) := by
  have leads := skipFrom_leads (c.after.length + 1) c
  unfold Reaches
  cases run : skip c with
  | error fault =>
    cases found : skipFrom (c.after.length + 1) c with
    | error other =>
      simp only [skip, found] at run
      cases run
      rw [found] at leads
      exact leads.sameText
    | ok d =>
      simp only [skip, found] at run
      cases run
  | ok result =>
    obtain ⟨u, d⟩ := result
    obtain ⟨leads, settled⟩ := skip_ok run
    refine ⟨leads, settled, fun already => ?_⟩
    rw [skip_of_settled already] at run
    cases run
    rfl

/-- Where there is nothing to skip, skipping does nothing. -/
theorem Reaches.settled {α : Type} {next : Unit → Scan α} {Q : α → Cursor → Prop}
    (settled : IsSettled c) (rest : Reaches (next ()) c Q) : Reaches (skip >>= next) c Q :=
  .bind (skip_reaches c) fun _ _ _ holds => holds.2 settled ▸ rest

theorem ahead_reaches : Reaches ahead c fun found d => found = d.peek? :=
  .bind (skip_reaches c) fun _ _ _ _ => .get (.pure rfl)

theorem eat_runs : Runs (eat literal) c :=
  .bind (skip_reaches c) fun _ d _ _ => .get
    (.ite (fun _ => ⟨.advance _ d, trivial⟩) fun _ => .fail (.refl d))

theorem eat_reaches : Reaches (eat literal) c fun _ _ =>
    ∃ a, skip c = .ok ((), a) ∧ a.startsWith literal = true :=
  .bind (skip_reaches c).ran fun _ a _ skipped => .get
    (.ite (fun starts => ⟨.advance _ a, a, skipped, starts⟩) fun _ => .fail (.refl a))

theorem tryEat_runs : Runs (tryEat literal) c :=
  .bind (skip_reaches c) fun _ d _ _ => .get
    (.ite (fun _ => .set (.advance _ d) (.pure trivial)) fun _ => .pure trivial)

/-- A name stands behind what is skipped in front of it. -/
theorem name_reaches : Reaches name c fun found d =>
    ∃ a, c.Leads a ∧ (IsSettled c → a = c) ∧ a.Reads found d := by
  refine .bind (skip_reaches c) fun _ a leads settled => .get ?_
  split
  · rename_i split
    have reads := Cursor.Reads.advance (Text.splitName?_append split).symm
    exact .set ⟨_, reads⟩ (.pure ⟨a, leads, settled.2, reads⟩)
  · exact .fail (.refl a)

theorem nameAhead_runs : Runs nameAhead c :=
  .bind (skip_reaches c) fun _ _ _ _ => .get (.pure trivial)

theorem escape_runs : Runs escape c := by
  refine .get ?_
  split
  · exact .fail (.refl c)
  · split
    · exact .set (.next c) (.pure trivial)
    · refine .ite (fun _ => ?_) fun _ => .set (.next c) (.pure trivial)
      dsimp only
      split
      · exact .set (.advance _ c) (.pure trivial)
      · exact .fail (.refl c)

theorem element_runs {x : CodePoint} : Runs (element x) c :=
  .modify (.next c) (.ite (fun _ => escape_runs) fun _ => .pure trivial)

theorem stringBody_runs (fuel : Nat) (same : c.SameText opening) :
    Runs (stringBody opening quote fuel) c := by
  induction fuel generalizing c with
  | zero => exact .fail same
  | succ fuel ih =>
    refine .get ?_
    split
    · exact .fail same
    · refine .ite (fun _ => .fail same) fun _ => .ite (fun _ => .set (.next c) (.pure trivial)) fun _ => ?_
      exact .bind element_runs fun _ d leads _ =>
        .bind (ih (leads.sameText.symm.trans same)) fun _ _ _ _ => .pure trivial

theorem string_runs : Runs string c := by
  refine .get ?_
  split
  · exact .fail (.refl c)
  · exact .set (.next c) (stringBody_runs _ (Cursor.Leads.next c).sameText.symm)

theorem ignoreCaseFlag_runs : Runs ignoreCaseFlag c :=
  .get (.ite (fun _ => .set (.next c) (.pure trivial)) fun _ => .pure trivial)

theorem classElement_runs : Runs classElement c := by
  refine .get ?_
  split
  · exact .fail (.refl c)
  · exact .ite (fun _ => .fail (.refl c)) fun _ => element_runs

theorem classPart_runs : Runs classPart c := by
  refine .get (.bind classElement_runs fun lo d leads _ => .get (.ite (fun _ => ?_) fun _ => .pure trivial))
  refine .modify (.next d) (.bind classElement_runs fun hi e more _ => .ite (fun _ => ?_) fun _ => ?_)
  · exact .bind (P := fun _ _ => False)
      (.fail ((leads.trans (.next d)).trans more).sameText.symm) nofun
  · exact .pure trivial

theorem classParts_runs (fuel : Nat) : Runs (classParts fuel) c := by
  induction fuel generalizing c with
  | zero => exact .get (.fail (.refl c))
  | succ fuel ih =>
    refine .get (.ite (fun _ => .set (.next c) (.pure trivial)) fun _ => ?_)
    exact .bind classPart_runs fun _ _ _ _ => .bind ih fun _ _ _ _ => .pure trivial

/-- A piece of the text behind the place `c`, with the location where it stands. -/
def Excerpt (c : Cursor) (found : Text × Location) (d : Cursor) : Prop :=
  ∃ a b, c.Leads a ∧ a.Reads found.1 b ∧ b.Leads d ∧ found.2 = a.locationBetween b

theorem code_reaches : Reaches code c (Excerpt c) := by
  refine .bind (skip_reaches c) fun _ a leads _ => .get (.ite (fun _ => ?_) fun _ => ?_)
  · exact .bind (P := fun _ _ => False) (.fail (.refl a)) nofun
  · split
    · rename_i closing found
      obtain ⟨t, reads, -⟩ := codeEnd?_sound found
      have inner := Cursor.Leads.next a
      refine .set ((inner.trans ⟨t, reads⟩).trans (.next closing)) (.pure ?_)
      exact ⟨a.next, closing, leads.trans inner, reads.textBetween.symm ▸ reads, .next closing, rfl⟩
    · exact .fail (.refl a)

theorem label_reaches : Reaches label c (Excerpt c) := by
  refine .bind (skip_reaches c) fun _ a leads settled => .get (.bind name_reaches fun found b _ named => ?_)
  obtain ⟨a', -, same, reads⟩ := named
  obtain rfl := same settled.1
  refine .ite (fun _ => ?_) fun _ => .locationFrom ?_
  · exact .bind (P := fun _ _ => False) (.fail (Cursor.Leads.sameText ⟨_, reads⟩).symm) nofun
  · exact .bind eat_runs fun _ d behind _ => .pure ⟨_, b, leads, reads, behind, rfl⟩

theorem bound_runs : Runs bound c := by
  refine .bind (skip_reaches c) fun _ a _ _ =>
    .get (.ite (fun _ => ?_) fun _ => .ite (fun _ => .fail (.refl a)) fun _ => ?_)
  · refine .bind nameAhead_runs fun _ b _ _ => .ite (fun _ => ?_) fun _ => .pure trivial
    exact .bind name_reaches fun _ _ _ _ => .pure trivial
  · exact .set (.advance _ a) (.pure trivial)

/-- The places kept with the bounds of a range are places in the text. -/
theorem bounds_reaches : Reaches bounds c fun found d =>
    d.SameText found.1.2 ∧ d.SameText found.2.2 := by
  refine .bind (skip_reaches c) fun _ a _ _ => .get (.bind bound_runs fun low b first _ => ?_)
  refine .bind tryEat_runs fun _ d second _ => .ite (fun _ => ?_) fun _ => ?_
  · refine .bind (skip_reaches d) fun _ e third _ => .get (.bind bound_runs fun high f fourth _ => ?_)
    exact .pure ⟨(((first.trans second).trans third).trans fourth).sameText.symm, fourth.sameText.symm⟩
  · split
    · exact .pure ⟨(first.trans second).sameText.symm, (first.trans second).sameText.symm⟩
    · exact .get (.fail (.refl d))

theorem checkBounds_reaches {found : (Boundary × Cursor) × (Boundary × Cursor)}
    (low : c.SameText found.1.2) (high : c.SameText found.2.2) :
    Reaches (checkBounds found) c fun _ d => d = c := by
  unfold checkBounds
  split
  split
  · exact .fail high
  · exact .ite (fun _ => .fail low) fun _ => .pure rfl
  · exact .pure rfl

theorem labelAhead_reaches : Reaches labelAhead c fun _ d => d = c := by
  refine .lookAhead (P := fun _ _ => True) (.bind nameAhead_runs fun named d _ _ => ?_)
  refine .ite (fun _ => .pure trivial) fun _ => .discard name_reaches fun _ e _ _ => ?_
  exact .bind (skip_reaches e) fun _ _ _ _ => .get (.pure trivial)

theorem ruleHeadAhead_reaches : Reaches ruleHeadAhead c fun _ d => d = c := by
  unfold Reaches ruleHeadAhead
  cases ruleHead c <;> exact ⟨.refl c, rfl⟩

theorem sequenceEnds_runs : Runs sequenceEnds c := by
  refine .bind ahead_reaches fun found a _ _ => ?_
  split
  · exact .pure trivial
  · exact .ite (fun _ => .pure trivial) fun _ => ruleHeadAhead_reaches.mono fun _ _ _ _ => trivial

end Scan

end PegCompiler
