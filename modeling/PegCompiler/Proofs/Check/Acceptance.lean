import PegCompiler.Compile.Stage

/-!
What it means that a stage has nothing against a grammar. A finding is severe if it is fatal or an
error, and a trail is clear if it has neither faults nor severe findings. A stage that does not fail
has only passes with clear results (`Stage.clear_of_run`), and one whose passes all have clear
results does not fail (`Stage.run_of_clear`).
-/

namespace PegCompiler

namespace Diagnostic

/-- The stage that finds it rejects the grammar. -/
def IsSevere (diagnostic : Diagnostic) : Prop :=
  diagnostic.severity = .fatal ∨ diagnostic.severity = .error

end Diagnostic

/-- Neither a fault nor a severe finding. -/
def Trail.IsClear (trail : Trail Diagnostic) : Prop :=
  ∀ entry ∈ trail, ∃ diagnostic, entry = .ok diagnostic ∧ ¬diagnostic.IsSevere

namespace Trail

variable {α : Type} {trail first second : Trail Diagnostic}

theorem isClear_nil : IsClear [] := by simp [IsClear]

@[simp]
theorem isClear_append : IsClear (first ++ second) ↔ first.IsClear ∧ second.IsClear :=
  List.forall_mem_append

@[simp]
theorem isClear_flatMap {items : List α} {f : α → Trail Diagnostic} :
    IsClear (items.flatMap f) ↔ ∀ a ∈ items, (f a).IsClear := by
  simp only [IsClear, List.mem_flatMap, forall_exists_index, and_imp]
  constructor
  · intro h a ha entry he
    exact h entry a ha he
  · intro h entry a ha he
    exact h a ha entry he

/-- A severe finding is in the way. -/
theorem IsClear.not_severe (h : trail.IsClear) (diagnostic : Diagnostic)
    (severe : diagnostic.IsSevere) : (.ok diagnostic : Except TreeFault Diagnostic) ∉ trail := by
  intro found
  obtain ⟨other, same, mild⟩ := h _ found
  cases same
  exact mild severe

theorem not_isClear_fault (fault : TreeFault) (h : (.error fault) ∈ trail) : ¬trail.IsClear := by
  intro clear
  obtain ⟨_, same, -⟩ := clear _ h
  cases same

/-- A trail without a fault is what was found on it. -/
theorem eq_of_fault?_eq_none (trail : Trail α) (h : trail.fault? = none) :
    trail = trail.cut.1.map .ok := by
  induction trail with
  | nil => rfl
  | cons entry rest ih =>
    cases entry with
    | error fault => cases h
    | ok found =>
      have rest := ih h
      rw [cut, List.map_cons, ← rest]

theorem cut_map_ok (found : List α) : cut (found.map .ok) = (found, none) := by
  induction found with
  | nil => rfl
  | cons a rest ih => simp [cut, ih]

/-- A trail without faults is what was found on it. -/
theorem exists_map_ok {trail : Trail α} (h : ∀ entry ∈ trail, ∃ found, entry = .ok found) :
    ∃ found : List α, trail = found.map .ok := by
  induction trail with
  | nil => exact ⟨[], rfl⟩
  | cons entry rest ih =>
    obtain ⟨a, rfl⟩ := h entry (by simp)
    obtain ⟨found, rfl⟩ := ih fun entry member => h entry (by simp [member])
    exact ⟨a :: found, rfl⟩

theorem mem_of_mem_cut {trail : Trail α} {found : α} (h : found ∈ trail.cut.1) :
    .ok found ∈ trail := by
  induction trail with
  | nil => simp [cut] at h
  | cons entry rest ih =>
    cases entry with
    | error fault => simp [cut] at h
    | ok first =>
      rcases List.mem_cons.mp h with rfl | h
      · simp
      · exact List.mem_cons_of_mem _ (ih h)

end Trail

/-- The pass ran through and found nothing severe. -/
structure PassResult.IsClear (result : PassResult) : Prop where
  failure : result.failure = none
  found : ∀ diagnostic ∈ result.found, ¬diagnostic.IsSevere

namespace Pass

variable {g : Grammar} {trail : Trail Diagnostic}

theorem checked_isClear : (checked g trail).IsClear ↔ trail.IsClear := by
  constructor
  · intro h
    have whole := Trail.eq_of_fault?_eq_none trail (by simpa [checked, Trail.fault?] using h.failure)
    rw [whole]
    simpa [Trail.IsClear, checked] using h.found
  · intro h
    obtain ⟨found, rfl⟩ := Trail.exists_map_ok fun entry member =>
      (h entry member).imp fun _ clear => clear.1
    constructor
    · simp [checked, Trail.cut_map_ok]
    · simpa [Trail.IsClear, checked, Trail.cut_map_ok] using h

end Pass

namespace Record

variable {record after : Record} {found seen : List Diagnostic}

theorem add_clear {diagnostic : Diagnostic} (h : record.add diagnostic = .ok after)
    (none : after.errors = 0) : record.errors = 0 ∧ ¬diagnostic.IsSevere := by
  unfold add at h
  split at h
  · cases h
  · cases h
    simp at none
  all_goals
    rename_i mild
    cases h
    exact ⟨none, by simp [Diagnostic.IsSevere, mild]⟩

theorem addAll_clear (h : record.addAll found = (seen, .ok after)) (none : after.errors = 0) :
    record.errors = 0 ∧ ∀ diagnostic ∈ found, ¬diagnostic.IsSevere := by
  induction found generalizing record seen with
  | nil =>
    cases h
    exact ⟨none, by simp⟩
  | cons diagnostic rest ih =>
    unfold addAll at h
    split at h
    · cases h
    · rename_i middle added
      rcases further : middle.addAll rest with ⟨others, outcome⟩
      rw [further] at h
      cases h
      obtain ⟨before, clear⟩ := ih further
      obtain ⟨start, mild⟩ := add_clear added before
      exact ⟨start, by simpa [mild] using clear⟩

variable (record) in
theorem add_of_clear {diagnostic : Diagnostic} (mild : ¬diagnostic.IsSevere) :
    ∃ after, record.add diagnostic = .ok after ∧ after.errors = record.errors := by
  unfold Diagnostic.IsSevere at mild
  unfold add
  split
  · simp_all
  · simp_all
  all_goals exact ⟨_, rfl, rfl⟩

variable (record) in
theorem addAll_of_clear (clear : ∀ diagnostic ∈ found, ¬diagnostic.IsSevere) :
    ∃ seen after, record.addAll found = (seen, .ok after) ∧ after.errors = record.errors := by
  induction found generalizing record with
  | nil => exact ⟨[], record, rfl, rfl⟩
  | cons diagnostic rest ih =>
    obtain ⟨middle, added, same⟩ := add_of_clear record (clear diagnostic (by simp))
    obtain ⟨seen, after, others, still⟩ := ih middle fun d hd => clear d (by simp [hd])
    refine ⟨diagnostic :: seen, after, ?_, still.trans same⟩
    simp [addAll, added, others]

end Record

namespace Stage

variable {settings : Settings} {g : Grammar} {steps : List Step}

/-- The steps of a stage that leaves the grammar alone all have clear results. -/
theorem clear_of_runSteps {number : Nat} {record : Record}
    (alone : ∀ step ∈ steps, (runStep settings g step).grammar = g)
    (runs : (runSteps settings number record g steps).1.failure = none)
    (none : (runSteps settings number record g steps).2.errors = 0) :
    record.errors = 0 ∧ ∀ step ∈ steps, (runStep settings g step).IsClear := by
  induction steps generalizing number record with
  | nil => exact ⟨none, by simp⟩
  | cons step rest ih =>
    rw [runSteps] at runs none
    generalize opened : (⟨record.problems ++ [_], record.errors⟩ : Record) = start at runs none
    have same : start.errors = record.errors := by rw [← opened]
    rcases taken : start.addAll (runStep settings g step).found with ⟨seen, outcome⟩
    simp only [taken] at runs none
    cases outcome with
    | error rejection => cases runs
    | ok after =>
      cases failed : (runStep settings g step).failure with
      | some failure =>
        rw [failed] at runs
        cases runs
      | none =>
        rw [failed, alone step (by simp)] at runs none
        obtain ⟨before, others⟩ := ih (fun s hs => alone s (by simp [hs])) runs none
        obtain ⟨first, clear⟩ := Record.addAll_clear taken before
        refine ⟨same ▸ first, ?_⟩
        simpa using ⟨⟨failed, clear⟩, others⟩

/-- A stage of checks that does not fail has nothing severe to say. -/
theorem clear_of_run {stage : Stage}
    (alone : ∀ step ∈ stage.steps, (runStep settings g step).grammar = g)
    (runs : (stage.run settings g).failure = none) :
    ∀ step ∈ stage.steps, (runStep settings g step).IsClear := by
  unfold run at runs
  simp only at runs
  split at runs
  · cases runs
  · rename_i through
    split at runs
    · exact (clear_of_runSteps alone through ‹_›).2
    · cases runs

/-- Passes with clear results, each on the grammar that the one before it leaves. -/
inductive Clear (settings : Settings) : Grammar → List Step → Grammar → Prop
  | nil {g : Grammar} : Clear settings g [] g
  | cons {g final : Grammar} {step : Step} {rest : List Step} :
    (runStep settings g step).IsClear →
    Clear settings (runStep settings g step).grammar rest final →
    Clear settings g (step :: rest) final

theorem runSteps_of_clear {final : Grammar} (clear : Clear settings g steps final) (number : Nat)
    (record : Record) :
    (runSteps settings number record g steps).1.failure = none ∧
      (runSteps settings number record g steps).1.grammar = final ∧
      (runSteps settings number record g steps).2.errors = record.errors := by
  induction clear generalizing number record with
  | nil => exact ⟨rfl, rfl, rfl⟩
  | @cons g final step rest here _ ih =>
    rw [runSteps]
    generalize opened : (⟨record.problems ++ [_], record.errors⟩ : Record) = start
    obtain ⟨seen, after, taken, same⟩ := Record.addAll_of_clear start here.found
    simp only [taken, here.failure]
    obtain ⟨failure, grammar, errors⟩ := ih (number + 1) after
    exact ⟨failure, grammar, by rw [errors, same, ← opened]⟩

/-- A stage whose passes have clear results does not fail. -/
theorem run_of_clear {stage : Stage} {final : Grammar} (clear : Clear settings g stage.steps final) :
    (stage.run settings g).failure = none ∧ (stage.run settings g).grammar = final := by
  obtain ⟨failure, grammar, errors⟩ := runSteps_of_clear clear 0
    { problems := [⟨.stageStarted stage.name, none⟩] }
  unfold run
  simp only [failure, errors, ↓reduceIte]
  exact ⟨trivial, grammar⟩

/-- Behind a stage whose passes have clear results the next one begins. -/
theorem runAll_of_clear (stage : Stage) {final : Grammar}
    (clear : Clear settings g stage.steps final) (rest : List Stage) :
    (runAll settings g (stage :: rest)).failure = (runAll settings final rest).failure ∧
      (runAll settings g (stage :: rest)).grammar = (runAll settings final rest).grammar := by
  obtain ⟨failure, grammar⟩ := run_of_clear clear
  simp only [runAll, failure, grammar, and_self]

/-- A pass that finds nothing. -/
theorem Clear.pass {pass : Pass} {after final : Grammar}
    (runs : pass.run settings g = ⟨after, [], none⟩) (rest : Clear settings after steps final) :
    Clear settings g (.pass pass :: steps) final := by
  have result : runStep settings g (.pass pass) = ⟨after, [], none⟩ := runs
  refine .cons ?_ ?_
  · rw [result]
    exact ⟨rfl, by simp⟩
  · rw [result]
    exact rest

/-- Passes that leave the grammar alone. -/
theorem Clear.of_alone (alone : ∀ step ∈ steps, (runStep settings g step).grammar = g)
    (clear : ∀ step ∈ steps, (runStep settings g step).IsClear) : Clear settings g steps g := by
  induction steps with
  | nil => exact .nil
  | cons step rest ih =>
    refine .cons (clear step (by simp)) ?_
    rw [alone step (by simp)]
    exact ih (fun s hs => alone s (by simp [hs])) fun s hs => clear s (by simp [hs])

end Stage

namespace Grammar

/-- The settings of samples, which start with `s`. -/
def plainSettings : Settings where
  startRules := [.text "s"]
  cache := false
  trace := false
  output := .one .parser
  format := .bare
  dependencies := .record []
  exportVar := none
  collector := .null

end Grammar

end PegCompiler
