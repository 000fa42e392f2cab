import PegCompiler.Compile.Output

/-!
How far a compilation goes, and what is heard of it. `Stage.script` is what a stage would do and say if
nothing stopped it. Against that script the run of a stage ends at the first fatal diagnostic, or behind
its last step if there was an error; then no later stage begins (`Grammar.compile_stages`). Every stage
counts and keeps its own problems only.
-/

namespace PegCompiler

/-- A diagnostic that ends everything. -/
def Diagnostic.isFatal (diagnostic : Diagnostic) : Bool := diagnostic.severity == .fatal

def Diagnostic.isError (diagnostic : Diagnostic) : Bool := diagnostic.severity == .error

namespace Event

def diagnostic? : Event → Option Diagnostic
  | found diagnostic => some diagnostic
  | _ => none

/-- What is said in the course of events. -/
def diagnostics (events : List Event) : List Diagnostic := events.filterMap diagnostic?

/-- How many errors there are among the events. -/
def errors (events : List Event) : Nat := (diagnostics events).countP Diagnostic.isError

def isFatal : Event → Bool
  | found diagnostic => diagnostic.isFatal
  | _ => false

/-- Nothing is fatal. -/
def IsMild (events : List Event) : Prop := ∀ event ∈ events, event.isFatal = false

/-- The events up to the first fatal diagnostic. -/
inductive StopsAt : List Event → List Event → Diagnostic → Prop
  | here {fatal : Diagnostic} {rest : List Event} : fatal.isFatal = true →
    StopsAt (.found fatal :: rest) [.found fatal] fatal
  | later {event : Event} {rest upTo : List Event} {fatal : Diagnostic} : event.isFatal = false →
    StopsAt rest upTo fatal → StopsAt (event :: rest) (event :: upTo) fatal

section Lists

variable {first second upTo : List Event} {fatal : Diagnostic} {found : List Diagnostic}

@[simp] theorem diagnostics_append :
    diagnostics (first ++ second) = diagnostics first ++ diagnostics second :=
  List.filterMap_append

@[simp] theorem diagnostics_map_found : diagnostics (found.map .found) = found := by
  simp [diagnostics, Function.comp_def, diagnostic?]

@[simp] theorem errors_append : errors (first ++ second) = errors first + errors second := by
  simp [errors]

theorem isMild_nil : IsMild [] := List.forall_mem_nil _

theorem isMild_append : IsMild (first ++ second) ↔ IsMild first ∧ IsMild second :=
  List.forall_mem_append

theorem isMild_map_found : IsMild (found.map .found) ↔ ∀ d ∈ found, d.isFatal = false :=
  List.forall_mem_map

/-- Either nothing is fatal, or something is first. -/
theorem isMild_or_stopsAt (events : List Event) :
    IsMild events ∨ ∃ upTo fatal, StopsAt events upTo fatal := by
  induction events with
  | nil => exact .inl isMild_nil
  | cons event rest ih =>
    cases h : event.isFatal with
    | false =>
      rcases ih with others | ⟨upTo, fatal, stops⟩
      · exact .inl (List.forall_mem_cons.mpr ⟨h, others⟩)
      · exact .inr ⟨_, _, .later h stops⟩
    | true =>
      cases event with
      | found d => exact .inr ⟨_, _, .here h⟩
      | stage | pass => cases h

/-- The first fatal diagnostic of two rows is that of the first row, if there is one. -/
theorem stopsAt_append (stops : StopsAt (first ++ second) upTo fatal) :
    StopsAt first upTo fatal ∨
      IsMild first ∧ ∃ rest, StopsAt second rest fatal ∧ upTo = first ++ rest := by
  induction first generalizing upTo with
  | nil => exact .inr ⟨isMild_nil, upTo, stops, rfl⟩
  | cons event others ih =>
    cases stops with
    | here isFatal => exact .inl (.here isFatal)
    | later mild stops =>
      rcases ih stops with here | ⟨clear, rest, behind, rfl⟩
      · exact .inl (.later mild here)
      · exact .inr ⟨List.forall_mem_cons.mpr ⟨mild, clear⟩, rest, behind, rfl⟩

theorem StopsAt.not_isMild (stops : StopsAt first upTo fatal) : ¬IsMild first := by
  intro mild
  induction stops with
  | here isFatal => exact absurd ((List.forall_mem_cons.mp mild).1) (by simp [isFatal, Event.isFatal])
  | later _ _ ih => exact ih (List.forall_mem_cons.mp mild).2

theorem StopsAt.split (stops : StopsAt first upTo fatal) : fatal.isFatal = true ∧
    ∃ before after, first = before ++ .found fatal :: after ∧ IsMild before ∧
      upTo = before ++ [.found fatal] := by
  induction stops with
  | here isFatal => exact ⟨isFatal, [], _, rfl, isMild_nil, rfl⟩
  | later mild _ ih =>
    obtain ⟨isFatal, before, after, rfl, others, rfl⟩ := ih
    exact ⟨isFatal, _ :: before, after, rfl, List.forall_mem_cons.mpr ⟨mild, others⟩, rfl⟩

end Lists

end Event

namespace Record

open Event

variable (record : Record) {found : List Diagnostic}

/-- The record with more that is found. -/
def extended (found : List Diagnostic) : Record :=
  ⟨record.problems ++ found, record.errors + found.countP Diagnostic.isError⟩

theorem extended_extended (first second : List Diagnostic) :
    (record.extended first).extended second = record.extended (first ++ second) := by
  simp [extended, Nat.add_assoc]

theorem add_mild {diagnostic : Diagnostic} (mild : diagnostic.isFatal = false) :
    record.add diagnostic = .ok (record.extended [diagnostic]) := by
  cases h : diagnostic.severity <;>
    simp_all [add, extended, Diagnostic.isFatal, Diagnostic.isError]

theorem add_fatal {diagnostic : Diagnostic} (isFatal : diagnostic.isFatal = true) :
    record.add diagnostic = .error ⟨diagnostic.message, diagnostic.location, []⟩ := by
  have severity : diagnostic.severity = .fatal := by simpa [Diagnostic.isFatal] using isFatal
  rw [add, severity]

/-- All that is found is taken down if nothing is fatal. -/
theorem addAll_mild (mild : ∀ d ∈ found, d.isFatal = false) :
    record.addAll found = (found, .ok (record.extended found)) := by
  induction found generalizing record with
  | nil => simp [addAll, extended]
  | cons d rest ih =>
    obtain ⟨here, others⟩ := List.forall_mem_cons.mp mild
    rw [addAll, add_mild record here]
    dsimp only
    rw [ih (record.extended [d]) others, extended_extended]
    rfl

/-- What is found is looked at up to the first fatal diagnostic, which is a rejection. -/
theorem addAll_fatal {upTo : List Event} {fatal : Diagnostic}
    (stops : StopsAt (found.map .found) upTo fatal) : ∃ seen, upTo = seen.map .found ∧
      record.addAll found = (seen, .error ⟨fatal.message, fatal.location, []⟩) := by
  induction found generalizing record upTo with
  | nil => cases stops
  | cons d rest ih =>
    cases stops with
    | here isFatal =>
      refine ⟨[fatal], rfl, ?_⟩
      rw [addAll, add_fatal record isFatal]
    | later mild stops =>
      obtain ⟨seen, rfl, taken⟩ := ih (record.extended [d]) stops
      exact ⟨d :: seen, rfl, by simp only [addAll, add_mild record mild, taken]⟩

end Record

namespace Stage

open Event

variable {settings : Settings} {g : Grammar} {step : Step} {steps rest : List Step} {number : Nat}

/-- What a step says, with its announcement. -/
def stepScript (settings : Settings) (number : Nat) (g : Grammar) (step : Step) : List Event :=
  .found ⟨.passStarted number, none⟩ :: (stepEvents step ++
    (runStep settings g step).found.map .found)

/-- What steps do and say, each on the grammar that the one before it leaves, up to one that breaks
off. -/
def stepsScript (settings : Settings) : (number : Nat) → Grammar → List Step → Compilation
  | _, g, [] => { grammar := g }
  | number, g, step :: rest =>
    match (runStep settings g step).failure with
    | some failure =>
      ⟨(runStep settings g step).grammar, stepScript settings number g step, some failure⟩
    | none =>
      let further := stepsScript settings (number + 1) (runStep settings g step).grammar rest
      { further with events := stepScript settings number g step ++ further.events }

/-- What a stage would do and say if neither a fatal diagnostic nor errors were in the way. -/
def script (settings : Settings) (g : Grammar) (stage : Stage) : Compilation :=
  let steps := stepsScript settings 0 g stage.steps
  { steps with events := [.found ⟨.stageStarted stage.name, none⟩,
      .stage stage.name stage.steps.length] ++ steps.events }

theorem isMild_stepEvents : IsMild (stepEvents step) := by
  cases step with
  | pass => exact List.forall_mem_cons.mpr ⟨rfl, isMild_nil⟩
  | report => exact isMild_nil

theorem isMild_stepScript : IsMild (stepScript settings number g step) ↔
    ∀ d ∈ (runStep settings g step).found, d.isFatal = false := by
  rw [stepScript, IsMild, List.forall_mem_cons]
  change _ ∧ IsMild _ ↔ _
  rw [isMild_append, isMild_map_found]
  exact ⟨fun mild => mild.2.2, fun mild => ⟨rfl, isMild_stepEvents, mild⟩⟩

theorem diagnostics_stepScript : diagnostics (stepScript settings number g step) =
    [⟨.passStarted number, none⟩] ++ (runStep settings g step).found := by
  have silent : diagnostics (stepEvents step) = [] := by cases step <;> rfl
  change ⟨.passStarted number, none⟩ :: diagnostics (stepEvents step ++ _) = _
  rw [diagnostics_append, silent, diagnostics_map_found]
  rfl

/-- A step that says something fatal is heard up to there. -/
theorem stepScript_stopsAt (record : Record) {upTo : List Event} {fatal : Diagnostic}
    (stops : StopsAt (stepScript settings number g step) upTo fatal) :
    ∃ seen, upTo = .found ⟨.passStarted number, none⟩ :: (stepEvents step ++ seen.map .found) ∧
      record.addAll (runStep settings g step).found =
        (seen, .error ⟨fatal.message, fatal.location, []⟩) := by
  cases stops with
  | here isFatal => cases isFatal
  | later _ stops =>
    rcases stopsAt_append stops with announcing | ⟨-, others, saying, rfl⟩
    · exact absurd isMild_stepEvents announcing.not_isMild
    · obtain ⟨seen, rfl, taken⟩ := record.addAll_fatal saying
      exact ⟨seen, rfl, taken⟩

/-- The record where a step begins, behind its announcement. -/
theorem announced_eq (record : Record) : (⟨record.problems ++ [⟨.passStarted number, none⟩],
    record.errors⟩ : Record) = record.extended [⟨.passStarted number, none⟩] := by
  simp [Record.extended, Diagnostic.isError, Diagnostic.severity, Finding.severity]

/-- Steps of which none says anything fatal run as their script has it. -/
theorem runSteps_mild (record : Record) (mild : IsMild (stepsScript settings number g steps).events) :
    runSteps settings number record g steps = (stepsScript settings number g steps,
      record.extended (diagnostics (stepsScript settings number g steps).events)) := by
  induction steps generalizing number record g with
  | nil => simp [runSteps, stepsScript, Record.extended, diagnostics]
  | cons step rest ih =>
    rw [runSteps, announced_eq]
    rw [stepsScript] at mild ⊢
    cases failed : (runStep settings g step).failure with
    | some failure =>
      rw [failed] at mild
      simp only [Record.addAll_mild _ (isMild_stepScript.mp mild), Record.extended_extended,
        diagnostics_stepScript]
      rfl
    | none =>
      rw [failed] at mild
      obtain ⟨here, others⟩ := isMild_append.mp mild
      simp only [Record.addAll_mild _ (isMild_stepScript.mp here), Record.extended_extended,
        ih _ others, diagnostics_append, diagnostics_stepScript]
      rfl

/-- Steps of which one says something fatal run up to there. -/
theorem runSteps_fatal (record : Record) {upTo : List Event} {fatal : Diagnostic}
    (stops : StopsAt (stepsScript settings number g steps).events upTo fatal) :
    (runSteps settings number record g steps).1.events = upTo ∧
      (runSteps settings number record g steps).1.failure =
        some (.rejected ⟨fatal.message, fatal.location, []⟩) := by
  induction steps generalizing number record g upTo with
  | nil => cases stops
  | cons step rest ih =>
    -- either this step says something fatal, or it doesn't and the steps behind it do
    have cases : StopsAt (stepScript settings number g step) upTo fatal ∨
        IsMild (stepScript settings number g step) ∧ (runStep settings g step).failure = none ∧
        ∃ others, upTo = stepScript settings number g step ++ others ∧
          StopsAt (stepsScript settings (number + 1) (runStep settings g step).grammar rest).events
            others fatal := by
      rw [stepsScript] at stops
      cases failed : (runStep settings g step).failure with
      | some failure =>
        rw [failed] at stops
        exact .inl stops
      | none =>
        rw [failed] at stops
        rcases stopsAt_append stops with here | ⟨mild, others, behind, same⟩
        · exact .inl here
        · exact .inr ⟨mild, rfl, others, same, behind⟩
    rw [runSteps, announced_eq]
    rcases cases with here | ⟨mild, through, others, rfl, behind⟩
    · obtain ⟨seen, rfl, taken⟩ := stepScript_stopsAt _ here
      rw [taken]
      exact ⟨rfl, rfl⟩
    · obtain ⟨events, failure⟩ := ih (record.extended (_ ++ _)) behind
      simp only [Record.addAll_mild _ (isMild_stepScript.mp mild), Record.extended_extended, through]
      exact ⟨congrArg (stepScript settings number g step ++ ·) events, failure⟩

/-- The rejection behind the last step of a stage: the number of errors, and all that was said. -/
def rejection (name : Text) (events : List Event) : Rejection where
  message := "Stage '" ++ name ++ "' contains " ++ Text.ofNat (errors events) ++ " error(s)."
  problems := diagnostics events

/-- How the run of a stage with this script ends if it keeps later stages from beginning: what there is
of its events, and the failure. -/
inductive Fails (name : Text) (script : Compilation) : List Event → Failure → Prop
  /-- A fatal diagnostic rejects at once, with its message and place and no problems. -/
  | fatal {before after : List Event} {fatal : Diagnostic} :
    script.events = before ++ .found fatal :: after → IsMild before → fatal.isFatal = true →
    Fails name script (before ++ [.found fatal]) (.rejected ⟨fatal.message, fatal.location, []⟩)
  /-- A step breaks off. -/
  | broken {failure : Failure} : IsMild script.events → script.failure = some failure →
    Fails name script script.events failure
  /-- Errors reject behind the last step. -/
  | errors : IsMild script.events → script.failure = none → 0 < Event.errors script.events →
    Fails name script script.events (.rejected (rejection name script.events))

/-- The next stage begins: nothing is fatal or an error, and no step breaks off. -/
structure IsThrough (script : Compilation) : Prop where
  failure : script.failure = none
  mild : IsMild script.events
  errors : Event.errors script.events = 0

variable {stage : Stage}

theorem run_mild (mild : IsMild (stage.script settings g).events) :
    stage.run settings g = { stage.script settings g with
      failure := match (stage.script settings g).failure with
        | some failure => some failure
        | none =>
          if errors (stage.script settings g).events = 0 then none
          else some (.rejected (rejection stage.name (stage.script settings g).events)) } := by
  have steps : IsMild (stepsScript settings 0 g stage.steps).events := (isMild_append.mp mild).2
  have record : (⟨[⟨.stageStarted stage.name, none⟩], 0⟩ : Record).extended
        (diagnostics (stepsScript settings 0 g stage.steps).events) =
      ⟨diagnostics (stage.script settings g).events, errors (stage.script settings g).events⟩ := by
    simp only [script, errors_append, diagnostics_append, Record.extended]
    rfl
  simp only [run, runSteps_mild _ steps, record]
  rfl

theorem run_fatal {upTo : List Event} {fatal : Diagnostic}
    (stops : StopsAt (stage.script settings g).events upTo fatal) :
    (stage.run settings g).events = upTo ∧
      (stage.run settings g).failure = some (.rejected ⟨fatal.message, fatal.location, []⟩) := by
  have opening : IsMild [.found ⟨.stageStarted stage.name, none⟩,
      .stage stage.name stage.steps.length] := by simp [IsMild, Event.isFatal]; rfl
  rcases stopsAt_append stops with opened | ⟨-, others, behind, rfl⟩
  · exact absurd opening opened.not_isMild
  · obtain ⟨events, failure⟩ := runSteps_fatal { problems := [⟨.stageStarted stage.name, none⟩] } behind
    simp only [run, events, failure, and_self]

/-- A stage runs to its end as its script has it, or fails. -/
theorem run_through_or_fails (settings : Settings) (g : Grammar) (stage : Stage) :
    (IsThrough (stage.script settings g) ∧ stage.run settings g = stage.script settings g) ∨
    ∃ failure, (stage.run settings g).failure = some failure ∧
      Fails stage.name (stage.script settings g) (stage.run settings g).events failure := by
  rcases isMild_or_stopsAt (stage.script settings g).events with mild | ⟨upTo, fatal, stops⟩
  · have runs := run_mild mild
    cases failed : (stage.script settings g).failure with
    | some failure =>
      rw [failed] at runs
      exact .inr ⟨failure, by rw [runs], by rw [runs]; exact .broken mild failed⟩
    | none =>
      rw [failed] at runs
      by_cases clean : errors (stage.script settings g).events = 0
      · have same : ({ stage.script settings g with failure := none } : Compilation) =
            stage.script settings g := by rw [← failed]
        simp only [if_pos clean, same] at runs
        exact .inl ⟨⟨failed, mild, clean⟩, runs⟩
      · simp only [if_neg clean] at runs
        exact .inr ⟨_, by rw [runs], by rw [runs]; exact .errors mild failed (Nat.pos_of_ne_zero clean)⟩
  · obtain ⟨events, failure⟩ := run_fatal stops
    obtain ⟨isFatal, before, after, same, mild, rfl⟩ := stops.split
    exact .inr ⟨_, failure, events ▸ .fatal same mild isFatal⟩

/-- Stages that all come to their end one after the other, the grammar behind them and the events. -/
inductive Passed (settings : Settings) : Grammar → List Stage → Grammar → List Event → Prop
  | nil {g : Grammar} : Passed settings g [] g []
  | cons {g reached : Grammar} {stage : Stage} {rest : List Stage} {log : List Event} :
    IsThrough (stage.script settings g) →
    Passed settings (stage.script settings g).grammar rest reached log →
    Passed settings g (stage :: rest) reached ((stage.script settings g).events ++ log)

/-- Stages run one after the other up to one that fails. -/
theorem runAll_passed (settings : Settings) (g : Grammar) (stages : List Stage) :
    ∃ earlier reached log, Passed settings g earlier reached log ∧
      ((stages = earlier ∧ runAll settings g stages = { grammar := reached, events := log }) ∨
      ∃ stage later events failure, stages = earlier ++ stage :: later ∧
        Fails stage.name (stage.script settings reached) events failure ∧
        (runAll settings g stages).events = log ++ events ∧
        (runAll settings g stages).failure = some failure) := by
  induction stages generalizing g with
  | nil => exact ⟨[], g, [], .nil, .inl ⟨rfl, rfl⟩⟩
  | cons stage rest ih =>
    rw [runAll]
    rcases run_through_or_fails settings g stage with ⟨through, runs⟩ | ⟨failure, failed, fails⟩
    · obtain ⟨earlier, reached, log, passed, cases⟩ := ih (stage.script settings g).grammar
      refine ⟨stage :: earlier, reached, _, .cons through passed, ?_⟩
      simp only [runs, through.failure]
      rcases cases with ⟨rfl, all⟩ | ⟨stage', later, events, failure, rfl, fails, heard, failed⟩
      · exact .inl ⟨rfl, by rw [all]⟩
      · exact .inr ⟨stage', later, events, failure, rfl, fails, by rw [heard, List.append_assoc],
          failed⟩
    · refine ⟨[], g, [], .nil, .inr ⟨stage, rest, _, failure, rfl, fails, ?_, ?_⟩⟩
      all_goals simp only [failed, List.nil_append]

end Stage

/-- A collector hears the diagnostics of the kinds that it takes. -/
theorem Collector.received_eq (collector : Collector) (events : List Event) :
    collector.received events =
      (Event.diagnostics events).filter fun d => collector.contains d.severity := by
  induction events with
  | nil => rfl
  | cons event rest ih =>
    cases event with
    | found d =>
      change _ = (d :: Event.diagnostics rest).filter fun d => collector.contains d.severity
      rw [List.filter_cons, ← ih, received, List.filterMap_cons]
      by_cases taken : collector.contains d.severity = true
      · simp only [if_pos taken, received]
      · simp only [if_neg taken, received]
    | stage | pass => exact ih

namespace Grammar

/-- Stages run in order, and each of them to its end, up to the first that fails: at once at a fatal
diagnostic, and behind its last step if it has found errors. What there is to hear up to there is
heard by a collector that takes some kinds of diagnostics. -/
theorem compile_stages (g : Grammar) (stages : List Stage) {options : Options} {settings : Settings}
    (resolves : options.resolve g.ruleNames = .ok settings) {kinds : Collector} (takes : kinds ≠ []) :
    ∃ earlier reached log, Stage.Passed settings g earlier reached log ∧
      ((stages = earlier ∧ (g.compile stages options (some kinds)).events = log ∧
        (g.compile stages options (some kinds)).outcome = (do
          let results ← reached.results settings
          return (settings, reached, results)) ∧
        kinds.received (g.compile stages options (some kinds)).events =
          (Event.diagnostics log).filter fun d => kinds.contains d.severity) ∨
      ∃ stage later events failure, stages = earlier ++ stage :: later ∧
        Stage.Fails stage.name (stage.script settings reached) events failure ∧
        (g.compile stages options (some kinds)).events = log ++ events ∧
        (g.compile stages options (some kinds)).outcome = .error failure ∧
        kinds.received (g.compile stages options (some kinds)).events =
          (Event.diagnostics (log ++ events)).filter fun d => kinds.contains d.severity) := by
  have nonempty : kinds.isEmpty = false := by simpa using takes
  have compiles : g.compile stages options (some kinds) =
      ⟨(Stage.runAll settings g stages).events, match (Stage.runAll settings g stages).failure with
        | some failure => .error failure
        | none => do
          let results ← (Stage.runAll settings g stages).grammar.results settings
          return (settings, (Stage.runAll settings g stages).grammar, results)⟩ := by
    unfold compile
    rw [resolves]
    simp only [Collector.check, nonempty]
    rfl
  obtain ⟨earlier, reached, log, passed, cases⟩ := Stage.runAll_passed settings g stages
  refine ⟨earlier, reached, log, passed, ?_⟩
  rw [compiles]
  rcases cases with ⟨rfl, all⟩ | ⟨stage, later, events, failure, rfl, fails, heard, failed⟩
  · rw [all]
    exact .inl ⟨rfl, rfl, rfl, kinds.received_eq log⟩
  · rw [heard, failed]
    exact .inr ⟨stage, later, events, failure, rfl, fails, rfl, rfl, kinds.received_eq _⟩

/-- A stage with an error between two milder diagnostics. -/
def brokenStage : Stage := ⟨"first", [
  .report [⟨.note .warning "doubtful", none⟩, ⟨.note .error "broken", none⟩],
  .report [⟨.note .info "looked at", none⟩]]⟩

def fatalStage : Stage := ⟨"second", [.report [⟨.note .fatal "never said", none⟩]]⟩

theorem broken_stage_stops :
    (({ rules := [] } : Grammar).compile [brokenStage, fatalStage] {} (some [.error, .fatal])).outcome =
      .error (.rejected {
        message := "Stage 'first' contains 1 error(s)."
        problems := [⟨.stageStarted "first", none⟩, ⟨.passStarted 0, none⟩,
          ⟨.note .warning "doubtful", none⟩, ⟨.note .error "broken", none⟩, ⟨.passStarted 1, none⟩,
          ⟨.note .info "looked at", none⟩] }) ∧
    Collector.received [.error, .fatal] (({ rules := [] } : Grammar).compile [brokenStage, fatalStage] {}
      (some [.error, .fatal])).events = [⟨.note .error "broken", none⟩] := by
  let settings : Settings := ⟨[], false, false, .one .parser, .bare, .record [], none, .null⟩
  have stuck {g reached : Grammar} {rest : List Stage} {log : List Event} :
      ¬Stage.Passed settings g (brokenStage :: rest) reached log := by
    intro passed
    cases passed with
    | cons through _ => exact absurd through.errors Nat.one_ne_zero
  obtain ⟨earlier, reached, log, passed, ⟨rfl, -⟩ | ⟨stage, later, events, failure, whole, fails, -,
    outcome, heard⟩⟩ := @compile_stages { rules := [] } [brokenStage, fatalStage] {} settings rfl
      [.error, .fatal] (by simp)
  · exact absurd passed stuck
  · cases earlier with
    | cons first rest =>
      obtain ⟨rfl, -⟩ := List.cons.inj whole
      exact absurd passed stuck
    | nil =>
      obtain ⟨rfl, rfl⟩ := List.cons.inj whole
      cases passed
      rw [outcome, heard]
      cases fails with
      | fatal same mild isFatal =>
        have clear : Event.IsMild (brokenStage.script settings { rules := [] }).events := by
          unfold Event.IsMild
          decide
        rw [same] at clear
        have later := (Event.isMild_append.mp clear).2 _ List.mem_cons_self
        exact absurd (isFatal.symm.trans later) (by simp)
      | broken mild failed => cases failed
      | errors =>
        refine ⟨congrArg (fun message => Except.error (Failure.rejected ⟨message, none, _⟩)) ?_, rfl⟩
        decide

end Grammar

end PegCompiler
