import PegCompiler.Proofs.Run.Brackets
import PegCompiler.Proofs.Run.Correctness
import PegCompiler.Proofs.Run.Raising

/-!
Traces are bracketed. No instruction but a call of a rule notes anything (`Machine.op_silent`), so what a
block notes is what its calls note (`Machine.block_logs`), and a call notes its two events around those of
its code (`Machine.call_notes`). The main theorem is `Grammar.bytecode_bracketed`.
-/

namespace PegCompiler

namespace Machine

open TraceEvent (entering leaving)
open Trace (Bracketed BrokenOff)

/-- A call of a rule: its fuel, the rule, and the world in which it is made. -/
structure Call where
  fuel : Nat
  index : Int
  world : World

namespace Call

variable (program : Program)

def ended (call : Call) : Ended Outcome := Run.go (rule program call.fuel call.index) call.world

/-- The rule that is called has this name. -/
def Names (call : Call) (name : Text) : Prop :=
  ∃ place code, Index.place? program.rules.length call.index = some place ∧
    program.rules[place]? = some (name, code)

/-- The calls in the run of a call: the call itself, and those that its code makes. -/
inductive Makes : Call → Call → Prop
  | itself (call : Call) : Makes call call
  | inner {fuel : Nat} {index inner : Int} {w start v : World} {code : List Instr} {frame : Frame}
      {made : Call} : Begins program index w code start →
    Passes program (rule program fuel) fuel code {} start ⟨.op (.rule inner), frame, v⟩ →
    Makes ⟨fuel, inner, v⟩ made → Makes ⟨fuel + 1, index, w⟩ made

/-- A call that is made begins at `start` and ends at `stop` with this outcome. -/
def Tells (call : Call) (name : Text) (start : Int) (outcome : Outcome) (stop : Int) : Prop :=
  ∃ made after, Makes program call made ∧ made.Names program name ∧ made.world.state.offset = start ∧
    made.ended program = (.ok outcome, after) ∧ after.state.offset = stop

/-- A call that is made begins at `start`, and something is raised in it. -/
def Breaks (call : Call) (name : Text) (start : Int) : Prop :=
  ∃ made raised after, Makes program call made ∧ made.Names program name ∧
    made.world.state.offset = start ∧ made.ended program = (.error raised, after)

end Call

/-- What is noted on the way from `w` to an end: calls that are over, unless something was raised. -/
def Logs {α : Type} (told : Text → Int → Outcome → Int → Prop) (still : Text → Int → Prop) (w : World) :
    Ended α → Prop
  | (.ok _, after) => ∃ row, after.events = row.reverse ++ w.events ∧ Bracketed told row
  | (.error _, after) => ∃ row, after.events = row.reverse ++ w.events ∧ BrokenOff told still row

namespace Logs

variable {α β : Type} {told told' : Text → Int → Outcome → Int → Prop}
  {still still' : Text → Int → Prop} {w : World} {ended : Ended α}

theorem nothing (same : ended.2.events = w.events) : Logs told still w ended := by
  rcases ended with ⟨_ | _, after⟩
  · exact ⟨[], same, .closed .nil⟩
  · exact ⟨[], same, .nil⟩

theorem mono (logs : Logs told still w ended)
    (imp : ∀ name start outcome stop, told name start outcome stop → told' name start outcome stop)
    (open' : ∀ name start, still name start → still' name start) : Logs told' still' w ended := by
  rcases ended with ⟨_ | _, after⟩
  · obtain ⟨row, events, broken⟩ := logs
    exact ⟨row, events, broken.mono imp open'⟩
  · obtain ⟨row, events, brackets⟩ := logs
    exact ⟨row, events, brackets.mono imp⟩

theorem andThen {next : α → World → Ended β} (logs : Logs told still w ended)
    (behind : ∀ a v, ended = (.ok a, v) → Logs told still v (next a v)) :
    Logs told still w (ended.andThen next) := by
  rcases ended with ⟨_ | a, v⟩
  · exact logs
  · obtain ⟨row, events, brackets⟩ := logs
    have further := behind a v rfl
    rw [Ended.andThen_ok]
    rcases last : next a v with ⟨_ | _, after⟩
    · rw [last] at further
      obtain ⟨others, events', broken⟩ := further
      exact ⟨row ++ others, by simp [events', events], .behind brackets broken⟩
    · rw [last] at further
      obtain ⟨others, events', brackets'⟩ := further
      exact ⟨row ++ others, by simp [events', events], brackets.append brackets'⟩

theorem broken (logs : Logs told still w ended) :
    ∃ row, ended.2.events = row.reverse ++ w.events ∧ BrokenOff told still row := by
  rcases ended with ⟨_ | _, after⟩
  · exact logs
  · obtain ⟨row, events, brackets⟩ := logs
    exact ⟨row, events, .closed brackets⟩

end Logs

/-! ## Instructions -/

/-- The run notes nothing. -/
def Silent {α : Type} (exec : Exec α) : Prop :=
  ∀ frame w, (Exec.go exec frame w).2.events = w.events

theorem silent_closed : Closed Silent where
  looks := by
    intro α exec looks frame w
    rcases looks frame w with ⟨a, ended⟩ | ⟨raised, ended, -⟩ <;> rw [ended]
  bind := by
    intro α β exec next first behind frame w
    have here := first frame w
    rw [Exec.go_bind]
    rcases ended : Exec.go exec frame w with ⟨_ | ⟨a, last⟩, v⟩
    · rw [ended] at here
      exact here
    · rw [ended] at here
      exact (behind a last v).trans here
  frames _ _ _ := rfl
  states _ _ _ := rfl

/-- User code notes nothing, whatever it raises. -/
theorem silent_call (program : Program) (f n : Int) (arguments : List Int) :
    Silent (callFunction program f n arguments) := by
  have lift (result : Except Raise Value) : Silent (lift result) := fun frame w => by
    rw [go_lift]
  refine silent_closed.bind (silent_closed.looks (.present _)) fun _ => ?_
  refine silent_closed.bind (silent_closed.looks (.mapM .valueAt arguments)) fun _ => ?_
  refine silent_closed.bind (silent_closed.discard (silent_closed.take n)) fun _ => ?_
  exact silent_closed.bind (silent_closed.looks .state) fun _ =>
    silent_closed.bind (lift _) fun _ => silent_closed.pushValue _

section Code

variable {program : Program} {call : Int → Run Outcome} {fuel : Nat} {frame : Frame} {w : World}
  {told : Text → Int → Outcome → Int → Prop} {still : Text → Int → Prop}

/-- An instruction notes nothing unless it calls a rule. -/
theorem op_silent {o : Op} (own : ∀ index, o ≠ .rule index) : Silent (op program call o) := by
  cases o with
  | rule index => exact absurd rfl (own index)
  | call f n arguments => exact silent_closed.behind (silent_call program f n arguments) _
  | _ => exact silent_closed.op rfl

theorem op_logs {o : Op} (calls : ∀ index, o = .rule index → Logs told still w (Run.go (call index) w)) :
    Logs told still w (Exec.go (op program call o) frame w) := by
  by_cases own : ∀ index, o ≠ .rule index
  · exact .nothing (op_silent own frame w)
  · push Not at own
    obtain ⟨index, rfl⟩ := own
    rw [go_rule]
    exact (calls index rfl).andThen fun out v _ => .nothing rfl

theorem rounds_log {endless : Bool} {code : List Instr} {n : Nat}
    (each : ∀ k next v, k < n → (k = 0 ∨ endless = true) →
      Rounds program call fuel code k frame w next v →
      Logs told still v (Exec.go (block program call fuel code) next v)) :
    Logs told still w (Exec.go (rounds endless (block program call fuel code) n) frame w) := by
  induction n generalizing frame w with
  | zero => exact .nothing rfl
  | succ n ih =>
    have first := each 0 frame w (by omega) (.inl rfl) (.none _ _)
    cases endless with
    | false =>
      rw [go_once]
      exact first.andThen fun _ _ _ => .nothing rfl
    | true =>
      rw [go_again]
      refine first.andThen fun ⟨signal, next⟩ v ended => ?_
      cases signal with
      | leave => exact .nothing rfl
      | next =>
        exact ih fun k last u less _ gone =>
          each (k + 1) last u (by omega) (.inr rfl) (.more ended gone)

/-- What a block notes is what the calls that it makes note. -/
theorem block_logs : (code : List Instr) → ∀ frame w,
    (∀ index next v, Passes program call fuel code frame w ⟨.op (.rule index), next, v⟩ →
      Logs told still v (Run.go (call index) v)) →
    Logs told still w (Exec.go (block program call fuel code) frame w)
  | [], _, _, _ => .nothing rfl
  | i :: rest, frame, w, calls => by
    rw [go_block_cons]
    refine Logs.andThen ?_ fun passed v ended => ?_
    · cases i with
      | op o =>
        rw [instr]
        exact op_logs fun index same => calls index frame w (same ▸ .here ..)
      | branch condition yes no =>
        rw [instr, Exec.go_bind]
        refine (Logs.nothing (silent_closed.looks (.test condition) frame w)).andThen
          fun answer v tested => ?_
        obtain ⟨holds, next⟩ := answer
        cases holds with
        | true =>
          exact block_logs yes next v fun index last u passes =>
            calls index last u (.arm tested passes)
        | false =>
          exact block_logs no next v fun index last u passes =>
            calls index last u (.arm tested passes)
      | loop endless body =>
        rw [instr, Exec.go_bind]
        refine (rounds_log fun k next v less single gone => ?_).andThen fun _ _ _ => .nothing rfl
        exact block_logs body next v fun index last u passes =>
          calls index last u (.round less single gone passes)
    · obtain ⟨signal, next⟩ := passed
      cases signal with
      | leave => exact .nothing rfl
      | next =>
        exact block_logs rest next v fun index last u passes =>
          calls index last u (.behind ended passes)

end Code

section Rules

variable {program : Program}

/-- A call that is over has noted its two events around those of the calls that it made; one that is
broken off has noted the beginning of that. -/
def Call.Notes (program : Program) (call : Call) : Prop :=
  match call.ended program with
  | (.ok outcome, after) => ∃ name inner, call.Names program name ∧
    Bracketed (call.Tells program) inner ∧
    after.events = (entering name call.world.state.offset :: (inner ++
      [leaving name call.world.state.offset outcome after.state.offset])).reverse ++ call.world.events
  | (.error _, after) => ∃ row, BrokenOff (call.Tells program) (call.Breaks program) row ∧
    after.events = row.reverse ++ call.world.events

theorem Call.Notes.of_ok {call : Call} (notes : call.Notes program) {outcome : Outcome} {after : World}
    (ended : call.ended program = (.ok outcome, after)) : ∃ name inner, call.Names program name ∧
      Bracketed (call.Tells program) inner ∧
      after.events = (entering name call.world.state.offset :: (inner ++
        [leaving name call.world.state.offset outcome after.state.offset])).reverse ++
          call.world.events := by
  unfold Call.Notes at notes
  rw [ended] at notes
  exact notes

theorem Call.Notes.of_error {call : Call} (notes : call.Notes program) {raised : Raise} {after : World}
    (ended : call.ended program = (.error raised, after)) :
    ∃ row, BrokenOff (call.Tells program) (call.Breaks program) row ∧
      after.events = row.reverse ++ call.world.events := by
  unfold Call.Notes at notes
  rw [ended] at notes
  exact notes

theorem Call.Notes.logs {call : Call} (notes : call.Notes program) :
    Logs (call.Tells program) (call.Breaks program) call.world (call.ended program) := by
  rcases ended : call.ended program with ⟨raised | outcome, after⟩
  · obtain ⟨row, broken, events⟩ := notes.of_error ended
    exact ⟨row, events, broken⟩
  · obtain ⟨name, inner, names, brackets, events⟩ := notes.of_ok ended
    exact ⟨_, events, .call ⟨call, after, .itself call, names, rfl, ended, rfl⟩ brackets .nil⟩

theorem Call.Notes.indent_take {call : Call} (notes : call.Notes program) (fresh : call.world.events = [])
    (input : Text) (n : Nat) :
    0 ≤ Trace.indentBehind input 0 ((call.ended program).2.events.reverse.take n) := by
  obtain ⟨row, events, broken⟩ := notes.logs.broken
  simpa [events, fresh] using broken.indent_take input 0 n

theorem noted_events (traces : program.trace = true) (w : World) (event : TraceEvent) :
    (w.noted program event).events = event :: w.events := by
  simp only [World.noted, traces, if_true]

theorem endEvent_eq (name : Text) (start : Int) (outcome : Outcome) (w : World) :
    endEvent name start outcome w = leaving name start outcome w.state.offset := by
  cases outcome <;> rfl

theorem keptWorld_events (traces : program.trace = true) (name : Text) (stop : Int) (outcome : Outcome)
    (w : World) : (Tree.keptWorld program name stop outcome w).events =
      leaving name w.state.offset outcome stop :: entering name w.state.offset :: w.events := by
  rw [Tree.keptWorld, noted_events traces, endEvent_eq]
  exact congrArg _ (noted_events traces w _)

theorem newWorld_events (traces : program.trace = true) (place : Nat) (name : Text) (start : Int)
    (outcome : Outcome) (w : World) : (Tree.newWorld program place name start outcome w).events =
      leaving name start outcome w.state.offset :: w.events := by
  rw [Tree.newWorld, noted_events traces, endEvent_eq]
  rfl

/-- The calls that the code of a rule makes are made in the run of the rule. -/
theorem body_logs {fuel : Nat} {index : Int} {w start : World} {code : List Instr}
    (notes : ∀ inner v, (Call.mk fuel inner v).Notes program)
    (begins : Begins program index w code start) :
    Logs (Call.Tells program ⟨fuel + 1, index, w⟩) (Call.Breaks program ⟨fuel + 1, index, w⟩) start
      (Run.go (body program (rule program fuel) fuel code) start) := by
  rw [go_block]
  refine (block_logs code {} start fun inner frame v passes => ?_).andThen fun ⟨signal, last⟩ v _ => ?_
  · refine (notes inner v).logs.mono ?_ ?_
    · rintro name start outcome stop ⟨made, after, makes, others⟩
      exact ⟨made, after, .inner begins passes makes, others⟩
    · rintro name start ⟨made, raised, after, makes, others⟩
      exact ⟨made, raised, after, .inner begins passes makes, others⟩
  · dsimp only
    split <;> exact .nothing rfl

theorem call_notes (traces : program.trace = true) (fuel : Nat) (index : Int) (w : World) :
    (Call.mk fuel index w).Notes program := by
  induction fuel generalizing index w with
  | zero => exact ⟨[], .closed .nil, rfl⟩
  | succ fuel ih =>
    unfold Call.Notes Call.ended
    obtain none | ⟨place, name, code, here, at?, ⟨stop, outcome, -, ended⟩ | ⟨anew, ended⟩⟩ :=
      go_rule_succ program fuel index w
    · rw [none]
      exact ⟨[], .closed .nil, rfl⟩
    · rw [ended]
      refine ⟨name, [], ⟨place, code, here, at?⟩, .nil, ?_⟩
      exact keptWorld_events traces name stop outcome w
    · have names : (Call.mk (fuel + 1) index w).Names program name := ⟨place, code, here, at?⟩
      have inside := body_logs ih ⟨place, name, here, at?, anew, rfl⟩
      rcases ran : Run.go (body program (rule program fuel) fuel code)
        (w.noted program (startEvent name w)) with ⟨raised | outcome, after⟩
      · rw [ran] at ended inside
        obtain ⟨row, events, broken⟩ := inside
        rw [noted_events traces] at events
        rw [ended]
        refine ⟨entering name w.state.offset :: row, ?_, by simp [events]; rfl⟩
        exact .inside .nil ⟨_, raised, after, .itself _, names, rfl, ended⟩ broken
      · rw [ran] at ended inside
        obtain ⟨row, events, brackets⟩ := inside
        rw [noted_events traces] at events
        rw [ended]
        refine ⟨name, row, names, brackets, ?_⟩
        rw [newWorld_events traces, events]
        simp only [List.reverse_cons, List.reverse_append, List.append_assoc, List.cons_append,
          List.nil_append, List.reverse_nil]
        rfl

end Rules

end Machine

/-- The printed trace of a parse is nowhere further out than at its beginning. -/
theorem Program.parse_indent {program : Program} (traces : program.trace = true) (fuel : Nat)
    (input : Text) (source : Option Text) (start : Option Value) (n : Nat) :
    0 ≤ Trace.indentBehind input 0 ((program.parse fuel input source start).events.take n) := by
  unfold Program.parse
  cases program.startPlace start with
  | error => exact Int.le_of_eq (congrArg (Trace.indentBehind input 0) List.take_nil).symm
  | ok place =>
    have notes := Machine.call_notes traces fuel place { state := { input, source } }
    exact notes.indent_take rfl input n

theorem Scene.Compiled.rule_of_names {scene : Scene} {tables : Tables} (compiled : scene.Compiled tables)
    {fuel place : Nat} {w : World} {name : Text}
    (names : (Machine.Call.mk fuel place w).Names scene.program name) :
    ∃ r, scene.grammar.rules[place]? = some r ∧ r.name = name := by
  obtain ⟨place', code, here, at?⟩ := names
  have bound := (List.getElem?_eq_some_iff.mp at?).1
  have inside : place < scene.program.rules.length := by
    simp only [Index.place?, Option.ite_none_right_eq_some] at here
    omega
  obtain rfl : place = place' := by simpa [Index.place?_natCast inside] using here
  obtain ⟨r, found⟩ : ∃ r, scene.grammar.rules[place]? = some r :=
    ⟨_, List.getElem?_eq_getElem (compiled.length ▸ bound)⟩
  obtain ⟨code', same, -⟩ := compiled.rule place r found
  rw [at?] at same
  cases same
  exact ⟨r, found, rfl⟩

namespace Grammar

variable {g : Grammar} {settings : Settings} {text : Text} {source : Option Text}

/-- The events of a run in which nothing is raised are bracketed: the two events of a call are about the
same rule and the same start, and tell how the call ended. If something is raised, the events are the
beginning of such a row. So the indentation is never negative, and in the end it is what it was. User
code may give or raise anything, but traces nothing itself, as `UserCode` has it. -/
theorem bytecode_bracketed (read : Grammar.read text source = .ok g)
    (checked : (Stage.check.run settings g).failure = none) (semantics : Semantics)
    (traces : semantics.trace = true) :
    ∃ program, (g.compiled settings).bytecode? semantics = some program ∧
      ∀ (fuel place : Nat) (state : ParserState),
        let call : Machine.Call := ⟨fuel, place, { state }⟩
        let (result, after) := program.runFrom fuel place state
        let events := after.events.reverse
        (∀ n, 0 ≤ Trace.indentBehind state.input 0 (events.take n)) ∧
        match result with
        | .ok outcome => Trace.indentBehind state.input 0 events = 0 ∧
          ∃ r inner, (g.prepare settings).rules[place]? = some r ∧
            Trace.Bracketed (call.Tells program) inner ∧
            events = .entering r.name state.offset ::
              (inner ++ [.leaving r.name state.offset outcome after.state.offset])
        | .error _ => ∃ rest, Trace.Bracketed (fun name start outcome stop =>
            call.Tells program name start outcome stop ∨
              call.Breaks program name start ∧ outcome = none) (events ++ rest) := by
  have prepared := (preparation_of_read read checked).prepared
  obtain ⟨program, tables, reads, -, trace, compiled⟩ := prepared.bytecode semantics
  rw [← compiled_eq] at reads
  refine ⟨program, reads, fun fuel place state => ?_⟩
  have notes := Machine.call_notes (trace.trans traces) fuel place { state }
  have inside := notes.indent_take rfl state.input
  intro call
  change ∀ n, 0 ≤ Trace.indentBehind _ 0 ((program.runFrom fuel place state).2.events.reverse.take n)
    at inside
  rcases ended : program.runFrom fuel place state with ⟨raised | outcome, after⟩
  · rw [ended] at inside
    obtain ⟨row, broken, events⟩ := notes.of_error ended
    have row' : after.events.reverse = row := by simp [events]
    exact ⟨inside, row' ▸ broken.completed⟩
  · rw [ended] at inside
    obtain ⟨name, inner, names, brackets, events⟩ := notes.of_ok ended
    obtain ⟨r, at?, rfl⟩ := (compiled true fun _ _ => true).rule_of_names names
    have row : after.events.reverse = .entering r.name state.offset ::
        (inner ++ [.leaving r.name state.offset outcome after.state.offset]) := by
      simpa using congrArg List.reverse events
    refine ⟨inside, ?_, r, inner, at?, brackets, row⟩
    have whole : Trace.Bracketed (fun _ _ _ _ => True) after.events.reverse :=
      row ▸ .call trivial (brackets.mono fun _ _ _ _ _ => trivial) .nil
    exact whole.indent_eq state.input 0

def tracingSemantics : Semantics := { countingSemantics with trace := true }

/-- The call of the second rule is told within that of the first. -/
def tracesSample (g : Grammar) : Bool :=
  ((g.compiled plainSettings).bytecode? tracingSemantics).any fun program =>
    match program.runFrom 9 0 { input := .ofString "2aa" } with
    | (.ok (some _), after) =>
      after.events.reverse.map (·.kind) == [.enter, .enter, .matched, .matched]
    | _ => false

theorem counting_bracketed : ∃ g program value after, Grammar.read countingText none = .ok g ∧
    (Stage.check.run plainSettings g).failure = none ∧ tracingSemantics.trace = true ∧
    (g.compiled plainSettings).bytecode? tracingSemantics = some program ∧
    program.runFrom 9 0 { input := .ofString "2aa" } = (.ok (some value), after) ∧
    after.events.reverse.map (·.kind) = [.enter, .enter, .matched, .matched] ∧
    (∀ n, 0 ≤ Trace.indentBehind (.ofString "2aa") 0 (after.events.reverse.take n)) ∧
    Trace.indentBehind (.ofString "2aa") 0 after.events.reverse = 0 := by
  obtain ⟨g, read, checked, passes⟩ := exists_of_accepted
    (show (accepted? plainSettings countingText).any tracesSample = true by decide +kernel)
  obtain ⟨program, reads, traces⟩ := bytecode_bracketed read checked tracingSemantics rfl
  have runs := traces 9 0 { input := .ofString "2aa" }
  rw [tracesSample, reads, Option.any_some] at passes
  split at passes
  · rename_i value after ended
    rw [ended] at runs
    obtain ⟨inside, back, -⟩ := runs
    exact ⟨g, program, value, after, read, checked, rfl, reads, ended, by simpa using passes, inside, back⟩
  · cases passes

end Grammar

end PegCompiler
