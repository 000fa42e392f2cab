import PegCompiler.Proofs.Run.Limited

/-!
Compiled grammars do what their expressions say. A grammar that was read from a text and has passed the
checks has bytecode, and every rule of it, started anywhere in an input, gives the value and the end
of its direct evaluation (`Grammar.bytecode_evaluates`). Whatever user code gives or raises, a run of a
rule comes to an end, unless it enters an idle range with an endless number for the greatest one, which
only user code can give (`Grammar.bytecode_ends`).
-/

namespace PegCompiler

/-- The run of the rule at a place, from a state on, with nothing kept yet. -/
def Program.runFrom (program : Program) (fuel place : Nat) (state : ParserState) : Ended Outcome :=
  Run.go (Machine.rule program fuel place) { state }

namespace Grammar

variable {g : Grammar} {settings : Settings}

/-- The text of a grammar that is read and against which the checks have nothing. -/
def accepted? (settings : Settings) (text : Text) : Option Grammar :=
  match Grammar.read text none with
  | .ok g => if (Stage.check.run settings g).failure.isNone then some g else none
  | .error _ => none

theorem accepted?_eq_some {text : Text} (accepted : accepted? settings text = some g) :
    Grammar.read text none = .ok g ∧ (Stage.check.run settings g).failure = none := by
  unfold accepted? at accepted
  split at accepted
  · rename_i read
    obtain ⟨clear, same⟩ := Option.ite_none_right_eq_some.mp accepted
    cases same
    exact ⟨read, Option.isNone_iff_eq_none.mp clear⟩
  · cases accepted

/-- With different names, the place of a rule is found by its name. -/
theorem placeOf_name {i : Nat} {r : Rule} (names : g.ruleNames.Nodup) (at? : g.rules[i]? = some r) :
    g.defines r.name = true ∧ g.placeOf r.name = i := by
  have found : g.find? r.name = some r := find?_of_mem names (List.mem_of_getElem? at?)
  obtain ⟨j, place, other⟩ := placeOf_spec found
  have inside : i < g.ruleNames.length := by
    simpa [ruleNames] using (List.getElem?_eq_some_iff.mp at?).1
  have equal : i = j := (List.getElem?_inj inside names).mp (by simp [ruleNames, at?, other])
  exact ⟨by simp [defines, found], equal ▸ place⟩

section Runs

variable {text : Text} {source : Option Text} (read : Grammar.read text source = .ok g)
  (checked : (Stage.check.run settings g).failure = none) (semantics : Semantics)

/-- Direct evaluation of the rules of a grammar. -/
def evaluator (g : Grammar) (semantics : Semantics) (state : ParserState) : Peg :=
  { grammar := g, meaning := semantics.meaning, matcher := semantics.matcher, input := state.input,
    source := state.source }

/-- The rules of a grammar with their program, run carefully: a range that the checks find idle is only
entered if its greatest number is a limit. -/
def careful (g : Grammar) (semantics : Semantics) (program : Program) : Scene :=
  ⟨program, g, semantics.meaning, semantics.matcher, true, g.enters⟩

/-- The careful run of the rule at a place, from a state on. -/
def carefulRun (g : Grammar) (semantics : Semantics) (program : Program) (place : Nat)
    (state : ParserState) (fuel : Nat) : Ended Outcome :=
  Run.go (Tree.rule (g.careful semantics program) fuel place) { state }

include read checked in
/-- The bytecode of a grammar that was checked, as the program of a scene. -/
theorem compiled_scene : ∃ scene : Scene, ∃ tables,
    (g.compiled settings).bytecode? semantics = some scene.program ∧
      scene.program.cache = semantics.cache ∧ scene.grammar = g.prepare settings ∧
      scene.meaning = semantics.meaning ∧ scene.matcher = semantics.matcher ∧ scene.Faithful ∧
      scene.grammar.Prepared ∧ scene.Compiled tables := by
  have prepared := (preparation_of_read read checked).prepared
  obtain ⟨program, tables, reads, cache, -, compiled⟩ := prepared.bytecode semantics
  rw [← compiled_eq] at reads
  exact ⟨⟨program, g.prepare settings, semantics.meaning, semantics.matcher, true, fun _ _ => true⟩,
    tables, reads, cache, rfl, rfl, rfl, ⟨rfl, fun _ _ => rfl⟩, prepared, compiled true _⟩

/-- Nothing is kept yet. -/
theorem valid_of_inside {c : Course} {state : ParserState} (inside : state.Inside)
    (records : state.records ≠ []) (input : state.input = c.input) (source : state.source = c.source) :
    c.Valid { state } := by
  refine ⟨⟨inside, input, source, records⟩, fun place start entry _ _ found => ?_⟩
  simp at found

/-- The careful scene of a grammar is the scene of its bytecode, but for the ranges that are entered. -/
theorem careful_eq {semantics : Semantics} {scene : Scene} (grammar : scene.grammar = g.prepare settings)
    (meaning : scene.meaning = semantics.meaning) (matcher : scene.matcher = semantics.matcher)
    (faithful : scene.Faithful) : (g.prepare settings).careful semantics scene.program =
      { scene with admits := scene.grammar.enters } := by
  simp only [careful, grammar, meaning, matcher, faithful.prune]

include read checked in
/-- With user code that is pure and raises nothing, and with integers for bounds, the bytecode of every
rule, run from any place of an input, gives the value and the end that evaluation gives. -/
theorem bytecode_evaluates (pure : PureMeaning semantics.meaning)
    (quiet : ∀ f state values, ∃ value, semantics.meaning f state values = .ok value)
    {place : Nat} {r : Rule} (at? : (g.prepare settings).rules[place]? = some r)
    {state : ParserState} (inside : state.Inside) (records : state.records ≠ [])
    (bounds : ∀ fuel, ((g.prepare settings).evaluator semantics state).counting.rule fuel r.name
      state.offset ≠ .error .wrongType) :
    ∃ program, (g.compiled settings).bytecode? semantics = some program ∧
      ∃ (enough : Nat) (matched : Option (Value × Int)), ∀ fuel ≥ enough,
        ((g.prepare settings).evaluator semantics state).rule fuel r.name state.offset = .ok matched ∧
        ∃ after, program.runFrom fuel place state = (.ok (matched.map Prod.fst), after) ∧
          after.state.offset = (matched.map Prod.snd).getD state.offset := by
  obtain ⟨scene, tables, reads, -, grammar, meaning, matcher, faithful, prepared, compiled⟩ :=
    compiled_scene read checked semantics
  have same : (g.prepare settings).evaluator semantics state =
      scene.peg state.input state.source := by
    simp only [evaluator, Scene.peg, grammar, meaning, matcher, faithful.admits_eq]
  rw [same] at bounds ⊢
  rw [← grammar] at at?
  rw [← meaning] at pure quiet
  obtain ⟨defined, here⟩ := placeOf_name prepared.accepted.names at?
  have valid (c : Course) (input : state.input = c.input) (source : state.source = c.source) :
      c.Valid { state } := valid_of_inside inside records input source
  obtain ⟨enough, result, allowed, ends⟩ := @Scene.peg_ends { scene with admits := Expr.isCounted }
    state.input state.source prepared compiled.length pure (· = .wrongType)
    (fun f s values raised failed => by
      obtain ⟨value, ok⟩ := quiet f s values
      rw [ok] at failed
      cases failed)
    rfl (Scene.bounded_of_isCounted rfl) r.name defined state.offset inside.lower inside.upper
  refine ⟨scene.program, reads, enough, ?_⟩
  cases result with
  | error raised =>
    obtain rfl := allowed raised rfl
    exact absurd (ends enough (Nat.le_refl _)) (bounds enough)
  | ok matched =>
    have ends (fuel : Nat) (more : fuel ≥ enough) :
        (scene.peg state.input state.source).rule fuel r.name state.offset = .ok matched := by
      have gives := @Scene.peg_of_careful { scene with admits := Expr.isCounted } state.input state.source
        prepared pure compiled.length fuel r.name defined state.offset inside.lower inside.upper matched
        (ends fuel more)
      rwa [show Scene.entering { scene with admits := Expr.isCounted } = scene from faithful.entering] at gives
    refine ⟨matched, fun fuel more => ⟨ends fuel more, ?_⟩⟩
    have agrees := @Scene.rule_agrees scene _ _ prepared compiled.length pure False nofun nofun
      (fun _ => Scene.peg_fails prepared compiled.length pure) fuel r.name defined { state }
      (valid (scene.evaluation state.input state.source) rfl rfl)
    change Agrees _ _ ((scene.peg state.input state.source).rule fuel r.name state.offset) _ _ _ at agrees
    rw [ends fuel more, here] at agrees
    obtain ⟨out, after, ended, -, rfl, lands⟩ := agrees
    exact ⟨after, (compiled.rule_runs prepared faithful fuel place _ (valid _ rfl rfl)).trans ended, lands⟩

end Runs

/-! A sample: a digit, and as many letters as the user code for it says. -/

/-- A text whose grammar is accepted and passes a test has such a grammar. -/
theorem exists_of_accepted {text : Text} {test : Grammar → Bool}
    (holds : (accepted? settings text).any test = true) : ∃ g, Grammar.read text none = .ok g ∧
      (Stage.check.run settings g).failure = none ∧ test g = true := by
  obtain ⟨g, accepted, passes⟩ := (Option.any_eq_true test _).mp holds
  obtain ⟨read, checked⟩ := accepted?_eq_some accepted
  exact ⟨g, read, checked, passes⟩

def countingText : Text := .ofString "s = n:c 'a'|n|\nc = [0-9] { return 2 }"

def countingSemantics : Semantics where
  meaning _ _ _ := .ok (.integer 2)
  matcher c := ⟨c.inverted, c.ignoreCase, c.parts⟩

def countingEvaluator (g : Grammar) : Peg :=
  (g.prepare plainSettings).evaluator countingSemantics { input := .ofString "2aa" }

/-- The first rule is the one to start with, and matches all of a sample. -/
def countsSample (g : Grammar) : Bool :=
  match (g.prepare plainSettings).rules[0]?, (countingEvaluator g).counting.rule 6 (.ofString "s") 0,
    (countingEvaluator g).rule 6 (.ofString "s") 0 with
  | some r, .ok _, .ok (some (value, stop)) =>
    r.name == .ofString "s" && value.written == .ofString "[2, ['a', 'a']]" && stop == 3
  | _, _, _ => false

theorem counting_evaluates : ∃ g program, Grammar.read countingText none = .ok g ∧
    (Stage.check.run plainSettings g).failure = none ∧
    (g.compiled plainSettings).bytecode? countingSemantics = some program ∧
    ∃ (enough : Nat) (value : Value), value.written = .ofString "[2, ['a', 'a']]" ∧
      ∀ fuel ≥ enough, ∃ after,
        program.runFrom fuel 0 { input := .ofString "2aa" } = (.ok (some value), after) ∧
          after.state.offset = 3 := by
  obtain ⟨g, read, checked, passes⟩ := exists_of_accepted
    (show (accepted? plainSettings countingText).any countsSample = true by decide +kernel)
  unfold countsSample at passes
  split at passes
  · rename_i r _ value stop at? counted evaluated
    simp only [Bool.and_eq_true, beq_iff_eq] at passes
    obtain ⟨⟨name, written⟩, rfl⟩ := passes
    rw [← name] at counted evaluated
    obtain ⟨program, reads, enough, matched, runs⟩ := bytecode_evaluates read checked
      countingSemantics (fun _ _ _ _ _ _ _ _ => rfl) (fun _ _ _ => ⟨_, rfl⟩) at?
      (show ParserState.Inside { input := .ofString "2aa" } from ⟨by decide, by decide⟩) (by simp)
      fun fuel failed => nomatch Peg.rule_raises_of_ok counted failed
    obtain rfl : some (value, (3 : Int)) = matched :=
      Peg.rule_of_ok evaluated (runs enough (Nat.le_refl _)).1
    exact ⟨g, program, read, checked, reads, enough, value, written, fun fuel more =>
      (runs fuel more).2⟩
  · cases passes

section Runs

variable {text : Text} {source : Option Text} (read : Grammar.read text source = .ok g)
  (checked : (Stage.check.run settings g).failure = none) (semantics : Semantics)

include read checked in
/-- Every careful run of a rule ends, and more fuel than enough changes nothing. It is the run of the
bytecode, up to where it refuses to enter a range that goes on for ever: one that the checks find idle,
with an endless number for the greatest one. So every run of the bytecode ends that enters no such range,
and all of them do if user code gives no endless number. All that is raised is what user code raises, and
that a bound is no number. User code goes by what it is given alone, as `UserCode` has it: it has no
memory and cannot change the state. -/
theorem bytecode_ends
    (user : ∀ f state values, semantics.meaning f state values ≠ .error .outOfFuel)
    {place : Nat} (inside? : place < (g.prepare settings).rules.length)
    {state : ParserState} (inside : state.Inside) (records : state.records ≠ []) :
    ∃ program, (g.compiled settings).bytecode? semantics = some program ∧
      ∃ (enough : Nat) (ended : Ended Outcome),
        (∀ fuel ≥ enough, (g.prepare settings).carefulRun semantics program place state fuel = ended) ∧
        (∀ raised after, ended = (.error raised, after) → raised ≠ .outOfFuel ∧
          (raised = .wrongType ∨
            ∃ f state values, semantics.meaning f state values = .error raised)) ∧
        (∀ fuel, ((g.prepare settings).carefulRun semantics program place state fuel).1 =
            .error .wrongType ∨
          (g.prepare settings).carefulRun semantics program place state fuel =
            program.runFrom fuel place state) ∧
        ((∀ fuel, (g.prepare settings).carefulRun semantics program place state fuel =
            program.runFrom fuel place state) →
          ∀ fuel ≥ enough, program.runFrom fuel place state = ended) ∧
        (LimitedMeaning semantics.meaning → ∀ fuel ≥ enough, program.runFrom fuel place state = ended) := by
  obtain ⟨scene, tables, reads, -, grammar, meaning, matcher, faithful, prepared, compiled⟩ :=
    compiled_scene read checked semantics
  refine ⟨scene.program, reads, ?_⟩
  unfold carefulRun
  rw [careful_eq grammar meaning matcher faithful]
  rw [← grammar] at inside?
  rw [← meaning] at user ⊢
  have at? : scene.grammar.rules[place]? = some scene.grammar.rules[place] :=
    List.getElem?_eq_getElem inside?
  obtain ⟨defined, here⟩ := placeOf_name prepared.accepted.names at?
  have valid : (scene.course state.input state.source).Valid { state } :=
    valid_of_inside inside records rfl rfl
  obtain ⟨enough, ended, settled, ends⟩ := @Scene.call_ends
    { scene with admits := scene.grammar.enters }
    (fun raised => raised ≠ .outOfFuel ∧ (raised = .wrongType ∨
      ∃ f state values, scene.meaning f state values = .error raised))
    state.input state.source prepared compiled.length
    (fun f s values raised failed =>
      ⟨fun same => user f s values (same ▸ failed), .inr ⟨f, s, values, failed⟩⟩)
    ⟨nofun, .inl rfl⟩ (Scene.bounded_of_enters prepared rfl) (state.input.length - state.offset).toNat _
    defined { state } valid (by simp only; omega)
  simp only [here] at ends
  have entering : Scene.entering { scene with admits := scene.grammar.enters } = scene := faithful.entering
  have runs (fuel : Nat) : Run.go (Tree.rule scene fuel place) { state } =
      scene.program.runFrom fuel place state :=
    (compiled.rule_runs prepared faithful fuel place _ valid).symm
  refine ⟨enough, ended, ends, settled, fun fuel => ?_, fun same fuel more => ?_,
    fun limited fuel more => ?_⟩
  · have careful := @Scene.rule_careful { scene with admits := scene.grammar.enters } fuel place { state }
    rw [entering] at careful
    exact careful.imp_right (·.trans (runs fuel))
  · rw [← same fuel, ends fuel more]
  · have same := (@Scene.rule_same { scene with admits := scene.grammar.enters } limited
      (fun e scope limited => limited.enters scene.grammar e) fuel place { state }
      (by simp [World.Limited])).1
    rw [entering] at same
    rw [← runs fuel, ← same, ends fuel more]

end Runs

/-- The rules of the sample end, also on an input that they do not match. -/
theorem counting_ends : ∃ g program, Grammar.read countingText none = .ok g ∧
    (Stage.check.run plainSettings g).failure = none ∧
    (g.compiled plainSettings).bytecode? countingSemantics = some program ∧
    ∃ (enough : Nat) (ended : Ended Outcome),
      (∀ fuel ≥ enough, program.runFrom fuel 0 { input := .ofString "2ab" } = ended) ∧
      ∀ raised after, ended = (.error raised, after) → raised = .wrongType := by
  obtain ⟨g, read, checked, passes⟩ := exists_of_accepted
    (show (accepted? plainSettings countingText).any
      (fun g => decide (0 < (g.prepare plainSettings).rules.length)) = true by decide +kernel)
  have inside : ParserState.Inside { input := .ofString "2ab" } := ⟨by decide, by decide⟩
  obtain ⟨program, reads, enough, ended, -, raises, -, -, runs⟩ := bytecode_ends read checked
    countingSemantics nofun (of_decide_eq_true passes) inside (by simp)
  have limited : LimitedMeaning countingSemantics.meaning := by
    rintro f state values _ ⟨⟩
    rfl
  refine ⟨g, program, read, checked, reads, enough, ended, runs limited, fun raised after same => ?_⟩
  obtain ⟨-, wrong | ⟨f, state, values, raised⟩⟩ := raises raised after same
  · exact wrong
  · cases raised

/-- Nothing is taken, as often as an infinite number says. -/
def idleText : Text := .ofString "s = n:('' \x7b return float('inf') \x7d) ''|..n|"

def endless : Value := .float (.infinite false)

def idleSemantics : Semantics where
  meaning _ _ _ := .ok endless
  matcher c := ⟨c.inverted, c.ignoreCase, c.parts⟩

/-- The shape of the first rule. -/
def idles (g : Grammar) : Bool :=
  match (g.prepare plainSettings).rules[0]?.map Rule.body with
  | some (.sequence _ [.labeled _ (some name) _ _ (.action _ _ _ (.literal _ [] _)),
      .range _ _ (.label (.text bound)) (.literal _ [] _) none]) => name == bound
  | _ => false

/-- A range of nothing is accepted if a label holds its greatest number; where user code gives an infinite
one, the parser goes on for ever. -/
theorem idle_range_runs_on : ∃ g program, Grammar.read idleText none = .ok g ∧
    (Stage.check.run plainSettings g).failure = none ∧
    (g.compiled plainSettings).bytecode? idleSemantics = some program ∧
    (∀ f state values, ∃ value, idleSemantics.meaning f state values = .ok value) ∧
    ∀ fuel, (program.runFrom fuel 0 { input := [] }).1 = .error .outOfFuel := by
  obtain ⟨g, read, checked, passes⟩ := exists_of_accepted
    (show (accepted? plainSettings idleText).any idles = true by decide +kernel)
  obtain ⟨scene, tables, reads, cache, grammar, meaning, -, faithful, prepared, compiled⟩ :=
    compiled_scene read checked idleSemantics
  refine ⟨g, scene.program, read, checked, reads, fun _ _ _ => ⟨_, rfl⟩, fun fuel => ?_⟩
  have valid : (scene.course [] none).Valid { state := { input := [] } } :=
    valid_of_inside ⟨by decide, by decide⟩ (by simp) rfl rfl
  rw [show scene.program.runFrom fuel 0 { input := [] } = _ from
    compiled.rule_runs prepared faithful fuel 0 _ valid]
  unfold idles at passes
  split at passes
  · rename_i _ labeled name at? auto acting code at' leaf ignoreCase range min bound leaf' ignoreCase'
      shape
    obtain rfl := beq_iff_eq.mp passes
    obtain ⟨r, first, body⟩ := Option.map_eq_some_iff.mp shape
    rw [← grammar] at first
    have meant : scene.meaning = fun _ _ _ => .ok endless := meaning
    -- the label holds an infinite number, so the range goes on for ever
    have labels (call : Int → Run Outcome) (rounds : Nat) (reports : Bool) (w : World) :
        Run.go (Tree.expr scene call rounds reports none []
          (.labeled labeled (some name) at? auto (.action acting code at' (.literal leaf [] ignoreCase)))) w =
            (.ok (some endless), w.change ({ · with mark := w.state.offset })) := by
      simp only [Tree.expr, Run.go_bind, Tree.go_offset, Ended.andThen_ok, List.isEmpty_nil, if_true,
        Run.go_pure, Expr.isSequence, Bool.false_eq_true, if_false, Tree.act, Tree.go_change,
        Tree.go_call, meant]
    have runs_on (call : Int → Run Outcome) (rounds : Nat) (reports : Bool) (w : World) :
        Run.go (Tree.expr scene call rounds reports none [(name, endless)]
          (.range range min (.label (.text name)) (.literal leaf' [] ignoreCase') none)) w =
            (.error .outOfFuel, w) := by
      simp only [Tree.expr, faithful.admits, if_true, List.isEmpty_nil, Tree.repetition, Tree.gather,
        Run.go_bind, Tree.go_offset, Ended.andThen_ok]
      have held : (Value.lookup? name [(name, endless)]).bind Value.number? =
          some (.double (.infinite false)) := by simp [endless, Value.lookup?, Value.number?]
      rw [@Course.collect_runs_on _ _ _ held rfl (pure (some (.text []))) (.text []) w rfl]
      rfl
    cases fuel with
    | zero => rfl
    | succ fuel =>
      have here : Index.place? scene.grammar.rules.length 0 = some 0 :=
        Index.place?_natCast (List.getElem?_eq_some_iff.mp first).1
      rw [Scene.rule_at here first, body,
        Tree.go_called_of_new 0 r.name (by simp [World.kept?, cache, idleSemantics])]
      cases fuel with
      | zero => rfl
      | succ fuel =>
        rw [Tree.expr]
        simp only [Tree.once, Tree.row, Run.go_bind, Tree.go_offset, Ended.andThen_ok, labels, Expr.extend,
          Expr.label?, Value.setField, runs_on]
        rfl
  · cases passes

end Grammar

end PegCompiler
