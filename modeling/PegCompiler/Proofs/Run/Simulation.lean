import PegCompiler.Proofs.Code.Lowering
import PegCompiler.Proofs.Run.Labels
import PegCompiler.Proofs.Run.Progress
import PegCompiler.Run.Parser

/-!
The code of an expression does what the expression does: it pushes the outcome and changes nothing
else on the stacks. Where lowering has left out a test because the outcome is known, verdicts are
right, so that the test would have had that outcome.
-/

namespace PegCompiler

/-- The program that goes with the tables of a grammar. -/
structure Program.Implements (program : Program) (scene : Scene) (tables : Tables) : Prop where
  literals : program.literals = tables.literals
  matchers : program.matchers = tables.classes.map scene.matcher
  functions : program.functions = tables.functions.map scene.meaning
  entries : ∀ (i : Nat) (expectation : Expectation), tables.expectations[i]? = some expectation →
    program.entries[i]? = Program.entry? expectation

/-- The outcome is one that the verdict leaves open. -/
def Verdict.Allows (v : Verdict) (out : Outcome) : Prop :=
  match out with
  | none => v ≠ .always
  | some _ => v ≠ .never

theorem Grammar.Moves.allows {g : Grammar} {e : Expr} {start stop : Int} {out : Outcome}
    (moves : g.Moves e start out stop) : e.verdict.Allows out := by
  cases out with
  | none => exact moves.2
  | some _ => exact moves.2.2

namespace Machine

variable {program : Program} {call : Int → Run Outcome} {fuel : Nat} {frame : Frame} {w : World}

/-- The code pushes what `run` gives. -/
def Pushes (program : Program) (call : Int → Run Outcome) (fuel : Nat) (code : List Instr)
    (frame : Frame) (run : Run Outcome) (w : World) : Prop :=
  Exec.go (block program call fuel code) frame w =
    (Run.go run w).andThen fun out after => (.ok (.next, frame.push out), after)

variable {scene : Scene} {t : Target} (implements : program.Implements scene t.tables)

include implements in
theorem go_noted {setting : Setting} {expectation : Expectation} {entry : Entry} {code : List Instr}
    (noted : Noted t setting expectation code) (same : Program.entry? expectation = some entry) :
    Exec.go (block program call fuel code) frame w =
      (Run.go (Tree.expect setting.reports entry) w).andThen fun _ after =>
        (.ok (.next, frame), after) := by
  unfold Noted at noted
  rw [Tree.go_expect]
  split at noted
  · rename_i reports
    obtain ⟨i, found, rfl⟩ := noted
    have known := Index.at?_natCast ((implements.entries i expectation found).trans same)
    rw [if_pos reports]
    simp only [Build.ops_eq, List.map_cons, List.map_nil, go_block_op, go_expect frame w known]
    cases w.state.expect entry <;> rfl
  · rename_i silent
    subst noted
    rw [if_neg silent]
    rfl

include implements in
theorem go_calling {predicate : Bool} {body : Text} {count : Int} {labels : Environment} {top : Int}
    {code : List Instr} {scope : Scope} {results : List Outcome} {positions : List Int}
    (above : List Outcome) (calling : Calling t predicate body count labels top code)
    (held : Held (above ++ results) labels scope) (length : count = above.length)
    (here : top = (above ++ results).length - 1) :
    Exec.go (block program call fuel code) ⟨above ++ results, positions⟩ w =
      (Run.go (Tree.call scene predicate body scope) w).andThen fun value after =>
        (.ok (.next, ⟨some value :: results, positions⟩), after) := by
  obtain ⟨i, found, rfl⟩ := calling
  have known : Index.at? program.functions i =
      some (scene.meaning ⟨predicate, scope.map Prod.fst, body⟩) := by
    refine Index.at?_natCast ?_
    rw [implements.functions, List.getElem?_map, found, held.names]
    rfl
  change Exec.go (block program call fuel [.op _]) _ w = _
  rw [go_block_op, go_call w known length (held.distances here), Tree.go_call]
  cases scene.meaning ⟨predicate, scope.map Prod.fst, body⟩ w.state (scope.map Prod.snd) <;> rfl

section Conditions

variable {verdict : Verdict} {out : Outcome} {results : List Outcome} {positions : List Int}

/-- A test for a failure, whether or not it has been left out. -/
theorem go_condition_failed (allows : verdict.Allows out) (yes no : List Instr) :
    Exec.go (block program call fuel (Build.condition verdict.neg Test.isFailed yes no))
        ⟨out :: results, positions⟩ w =
      Exec.go (block program call fuel (if out.isNone then yes else no))
        ⟨out :: results, positions⟩ w := by
  have whole : ∀ ended : Ended (Signal × Frame),
      ended.onward (fun frame world => (.ok (.next, frame), world)) = ended := by
    rintro ⟨_ | ⟨_ | _, _⟩, _⟩ <;> rfl
  cases verdict with
  | never =>
    cases out with
    | none => rfl
    | some _ => exact absurd rfl allows
  | always =>
    cases out with
    | none => exact absurd rfl allows
    | some _ => rfl
  | sometimes =>
    simp only [Build.condition, Verdict.neg, Verdict.select, Assembly.branch_eq, go_block_branch,
      go_isFailed, Ended.andThen_ok]
    exact whole _

/-- A test for a match, whether or not it has been left out. -/
theorem go_condition_matched (allows : verdict.Allows out) (yes no : List Instr) :
    Exec.go (block program call fuel (Build.condition verdict Test.isMatched yes no))
        ⟨out :: results, positions⟩ w =
      Exec.go (block program call fuel (if out.isNone then no else yes))
        ⟨out :: results, positions⟩ w := by
  have whole : ∀ ended : Ended (Signal × Frame),
      ended.onward (fun frame world => (.ok (.next, frame), world)) = ended := by
    rintro ⟨_ | ⟨_ | _, _⟩, _⟩ <;> rfl
  cases verdict with
  | never =>
    cases out with
    | none => rfl
    | some _ => exact absurd rfl allows
  | always =>
    cases out with
    | none => exact absurd rfl allows
    | some _ => rfl
  | sometimes =>
    simp only [Build.condition, Verdict.select, Assembly.branch_eq, go_block_branch,
      go_isMatched, Ended.andThen_ok]
    cases out <;> exact whole _

/-- Where an element has failed, its sequence is left; `count` results are taken away. -/
theorem go_leaving (allows : verdict.Allows out) {above : List Outcome} {position : Nat} {start : Int}
    (length : position = above.length + 1) :
    Exec.go (block program call fuel (Lower.leaving verdict position))
        ⟨out :: (above ++ results), start :: positions⟩ w =
      match out with
      | none => (.ok (.leave, ⟨none :: results, start :: positions⟩),
          w.change ({ · with offset := start }))
      | some _ => (.ok (.next, ⟨out :: (above ++ results), start :: positions⟩), w) := by
  have left : ∀ v : World, Exec.go (op program call (.leave position))
      ⟨none :: (above ++ results), start :: positions⟩ v =
        (.ok (.leave, ⟨none :: results, start :: positions⟩), v) :=
    fun v => go_leaveWith v (none :: above) (by omega) (by simp [length])
  cases verdict with
  | never =>
    cases out with
    | none => simp [Lower.leaving, Build.leaveIf, Verdict.neg, Verdict.select, left]
    | some _ => exact absurd rfl allows
  | always =>
    cases out with
    | none => exact absurd rfl allows
    | some _ => rfl
  | sometimes =>
    cases out with
    | none => simp [Lower.leaving, Build.leaveIf, Verdict.neg, Verdict.select, left]
    | some _ => simp [Lower.leaving, Build.leaveIf, Verdict.neg, Verdict.select]

end Conditions

section Bounds

variable {results : List Outcome} {labels : Environment} {scope : Scope}

/-- The code leaves the loop where there is enough. -/
def Checks (program : Program) (call : Int → Run Outcome) (fuel : Nat) (code : List Instr)
    (enough : Nat → Run Bool) (results : List Outcome) : Prop :=
  ∀ (items : List Value) (positions : List Int) (w : World),
    Exec.go (block program call fuel code) ⟨some (.list items) :: results, positions⟩ w =
      (Run.go (enough items.length) w).andThen fun full after =>
        (.ok (if full then .leave else .next, ⟨some (.list items) :: results, positions⟩), after)

/-- Seen from the top, where the number of a bound is. -/
theorem distance_held (held : Held results labels scope) {name : Text} {distance : Int}
    (found : Build.distance labels results.length (.text name) = .ok distance) :
    ∃ value, Value.lookup? name scope = some value ∧ 0 ≤ distance ∧
      ∀ top : Outcome, (top :: results)[distance.toNat]? = some (some value) := by
  simp only [Build.distance, Limit.name?, Option.bind_some] at found
  split at found
  · rename_i place at?
    cases found
    obtain ⟨value, known, holds⟩ := held.lookup at?
    refine ⟨value, known, ?_, fun top => ?_⟩
    · exact ((holds.push [none]).below (by simp)).1
    · exact ((holds.push [top]).below (by simp)).2
  · cases found

theorem checkMax_checks {max : Boundary} {code : List Instr} (greatest : max.IsGreatest)
    (held : Held results labels scope)
    (checks : .ok code = Build.checkMax max results.length labels) :
    Checks program call fuel code (Tree.reached scope max) results := by
  intro items positions w
  cases max with
  | constant limit =>
    cases limit with
    | text => exact absurd greatest id
    | absent =>
      cases checks
      rfl
    | number n =>
      cases checks
      simp only [Build.condition, Verdict.select, Assembly.branch_eq, Assembly.op_eq,
        Assembly.nothing_eq, Assembly.test_eq, go_block_branch, go_reached, Ended.andThen_ok,
        Tree.reached, Run.go_pure]
      cases decide (n ≤ items.length) <;> rfl
  | label limit =>
    cases limit with
    | absent | number => exact absurd greatest id
    | text name =>
      simp only [Build.checkMax, bind, Except.bind] at checks
      cases found : Build.distance labels results.length (.text name) with
      | error fault =>
        rw [found] at checks
        cases checks
      | ok distance =>
        rw [found] at checks
        cases checks
        obtain ⟨value, known, natural, at?⟩ := distance_held held found
        simp only [Build.condition, Verdict.select, Assembly.branch_eq, Assembly.op_eq,
          Assembly.nothing_eq, Assembly.test_eq, go_block_branch, go_reachedBy w natural (at? _),
          Tree.reached, Run.go_bind, Tree.go_boundOf, known, Option.bind_some]
        cases value.number? with
        | none => rfl
        | some n =>
          simp only [Ended.andThen_ok, Run.go_pure]
          cases n.atMost items.length <;> rfl

/-- What a repetition does with what it has collected. -/
def Collects (program : Program) (call : Int → Run Outcome) (fuel : Nat) (code : List Instr)
    (gather : Run (List Value)) (results : List Outcome) (w : World) : Prop :=
  ∀ positions, Exec.go (block program call fuel code) ⟨results, positions⟩ w =
    (Run.go gather w).andThen fun items after =>
      (.ok (.next, ⟨some (.list items) :: results, positions⟩), after)

theorem go_failOn {collected : List Instr} {gather : Run (List Value)} {positions : List Int}
    {condition : Test} (missing : Nat → Run Bool)
    (gathers : Collects program call fuel collected gather results w)
    (tests : ∀ (items : List Value) (positions : List Int) (v : World),
      Exec.go (test condition) ⟨some (.list items) :: results, positions⟩ v =
        (Run.go (missing items.length) v).andThen fun few after =>
          (.ok (few, ⟨some (.list items) :: results, positions⟩), after)) :
    Pushes program call fuel
      (Build.inOrder [Assembly.op .pushPosition, collected,
        Build.condition .sometimes (Assembly.test (List Instr) condition)
          (Build.ops [.loadPosition, .pop, .push .failed]) Assembly.nothing,
        Assembly.op .popPosition]) ⟨results, positions⟩ (do
      let start ← Tree.offset
      let items ← gather
      if ← missing items.length then
        Tree.goTo start
        return none
      return some (.list items)) w := by
  have code : Build.inOrder [Assembly.op .pushPosition, collected,
      Build.condition .sometimes (Assembly.test (List Instr) condition)
        (Build.ops [.loadPosition, .pop, .push .failed]) Assembly.nothing,
      Assembly.op .popPosition] = .op .pushPosition :: (collected ++
        [.branch condition [.op .loadPosition, .op .pop, .op (.push .failed)] [],
          .op .popPosition]) := by
    simp [Build.condition, Verdict.select]
  rw [code]
  unfold Pushes
  simp only [go_block_op, go_pushPosition, Ended.onward_next,
    go_block_append, gathers _, Run.go_bind, Tree.go_offset, Ended.andThen_ok,
    Ended.andThen_onward, Ended.andThen_assoc]
  refine Ended.andThen_congr fun items after _ => ?_
  simp only [go_block_branch, tests, Ended.andThen_assoc, Ended.andThen_onward]
  refine Ended.andThen_congr fun few later _ => ?_
  cases few with
  | true => rfl
  | false => rfl

/-- A repetition with the check of its least number, if it needs one. -/
theorem checkMin_pushes (min : Boundary) {code collected : List Instr} {gather : Run (List Value)}
    {positions : List Int} (least : min.IsLeast) (held : Held results labels scope)
    (checks : .ok code = Build.checkMin collected min results.length labels)
    (gathers : Collects program call fuel collected gather results w) :
    Pushes program call fuel code ⟨results, positions⟩ (do
      let start ← Tree.offset
      let items ← gather
      if ← Tree.fewer scope min items.length then
        Tree.goTo start
        return none
      return some (.list items)) w := by
  cases min with
  | constant limit =>
    cases limit with
    | absent | text => exact absurd least id
    | number n =>
      simp only [Build.checkMin, pure, Except.pure, Except.ok.injEq] at checks
      subst checks
      split
      · rename_i none
        unfold Pushes
        simp only [Run.go_bind, Tree.go_offset, Ended.andThen_ok, gathers positions, Tree.fewer,
          Run.go_pure, Ended.andThen_assoc]
        refine Ended.andThen_congr fun items after _ => ?_
        have enough : ¬(items.length : Int) < n := by omega
        simp only [enough, decide_false, Bool.false_eq_true, if_false]
        rfl
      · exact go_failOn (Tree.fewer scope (.count n)) gathers fun items positions v => by
          simp [Tree.fewer]
  | label limit =>
    cases limit with
    | absent | number => exact absurd least id
    | text name =>
      simp only [Build.checkMin, bind, Except.bind] at checks
      cases found : Build.distance labels results.length (.text name) with
      | error fault =>
        rw [found] at checks
        cases checks
      | ok distance =>
        rw [found] at checks
        simp only [pure, Except.pure, Except.ok.injEq] at checks
        subst checks
        obtain ⟨value, known, natural, at?⟩ := distance_held held found
        refine go_failOn (Tree.fewer scope (.label (.text name))) gathers
          fun items positions v => ?_
        simp only [Tree.fewer, Run.go_bind, Tree.go_boundOf, known, Option.bind_some,
          go_fewerThan v natural (at? _)]
        cases value.number? <;> rfl

end Bounds

section Loops

variable {c : Course} {g : Grammar} {e d : Expr} {results : List Outcome} {scope : Scope}
  {max : Boundary} {checkMax elementCode separatorCode : List Instr} {element separator : Run Outcome}

/-- The code pushes what `run` gives on top of every list that is being collected. -/
def PushesAbove (c : Course) (program : Program) (call : Int → Run Outcome) (fuel : Nat)
    (code : List Instr) (results : List Outcome) (run : Run Outcome) : Prop :=
  ∀ (items : List Value) (positions : List Int) (w : World), c.Valid w →
    Pushes program call fuel code ⟨some (.list items) :: results, positions⟩ run w

variable (checks : Checks program call fuel checkMax (Tree.reached scope max) results)
  (pushes : PushesAbove c program call fuel elementCode results element)
  (steps : c.Steps element (g.Moves e))

include pushes steps in
/-- An element and what is done with its outcome. -/
theorem go_element (yes no : List Instr) (items : List Value) (positions : List Int)
    (valid : c.Valid w) :
    Exec.go (block program call fuel
        (elementCode ++ Build.condition e.verdict.neg Test.isFailed yes no))
        ⟨some (.list items) :: results, positions⟩ w =
      (Run.go element w).andThen fun out after =>
        Exec.go (block program call fuel (if out.isNone then yes else no))
          ⟨out :: some (.list items) :: results, positions⟩ after := by
  rw [go_block_append, pushes items positions w valid, Ended.andThen_onward]
  refine Ended.andThen_congr fun out after ended => ?_
  rw [Ended.onward_next]
  exact go_condition_failed (steps w valid out after ended).moves.allows yes no

include checks pushes steps in
theorem go_collect (n : Nat) (items : List Value) (positions : List Int) (w : World)
    (valid : c.Valid w) :
    Exec.go (rounds true (block program call fuel
        (checkMax ++ Build.appendOrLeave e.verdict elementCode false)) n)
        ⟨some (.list items) :: results, positions⟩ w =
      (Run.go (Tree.collect (Tree.reached scope max) element n items) w).andThen fun all after =>
        (.ok (⟨⟩, ⟨some (.list all) :: results, positions⟩), after) := by
  induction n generalizing items w with
  | zero => rfl
  | succ n ih =>
    rw [go_again, Tree.collect, go_block_append, checks items positions w]
    simp only [Run.go_bind, Ended.andThen_assoc, Ended.andThen_onward]
    refine Ended.andThen_congr fun full after ended => ?_
    obtain ⟨rfl, -⟩ := Course.reached_steps scope max items.length full after ended
    cases full with
    | true => rfl
    | false =>
      simp only [Bool.false_eq_true, if_false, Ended.onward_next, Build.appendOrLeave,
        Assembly.followedBy_eq, Assembly.test_eq, go_element pushes steps _ _ items positions valid,
        Run.go_bind, Ended.andThen_assoc]
      refine Ended.andThen_congr fun out later ended => ?_
      have follows := (steps after valid out later ended).follows
      cases out with
      | none => rfl
      | some item =>
        simp only [Option.isNone_some, Bool.false_eq_true, if_false, Assembly.op_eq, go_block_op,
          go_append, Ended.onward_next, go_block_nil, Ended.andThen_ok]
        exact ih (items ++ [item]) later follows.valid

section Separated

variable (between : PushesAbove c program call fuel separatorCode results separator)
  (betweenSteps : c.Steps separator (g.Moves d))

include checks pushes steps between betweenSteps in
theorem go_separatedRound (items : List Value) (start : Int) (positions : List Int) (w : World)
    (valid : c.Valid w) :
    Exec.go (block program call fuel
        (Lower.separatedRound e.verdict d.verdict elementCode checkMax separatorCode))
        ⟨some (.list items) :: results, start :: positions⟩ w =
      (Run.go element w).andThen fun out after =>
        match out with
        | none => (.ok (.leave, ⟨some (.list items) :: results, start :: positions⟩),
            after.change ({ · with offset := start }))
        | some item =>
          (Run.go (Tree.reached scope max (items.length + 1)) after).andThen fun full later =>
            if full then
              (.ok (.leave, ⟨some (.list (items ++ [item])) :: results, start :: positions⟩), later)
            else (Run.go separator later).andThen fun out final =>
              (.ok (if out.isNone then .leave else .next,
                ⟨some (.list (items ++ [item])) :: results, later.state.offset :: positions⟩),
                final) := by
  rw [Lower.separatedRound, List.append_assoc, go_block_append]
  simp only [Build.appendOrLeave, Assembly.followedBy_eq, Assembly.test_eq,
    go_element pushes steps _ _ items (start :: positions) valid, Ended.andThen_onward]
  refine Ended.andThen_congr fun out after ended => ?_
  have valid := (steps w valid out after ended).follows.valid
  cases out with
  | none => rfl
  | some item =>
    have length : (items ++ [item]).length = items.length + 1 := by simp
    simp only [Option.isNone_some, Bool.false_eq_true, if_false, Assembly.op_eq, go_block_op,
      go_append, Ended.onward_next, go_block_nil, go_block_append, checks _ (start :: positions),
      length, Ended.andThen_onward]
    refine Ended.andThen_congr fun full later ended => ?_
    obtain ⟨rfl, -⟩ := Course.reached_steps scope max (items.length + 1) full later ended
    cases full with
    | true => rfl
    | false =>
      simp only [Bool.false_eq_true, if_false, Ended.onward_next, Build.inOrder_eq,
        List.flatten_cons, List.flatten_nil, List.append_nil, Build.ops_eq, List.map_cons,
        List.map_nil, List.cons_append, List.nil_append, go_block_op, go_popPosition,
        go_pushPosition, go_element between betweenSteps _ _ (items ++ [item]) _ valid]
      refine Ended.andThen_congr fun out final _ => ?_
      cases out <;> rfl

include checks pushes steps between betweenSteps in
/-- All rounds, and the position of the last one is dropped. -/
theorem go_separate (n : Nat) (items : List Value) (start : Int) (positions : List Int) (w : World)
    (valid : c.Valid w) :
    (looping (Exec.go (rounds true (block program call fuel
        (Lower.separatedRound e.verdict d.verdict elementCode checkMax separatorCode)) n)
        ⟨some (.list items) :: results, start :: positions⟩ w)).onward
          (Exec.go (block program call fuel [.op .popPosition])) =
      (Run.go (Tree.separate (Tree.reached scope max) element separator n start items) w).andThen
        fun all after => (.ok (.next, ⟨some (.list all) :: results, positions⟩), after) := by
  induction n generalizing items start w with
  | zero => rfl
  | succ n ih =>
    rw [go_again, go_separatedRound checks pushes steps between betweenSteps items start positions w
      valid, Tree.separate]
    simp only [Run.go_bind, looping, Ended.andThen_assoc, Ended.andThen_onward]
    refine Ended.andThen_congr fun out after ended => ?_
    have reaches := steps w valid out after ended
    cases out with
    | none => rfl
    | some item =>
      simp only [Run.go_bind, Ended.andThen_assoc]
      refine Ended.andThen_congr fun full later ended => ?_
      obtain ⟨rfl, -⟩ := Course.reached_steps scope max (items.length + 1) full later ended
      cases full with
      | true => rfl
      | false =>
        simp only [Bool.false_eq_true, if_false, Run.go_bind, Tree.go_offset, Ended.andThen_ok,
          Ended.andThen_assoc]
        refine Ended.andThen_congr fun out final ended => ?_
        have valid := (betweenSteps later reaches.follows.valid out final ended).follows.valid
        cases out with
        | none => rfl
        | some _ =>
          have others := ih (items ++ [item]) later.state.offset final valid
          simp only [looping, Ended.andThen_onward] at others
          exact others

include checks pushes steps between betweenSteps in
theorem separated_collects (greatest : max.IsGreatest) (valid : c.Valid w) :
    Collects program call fuel (Build.ops [.push .emptyList] ++
        Lower.ofRepetition e.verdict elementCode checkMax max (some (d.verdict, separatorCode)))
      (Tree.gather fuel scope max element (some separator)) results w := by
  intro positions
  have first : Exec.go (block program call fuel (Lower.firstCheck checkMax max))
      ⟨some (.list []) :: results, positions⟩ w =
      (Run.go (Tree.reached scope max 0) w).andThen fun full after =>
        (.ok (if full then .leave else .next, ⟨some (.list []) :: results, positions⟩), after) := by
    cases max with
    | label name => exact checks [] positions w
    | constant limit =>
      cases limit with
      | absent => exact checks [] positions w
      | text => exact absurd greatest id
      | number n =>
        have positive : 0 < n := greatest
        have notVoid : (Limit.number n).isVoid = false := by
          simp only [Limit.isVoid, Limit.value, Value.isTrue]
          simpa using (by omega : n ≠ 0)
        have notFull : ¬n ≤ 0 := by omega
        simp [Lower.firstCheck, notVoid, Tree.reached, notFull]
  cases fuel with
  | zero => rfl
  | succ fuel =>
    rw [Lower.ofRepetition_separated]
    simp only [Build.ops_eq, List.map_cons, List.map_nil, List.singleton_append, go_block_op,
      go_opPush, Ended.onward_next, go_block_loop, go_once, looping, Ended.andThen_assoc,
      Tree.gather, Tree.once, Run.go_bind, go_block_append, Frame.push, outcomeOf]
    rw [first]
    simp only [Ended.andThen_onward, Ended.andThen_assoc]
    refine Ended.andThen_congr fun full after ended => ?_
    obtain ⟨rfl, -⟩ := Course.reached_steps scope max 0 full after ended
    cases full with
    | true => rfl
    | false =>
      have all := go_separate checks pushes steps between betweenSteps (fuel + 1) []
        after.state.offset positions after valid
      simp only [Bool.false_eq_true, if_false, Ended.onward_next, go_block_op, go_pushPosition,
        go_block_loop, all, Run.go_bind, Tree.go_offset, Ended.andThen_ok, Ended.andThen_assoc]
      rfl

end Separated

include checks pushes steps in
theorem plain_collects (valid : c.Valid w) :
    Collects program call fuel (Build.ops [.push .emptyList] ++
        Lower.ofRepetition e.verdict elementCode checkMax max none)
      (Tree.gather fuel scope max element none) results w := by
  intro positions
  simp only [Build.ops_eq, List.map_cons, List.map_nil, List.singleton_append, go_block_op,
    go_opPush, Ended.onward_next, Lower.ofRepetition, Assembly.loop_eq, go_block_loop, looping]
  have collected := go_collect checks pushes steps fuel [] positions w valid
  simp only [Option.isSome_none, Frame.push, outcomeOf, collected, Ended.andThen_assoc,
    Ended.andThen_onward]
  rfl

end Loops

section Expressions

variable {c : Course} {call' : Int → Run Outcome}
  (places : t.placeOf = scene.grammar.placeOf) (faithful : scene.Faithful)
  (agree : ∀ index w, c.Valid w → Run.go (call index) w = Run.go (call' index) w)
  (calls : ∀ name r, scene.grammar.find? name = some r →
    c.Steps (call' (scene.grammar.placeOf name)) (scene.grammar.Moves r.body))
  (judged : scene.grammar.Judged)

/-- What the simulation says of one expression. -/
def Simulates (c : Course) (program : Program) (scene : Scene) (t : Target)
    (call call' : Int → Run Outcome) (fuel : Nat) (e : Expr) : Prop :=
  ∀ (setting : Setting) (labels : Environment) (scope : Scope) (code : List Instr) (frame : Frame)
    (w : World), Lowered t setting labels e code → (frame.results.length : Int) = setting.top + 1 →
    Held frame.results labels scope → c.Valid w →
    Pushes program call fuel code frame
      (Tree.expr scene call' fuel setting.reports setting.finish scope e) w

include implements in
/-- The end of a sequence. -/
theorem finishing_pushes {setting : Setting} {labels : Environment} {scope : Scope}
    {places : List Int} {autos values : List Value} {code : List Instr} {base : List Outcome}
    {start : Int} {positions : List Int}
    (finishing : Finishing t setting labels places values.length code)
    (top : (((values.map some).reverse ++ base).length : Int) = setting.top + 1)
    (held : Held ((values.map some).reverse ++ base) labels scope)
    (kept : Kept ((values.map some).reverse ++ base) places autos) :
    Exec.go (block program call fuel code) ⟨(values.map some).reverse ++ base, start :: positions⟩ w =
      (Run.go (Tree.row scene call' fuel setting.reports setting.finish start scope autos values [])
        w).andThen fun out after =>
          (.ok (if out.isNone then .leave else .next, ⟨out :: base, start :: positions⟩), after) := by
  have length : (values.length : Int) = ((values.map some).reverse).length := by simp
  have here : setting.top = ((values.map some).reverse ++ base).length - 1 := by omega
  unfold Finishing at finishing
  cases finish : setting.finish with
  | some body =>
    rw [finish] at finishing
    obtain ⟨calling, found, rfl⟩ := finishing
    simp only [Build.ops_eq, List.map_cons, List.map_nil, List.singleton_append, go_block_op,
      go_markTop, Ended.onward_next, go_calling implements _ found held length here, Tree.row, Tree.act,
      Run.go_bind, Tree.go_change, Ended.andThen_ok, Ended.andThen_assoc]
    rfl
  | none =>
    rw [finish] at finishing
    have distances := kept.distances here
    cases kept with
    | nil =>
      obtain rfl : code = _ := finishing
      simp only [Build.ops_eq, List.map_cons, List.map_nil, go_block_op, go_wrap w rfl,
        Ended.onward_next, Tree.row, Tree.rowValue]
      rfl
    | cons first others =>
      cases others with
      | nil =>
        obtain rfl : code = _ := finishing
        simp only [List.map_cons, List.map_nil, List.forall₂_cons] at distances
        simp only [Build.ops_eq, List.map_cons, List.map_nil, go_block_op,
          go_get w length distances.1.1 distances.1.2, Ended.onward_next, Tree.row,
          Tree.rowValue]
        rfl
      | cons second rest =>
        obtain rfl : code = _ := finishing
        rw [Build.ops_eq, List.map_singleton, go_block_op, go_wrapSome w length distances, Tree.row]
        rfl

include implements in
/-- What is left of a sequence. -/
theorem row_simulates {es : List Expr} (each : ∀ e ∈ es, Simulates c program scene t call call' fuel e)
    (steps : ∀ e ∈ es, ∀ reports scope, c.Steps (Tree.expr scene call' fuel reports none scope e)
      (scene.grammar.Moves e))
    (setting : Setting) (labels : Environment) (scope : Scope) (places : List Int)
    (autos values : List Value) (code : List Instr) (base : List Outcome) (start : Int)
    (positions : List Int) (w : World)
    (lowered : LoweredRow t setting labels places (values.length + 1) es code)
    (top : (((values.map some).reverse ++ base).length : Int) = setting.top + 1)
    (held : Held ((values.map some).reverse ++ base) labels scope)
    (kept : Kept ((values.map some).reverse ++ base) places autos) (valid : c.Valid w) :
    Exec.go (block program call fuel code) ⟨(values.map some).reverse ++ base, start :: positions⟩ w =
      (Run.go (Tree.row scene call' fuel setting.reports setting.finish start scope autos values es)
        w).andThen fun out after =>
          (.ok (if out.isNone then .leave else .next, ⟨out :: base, start :: positions⟩), after) := by
  induction es generalizing setting labels scope places autos values code w with
  | nil => exact finishing_pushes implements lowered top held kept
  | cons e rest ih =>
    obtain ⟨first, others, here, lowered, rfl⟩ := lowered
    have pushes := each e (by simp) setting.inner labels scope first
      ⟨(values.map some).reverse ++ base, start :: positions⟩ w here top held valid
    rw [List.append_assoc, go_block_append, pushes, Tree.row]
    simp only [Run.go_bind, Ended.andThen_onward, Ended.andThen_assoc]
    refine Ended.andThen_congr fun out after ended => ?_
    have reaches := steps e (by simp) _ scope w valid out after ended
    have allows := reaches.moves.allows
    have bound : values.length + 1 = ((values.map some).reverse).length + 1 := by simp
    rw [Ended.onward_next, go_block_append, Frame.push, go_leaving allows bound]
    cases out with
    | none => rfl
    | some value =>
      have above : some value :: ((values.map some).reverse ++ base) =
          ((values ++ [value]).map some).reverse ++ base := by simp
      have place : setting.top + 1 = ((values.map some).reverse ++ base).length := top.symm
      rw [place] at lowered
      have held' := held.define e value
      have kept' := kept.collect e value
      rw [above] at held' kept'
      simp only [Ended.onward_next]
      rw [above]
      refine ih (fun e he => each e (by simp [he])) (fun e he => steps e (by simp [he])) setting.next _ _
        _ _ (values ++ [value]) others after ?_ ?_ held' kept' reaches.follows.valid
      · simpa using lowered
      · rw [← above, List.length_cons, Int.natCast_add, top]
        rfl

include faithful in
/-- Where no alternative is kept, none is tried. -/
theorem go_alternatives_none {es : List Expr} {setting : Setting} {labels : Environment}
    (lowered : LoweredChoices t setting labels es []) (reports : Bool) (scope : Scope) :
    Run.go (Tree.alternatives scene call' fuel reports scope es) w = (.ok none, w) := by
  induction es with
  | nil => rfl
  | cons e rest ih =>
    unfold LoweredChoices at lowered
    cases verdict : e.verdict with
    | never =>
      simp only [verdict] at lowered
      rw [Tree.alternatives, faithful.prune, verdict]
      exact ih lowered
    | always =>
      simp only [verdict] at lowered
      obtain ⟨_, _, contra⟩ := lowered
      cases contra
    | sometimes =>
      simp only [verdict] at lowered
      obtain ⟨_, _, _, _, contra⟩ := lowered
      cases contra

include faithful in
/-- Alternatives one after the other; the loop around them is left or has ended. -/
theorem choices_simulate {es : List Expr}
    (each : ∀ e ∈ es, Simulates c program scene t call call' fuel e)
    (steps : ∀ e ∈ es, ∀ reports scope, c.Steps (Tree.expr scene call' fuel reports none scope e)
      (scene.grammar.Moves e))
    (setting : Setting) (labels : Environment) (scope : Scope) (codes : List (List Instr))
    (frame : Frame) (w : World) (lowered : LoweredChoices t setting.inner labels es codes)
    (some : codes ≠ []) (top : (frame.results.length : Int) = setting.top + 1)
    (held : Held frame.results labels scope) (valid : c.Valid w) :
    (Exec.go (block program call fuel (Lower.firstMatch codes)) frame w).andThen
        (fun (_, frame) after => (.ok (Signal.next, frame), after)) =
      (Run.go (Tree.alternatives scene call' fuel setting.reports scope es) w).andThen
        fun out after => (.ok (Signal.next, frame.push out), after) := by
  induction es generalizing codes w with
  | nil => exact absurd lowered some
  | cons e rest ih =>
    have ih := fun codes w => ih (fun e he => each e (by simp [he])) (fun e he => steps e (by simp [he]))
      codes w
    have pushes := fun code lowered => each e (by simp) setting.inner labels scope code frame w lowered
      top held valid
    have reach := steps e (by simp) setting.reports scope w valid
    rw [Tree.alternatives, faithful.prune]
    simp only [Bool.true_and, decide_eq_true_eq]
    unfold LoweredChoices at lowered
    cases verdict : e.verdict with
    | never =>
      simp only [verdict] at lowered
      simpa using ih codes w lowered some valid
    | always =>
      simp only [verdict] at lowered
      obtain ⟨code, here, rfl⟩ := lowered
      rw [Lower.firstMatch, pushes code here, if_neg (by simp)]
      simp only [Run.go_bind, Ended.andThen_assoc]
      refine Ended.andThen_congr fun out after ended => ?_
      cases out with
      | none => exact absurd verdict (reach Option.none after ended).moves.2
      | some value => rfl
    | sometimes =>
      simp only [verdict] at lowered
      obtain ⟨code, others, here, lowered, rfl⟩ := lowered
      rw [if_neg (by simp)]
      simp only [Run.go_bind, Ended.andThen_assoc]
      cases others with
      | nil =>
        rw [Lower.firstMatch, pushes code here]
        simp only [Ended.andThen_assoc]
        refine Ended.andThen_congr fun out after ended => ?_
        cases out with
        | some value => rfl
        | none =>
          simp only [go_alternatives_none faithful lowered]
          rfl
      | cons next others =>
        rw [Lower.firstMatch, List.append_assoc, go_block_append, pushes code here]
        · simp only [Ended.andThen_assoc, Ended.andThen_onward, Ended.onward_next]
          refine Ended.andThen_congr fun out after ended => ?_
          have reaches := reach out after ended
          cases out with
          | some value => rfl
          | none => exact ih (next :: others) after lowered (by simp) reaches.follows.valid
        · simp

include implements in
/-- A leaf: what it expects is noted, then it is matched. -/
theorem leaf_pushes {setting : Setting} {expectation : Expectation} {entry : Entry}
    {noted : List Instr} {o : Op}
    {primitive : ParserState → Except Raise (Option Text × ParserState)}
    (notes : Noted t setting expectation noted) (same : Program.entry? expectation = some entry)
    (does : op program call o = do matching primitive; return .next) :
    Pushes program call fuel (noted ++ Build.ops [o]) frame (do
      Tree.expect setting.reports entry
      Tree.matching primitive) w := by
  unfold Pushes
  rw [go_block_append, go_noted implements notes same]
  simp only [Run.go_bind, Ended.andThen_assoc, Ended.andThen_onward, Ended.onward_next]
  refine Ended.andThen_congr fun _ after _ => ?_
  simp only [Build.ops_eq, List.map_cons, List.map_nil, go_block_op, does, Exec.go_bind,
    go_matching, Tree.go_matching]
  rcases primitive after.state with _ | ⟨matched, later⟩ <;> rfl

section Operators

variable {e : Expr} {innerCode : List Instr} {inner : Run Outcome} {results : List Outcome}
  (steps : c.Steps inner (scene.grammar.Moves e))

include steps in
/-- Looking ahead: the body is run with a record of its own. -/
theorem lookahead_pushes {positions : List Int}
    (pushes : ∀ (positions : List Int) (w : World), c.Valid w →
      Pushes program call fuel innerCode ⟨results, positions⟩ inner w)
    (negative : Bool) (valid : c.Valid w) :
    Pushes program call fuel (Lower.ofLookahead negative e.verdict innerCode) ⟨results, positions⟩
      (Tree.lookahead negative inner) w := by
  have opened : Exec.go (block program call fuel innerCode)
      ⟨results, w.state.offset :: positions⟩ (w.change (·.openRecord)) = _ :=
    pushes (w.state.offset :: positions) _ valid.opened
  have flag : (flagWord negative != 0) = negative := by cases negative <;> rfl
  unfold Pushes
  simp only [Lower.ofLookahead, Build.inOrder_eq, List.flatten_cons, List.flatten_nil,
    Build.ops_eq, List.map_cons, List.map_nil, List.cons_append, List.nil_append, List.append_nil,
    go_block_op, go_pushPosition, go_openRecord, Ended.onward_next, go_block_append,
    opened, Ended.andThen_onward, Tree.lookahead, Run.go_bind, Tree.go_offset,
    Tree.go_change, Ended.andThen_ok, Ended.andThen_assoc]
  refine Ended.andThen_congr fun out after ended => ?_
  have allows := (steps _ valid.opened out after ended).moves.allows
  simp only [go_closeRecord, flag, Tree.go_closeRecord]
  rcases after.state.closeRecord negative with ⟨_ | raised, closed⟩
  · simp only [Ended.onward_next, Ended.andThen_ok, Frame.push]
    cases negative with
    | false =>
      simp only [Bool.false_eq_true, if_false, go_block_append, go_condition_matched allows]
      cases out <;> rfl
    | true =>
      simp only [if_true, go_block_append, go_condition_failed allows]
      cases out <;> rfl
  · rfl

end Operators

include implements places faithful agree calls judged in
/-- The code of an expression does what the expression does. -/
theorem lowered_simulates (e : Expr) : scene.grammar.Sound e →
    Simulates c program scene t call call' fuel e := by
  induction e using Expr.byChildren with
  | node e ih =>
    intro sound setting labels scope code frame w lowered top held valid
    obtain ⟨results, positions⟩ := frame
    have each : ∀ b ∈ e.children, Simulates c program scene t call call' fuel b :=
      fun b hb => ih b hb (sound.child hb)
    have steps : ∀ b ∈ e.children, ∀ reports finish scope,
        c.Steps (Tree.expr scene call' fuel reports finish scope b) (scene.grammar.Moves b) :=
      fun b hb => Course.expr_steps calls judged b (sound.child hb)
    -- what is repeated runs above the list of what has been collected
    have above : ∀ b ∈ e.children, ∀ code, Lowered t setting.next.inner labels b code →
        PushesAbove c program call fuel code results
          (Tree.expr scene call' fuel setting.reports none scope b) := by
      intro b hb code lowered items positions w valid
      refine each b hb setting.next.inner labels scope code _ w lowered ?_ (held.push [_]) valid
      change ((results.length + 1 : Nat) : Int) = setting.top + 1 + 1
      have : (results.length : Int) = setting.top + 1 := top
      omega
    have place : setting.top + 1 = results.length := top.symm
    cases e with
    | literal info value ignoreCase =>
      unfold Lowered at lowered
      unfold Pushes
      split at lowered
      · rename_i empty
        subst empty lowered
        simp [Tree.expr, outcomeOf]
      · rename_i nonempty
        obtain ⟨noted, i, notes, found, rfl⟩ := lowered
        have nonempty' : value.isEmpty = false := by simpa using nonempty
        have at? := Index.at?_natCast (implements.literals ▸ found)
        simp only [Tree.expr, nonempty', Bool.false_eq_true, if_false]
        refine leaf_pushes implements notes rfl ?_
        cases ignoreCase with
        | true =>
          have at? : Index.at? program.literals i = some value.lowercase := at?
          simp only [if_true, op, at?, present, pure_bind]
        | false =>
          have at? : Index.at? program.literals i = some value := at?
          simp only [Bool.false_eq_true, if_false, op, at?, present, pure_bind]
    | charClass info members =>
      unfold Lowered at lowered
      obtain ⟨noted, notes, lowered⟩ := lowered
      rw [Tree.expr]
      split at lowered
      · rename_i empty
        subst lowered
        unfold Pushes
        rw [go_block_append, go_noted implements notes rfl, if_pos (by simp [empty])]
        simp only [Run.go_bind, Ended.andThen_assoc, Ended.andThen_onward]
        rfl
      · rename_i nonempty
        obtain ⟨i, found, rfl⟩ := lowered
        have at? : Index.at? program.matchers i = some (scene.matcher members) := by
          refine Index.at?_natCast ?_
          rw [implements.matchers, List.getElem?_map, found]
          rfl
        rw [if_neg (by simpa using nonempty)]
        refine leaf_pushes implements notes rfl ?_
        simp only [op, at?, present, pure_bind]
    | any info =>
      unfold Lowered at lowered
      obtain ⟨noted, notes, rfl⟩ := lowered
      rw [Tree.expr]
      exact leaf_pushes implements notes rfl rfl
    | ruleRef info name =>
      unfold Lowered at lowered
      subst lowered
      unfold Pushes
      rw [places, Tree.expr, ← agree _ w valid]
      simp only [Build.ops_eq, List.map_cons, List.map_nil, go_block_op, go_rule,
        Ended.andThen_onward]
      rfl
    | sequence info es =>
      unfold Lowered at lowered
      obtain ⟨body, lowered, rfl⟩ := lowered
      unfold Pushes
      simp only [Build.ops_eq, List.map_cons, List.map_nil, Assembly.loop_eq, List.cons_append,
        List.nil_append, go_block_op, go_pushPosition, Ended.onward_next, go_block_loop, Tree.expr,
        Run.go_bind, Tree.go_offset, Ended.andThen_ok]
      cases fuel with
      | zero => rfl
      | succ fuel =>
        have row := row_simulates implements each (fun e he reports scope => steps e he reports none scope)
          setting labels scope [] [] [] body results w.state.offset positions w lowered top held .nil valid
        rw [go_once]
        simp only [List.map_nil, List.reverse_nil, List.nil_append] at row
        rw [row]
        simp only [looping, Tree.once, Ended.andThen_assoc, Ended.andThen_onward]
        rfl
    | choice info es =>
      unfold Lowered at lowered
      unfold Pushes
      split at lowered
      · rename_i never
        subst lowered
        rw [Tree.expr, faithful.prune, never]
        rfl
      · rename_i possible
        obtain ⟨codes, lowered, nonempty, rfl⟩ := lowered
        rw [Tree.expr, faithful.prune, if_neg (by simpa using possible), Assembly.loop_eq]
        cases fuel with
        | zero => rfl
        | succ fuel =>
          have choices := choices_simulate faithful each
            (fun e he reports scope => steps e he reports none scope) setting labels scope codes
            ⟨results, positions⟩ w lowered nonempty top held valid
          rw [go_block_loop, go_once, looping, Ended.andThen_assoc]
          simp only [Ended.andThen_ok]
          rw [choices, Ended.andThen_onward]
          rfl
    | labeled info label at? auto body =>
      unfold Lowered at lowered
      rw [Tree.expr]
      exact each body (by simp [Expr.children]) setting.inner labels scope code _ w lowered top held
        valid
    | unary info operator body =>
      have below : body ∈ (Expr.unary info operator body).children := by simp [Expr.children]
      have inner := each body below setting.inner labels scope
      have innerSteps := steps body below setting.reports none scope
      cases operator with
      | group =>
        unfold Lowered at lowered
        rw [Tree.expr]
        exact inner code _ w lowered top held valid
      | text =>
        unfold Lowered at lowered
        obtain ⟨innerCode, lowered, rfl⟩ := lowered
        unfold Pushes
        rw [Tree.expr]
        simp only [Run.go_bind, Tree.go_offset, Ended.andThen_ok]
        split
        · rename_i never
          rw [inner innerCode _ w lowered top held valid, Ended.andThen_assoc]
          refine Ended.andThen_congr fun out after ended => ?_
          cases out with
          | none => rfl
          | some _ => exact absurd never (innerSteps w valid _ after ended).moves.2.2
        · simp only [Build.ops_eq, List.map_cons, List.map_nil, List.append_assoc, List.cons_append,
            List.nil_append, go_block_op, go_pushPosition, Ended.onward_next, go_block_append]
          have pushes := inner innerCode ⟨results, w.state.offset :: positions⟩ w lowered top held valid
          rw [pushes, Ended.andThen_onward, Ended.andThen_assoc]
          refine Ended.andThen_congr fun out after ended => ?_
          rw [Ended.onward_next, Frame.push, go_block_append,
            go_condition_matched (innerSteps w valid out after ended).moves.allows]
          cases out <;> rfl
      | followedBy =>
        unfold Lowered at lowered
        obtain ⟨innerCode, lowered, rfl⟩ := lowered
        rw [Tree.expr]
        exact lookahead_pushes innerSteps (fun positions w => inner innerCode _ w lowered top held) false
          valid
      | notFollowedBy =>
        unfold Lowered at lowered
        obtain ⟨innerCode, lowered, rfl⟩ := lowered
        rw [Tree.expr]
        exact lookahead_pushes innerSteps (fun positions w => inner innerCode _ w lowered top held) true
          valid
      | optional =>
        unfold Lowered at lowered
        obtain ⟨innerCode, lowered, rfl⟩ := lowered
        unfold Pushes
        rw [Tree.expr, go_block_append, inner innerCode _ w lowered top held valid,
          Ended.andThen_onward]
        simp only [Run.go_bind, Ended.andThen_assoc]
        refine Ended.andThen_congr fun out after ended => ?_
        rw [Ended.onward_next, Frame.push,
          go_condition_failed (innerSteps w valid out after ended).moves.allows]
        cases out <;> rfl
      | zeroOrMore =>
        unfold Lowered at lowered
        obtain ⟨innerCode, lowered, rfl⟩ := lowered
        rw [Tree.expr]
        exact checkMin_pushes (.count 0) (Int.le_refl 0) held rfl
          (plain_collects (checkMax_checks trivial held rfl) (above body below innerCode lowered)
            innerSteps valid)
      | oneOrMore =>
        unfold Lowered at lowered
        obtain ⟨innerCode, lowered, checked⟩ := lowered
        rw [place] at checked
        rw [Tree.expr]
        exact checkMin_pushes (.count 1) (Int.zero_le_ofNat 1) held checked
          (plain_collects (checkMax_checks trivial held rfl) (above body below innerCode lowered)
            innerSteps valid)
    | range info min max body delimiter =>
      obtain ⟨least, greatest, -⟩ := sound.textual.here
      cases delimiter with
      | none =>
        unfold Lowered at lowered
        obtain ⟨innerCode, checkMax, lowered, most, checked⟩ := lowered
        rw [place] at most checked
        have below : body ∈ (Expr.range info min max body none).children := by simp [Expr.children]
        rw [Tree.expr, if_pos (faithful.admits _ _)]
        exact checkMin_pushes min least held checked
          (plain_collects (checkMax_checks greatest held most) (above body below innerCode lowered)
            (steps body below setting.reports none scope) valid)
      | some separator =>
        unfold Lowered at lowered
        obtain ⟨innerCode, checkMax, between, lowered, most, separated, checked⟩ := lowered
        rw [place] at most checked
        have below : body ∈ (Expr.range info min max body (some separator)).children := by
          simp [Expr.children]
        have beside : separator ∈ (Expr.range info min max body (some separator)).children := by
          simp [Expr.children]
        rw [Tree.expr, if_pos (faithful.admits _ _)]
        exact checkMin_pushes min least held checked
          (separated_collects (checkMax_checks greatest held most)
            (above body below innerCode lowered) (steps body below setting.reports none scope)
            (above separator beside between separated)
            (steps separator beside setting.reports none scope) greatest valid)
    | named info name body => exact absurd sound.textual.here id
    | action info text at? body =>
      have below : body ∈ (Expr.action info text at? body).children := by simp [Expr.children]
      have innerSteps := steps body below setting.reports (some text) scope
      unfold Lowered at lowered
      obtain ⟨innerCode, lowered, rest⟩ := lowered
      have inner positions := each body below { setting with finish := some text } labels scope
        innerCode ⟨results, positions⟩ w lowered top held valid
      unfold Pushes at inner ⊢
      rw [Tree.expr]
      simp only [Run.go_bind, Tree.go_offset, Ended.andThen_ok]
      split at rest
      · rename_i sequence
        subst rest
        rw [inner positions, Ended.andThen_assoc]
        refine Ended.andThen_congr fun out after ended => ?_
        cases out with
        | none => rfl
        | some value => simp [sequence]
      · rename_i notSequence
        obtain ⟨calling, rfl, does⟩ := rest
        simp only [Build.ops_eq, List.map_cons, List.map_nil, List.append_assoc, List.cons_append,
          List.nil_append, go_block_op, go_pushPosition, Ended.onward_next, go_block_append,
          inner (w.state.offset :: positions), Ended.andThen_onward, Ended.andThen_assoc]
        refine Ended.andThen_congr fun out after ended => ?_
        have moves := (innerSteps w valid out after ended).moves
        rw [Frame.push, go_condition_matched moves.allows]
        cases out with
        | none => rfl
        | some value =>
          obtain ⟨acting, rfl, calling⟩ := does moves.2.2
          rw [place] at calling
          have called : Exec.go (block program call fuel acting)
              ⟨some value :: results, w.state.offset :: positions⟩
              (after.change ({ · with mark := w.state.offset })) = _ :=
            go_calling implements [some value] calling (held.define body value) rfl (by simp)
          simp only [Option.isNone_some, Bool.false_eq_true, if_false, Build.ops_eq, List.map_cons,
            List.map_nil, List.cons_append, List.nil_append, go_block_op, go_markTop,
            Ended.onward_next, called, Ended.andThen_onward, notSequence, Tree.act, Run.go_bind,
            Tree.go_change, Ended.andThen_ok, Ended.andThen_assoc]
          rfl
    | predicate info negative text =>
      unfold Lowered at lowered
      obtain ⟨calling, calls, rfl⟩ := lowered
      unfold Pushes
      rw [Tree.expr]
      have here : setting.top = (([] ++ results : List Outcome).length : Int) - 1 := by
        simp only [List.nil_append]
        omega
      have called : Exec.go (block program call fuel calling) ⟨results, positions⟩
          (w.change fun s => { s with mark := s.offset }) = _ :=
        go_calling implements [] calls held rfl here
      simp only [Build.ops_eq, List.map_cons, List.map_nil, List.cons_append, List.nil_append,
        go_block_op, go_markHere, Ended.onward_next, go_block_append, called,
        Ended.andThen_onward, Run.go_bind, Tree.go_change, Ended.andThen_ok, Ended.andThen_assoc]
      refine Ended.andThen_congr fun value after ended => ?_
      simp only [go_block_branch, go_isTrue, Ended.andThen_ok, Option.map_some, Option.getD_some]
      cases value.isTrue <;> cases negative <;> rfl
    | foreign what => exact absurd sound.textual.here id

/-- Code behind the noting of what is expected. -/
theorem expected_pushes {i : Int} {entry : Entry} {code : List Instr} {frame : Frame} {run : Run Outcome}
    {w : World} (known : Index.at? program.entries i = some entry) (valid : c.Valid w)
    (pushes : ∀ v, c.Valid v → Pushes program call fuel code frame run v) :
    Pushes program call fuel (Build.ops [.expect i] ++ code) frame
      (do Tree.expect true entry; run) w := by
  obtain ⟨s, noted, -, follows⟩ := valid.expect entry
  have pushes := pushes _ follows.valid
  unfold Pushes at pushes ⊢
  simp only [Build.ops_eq, List.map_cons, List.map_nil, List.cons_append, List.nil_append,
    go_block_op, go_expect frame w known, noted, Ended.onward_next, pushes, Run.go_bind,
    Tree.go_expect, if_true, Ended.andThen_ok]

/-- Code between the beginning and the end of silence. -/
theorem silently_pushes {code : List Instr} {frame : Frame} {run : Run Outcome} {w : World}
    (pushes : ∀ v, c.Valid v → Pushes program call fuel code frame run v) (valid : c.Valid w) :
    Pushes program call fuel (Build.ops [.silence] ++ code ++ Build.ops [.unsilence]) frame
      (Tree.silently run) w := by
  have pushes : Exec.go (block program call fuel code) frame
      (w.change fun s => { s with silence := s.silence + 1 }) = _ :=
    pushes _ (valid.silence _).valid
  unfold Pushes
  simp only [Build.ops_eq, List.map_cons, List.map_nil, List.cons_append, List.nil_append,
    go_block_op, Ended.onward_next, go_silence, go_block_append, pushes, Ended.andThen_onward,
    go_unsilence, Tree.silently, Run.go_bind, Tree.go_change, Ended.andThen_ok, Ended.andThen_assoc]
  rfl

include implements places faithful agree calls judged in
/-- The same for the body of a rule. -/
theorem body_simulates {e : Expr} (body : scene.grammar.SoundBody e) :
    Simulates c program scene t call call' fuel e := by
  cases body with
  | plain sound => exact lowered_simulates implements places faithful agree calls judged e sound
  | @displayed info name e verdict sound =>
    have inner : Simulates c program scene t call call' fuel e :=
      lowered_simulates implements places faithful agree calls judged e sound
    intro setting labels scope code frame w lowered top held valid
    unfold Lowered at lowered
    rw [Tree.expr]
    split at lowered
    · rename_i reports
      obtain ⟨i, innerCode, found, lowered, rfl⟩ := lowered
      rw [if_pos reports]
      refine expected_pushes (Index.at?_natCast (implements.entries i _ found)) valid fun v valid => ?_
      exact silently_pushes (fun v valid => inner { setting with reports := false } labels scope
        innerCode frame v lowered top held valid) valid
    · rename_i loud
      have silent : setting.reports = false := by simpa using loud
      have pushes := inner setting labels scope code frame w lowered top held valid
      rw [silent] at pushes
      rw [if_neg loud]
      exact pushes

end Expressions

end Machine

end PegCompiler
