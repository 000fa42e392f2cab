import PegCompiler.Proofs.Run.Passing

/-!
Where a syntax error comes from. `Machine.Closed` is a property that instructions have which run neither
user code nor a rule, because they only look at the world and change stacks and state
(`Machine.Closed.op`). So no instruction raises a syntax error by itself (`Machine.op_quiet`), and one
that is raised in a rule is raised by user code, at a moment that the run of the rule reaches
(`Machine.reaches_of_rule_raises`).
-/

namespace PegCompiler

/-- An instruction that runs neither user code nor a rule. -/
def Op.isOwn : Op → Bool
  | call .. | rule _ => false
  | _ => true

namespace Machine

theorem matchOne_ne (s : ParserState) (accepts : CodePoint → Bool) (error : ParseError) :
    s.matchOne accepts ≠ .error (.syntaxError error) := by
  unfold ParserState.matchOne ParserState.peek
  split
  · nofun
  · split <;> nofun

theorem matchClass_ne (s : ParserState) (matcher : ClassMatcher) (error : ParseError) :
    s.matchClass matcher ≠ .error (.syntaxError error) := by
  unfold ParserState.matchClass
  split
  · nofun
  · split
    · exact matchOne_ne s _ error
    · nofun

theorem expect_ne (s : ParserState) (entry : Entry) (error : ParseError) :
    s.expect entry ≠ .error (.syntaxError error) := by
  unfold ParserState.expect
  split
  · nofun
  · split <;> nofun

namespace Looks

variable {α : Type}

theorem state : Looks state := fun _ _ => .inl ⟨_, rfl⟩

theorem raise {raised : Raise} (other : ∀ error, raised ≠ .syntaxError error) :
    Looks (raise raised : Exec α) := fun _ _ => .inr ⟨raised, rfl, other⟩

theorem lift {result : Except Raise α} (other : ∀ error, result ≠ .error (.syntaxError error)) :
    Looks (lift result) := by
  cases result with
  | ok a => exact pure a
  | error raised => exact raise fun error same => other error (same ▸ rfl)

end Looks

/-- Whatever is put together of looks and of changes of the stacks and the state has the property. -/
structure Closed (P : {α : Type} → Exec α → Prop) : Prop where
  looks : ∀ {α : Type} {exec : Exec α}, Looks exec → P exec
  bind : ∀ {α β : Type} {exec : Exec α} {next : α → Exec β}, P exec → (∀ a, P (next a)) →
    P (exec >>= next)
  frames : ∀ change, P (modify change : Exec PUnit)
  states : ∀ change, P (changeState change)

namespace Closed

variable {P : {α : Type} → Exec α → Prop} {α : Type}

theorem ite {condition : Prop} [Decidable condition] {yes no : Exec α} (first : P yes) (second : P no) :
    P (if condition then yes else no) := by
  split
  · exact first
  · exact second

variable (closed : Closed P)

include closed

theorem behind {exec : Exec α} (first : P exec) (signal : Signal) :
    P (exec >>= fun _ => Pure.pure signal) :=
  closed.bind first fun _ => closed.looks (.pure _)

theorem discard {exec : Exec α} (first : P exec) : P (discard exec) :=
  closed.bind first fun _ => closed.looks (.pure _)

theorem setState (s : ParserState) : P (setState s) := closed.states fun _ => s

theorem push (result : Outcome) : P (push result) := closed.frames _

theorem pushValue (value : Value) : P (pushValue value) := closed.push _

theorem take (n : Int) : P (take n) :=
  closed.bind (closed.looks (.count n)) fun _ => closed.bind (closed.looks .frame) fun _ =>
    have rest : P (MonadStateOf.set _ >>= fun _ => Pure.pure _ : Exec (List Outcome)) :=
      closed.bind (closed.frames fun _ => _) fun _ => closed.looks (.pure _)
    ite (closed.bind (closed.looks .malformed) fun _ => rest) rest

theorem pop : P pop := closed.bind (closed.looks .frame) fun frame => by
  split
  · exact closed.looks .malformed
  · exact closed.bind (closed.frames _) fun _ => closed.looks (.pure _)

theorem matching {primitive : ParserState → Except Raise (Option Text × ParserState)}
    (other : ∀ s error, primitive s ≠ .error (.syntaxError error)) : P (matching primitive) :=
  closed.bind (closed.looks .state) fun s => closed.bind (closed.looks (.lift (other s))) fun _ =>
    closed.bind (closed.setState _) fun _ => closed.push _

/-- A primitive that always has an answer. -/
theorem answering (primitive : ParserState → Option Text × ParserState) :
    P (Machine.matching fun s => .ok (primitive s)) :=
  closed.matching fun s error same => by cases same

theorem accept (n : Int) : P (accept n) :=
  closed.bind (closed.looks (.count n)) fun n => closed.bind (closed.looks .state) fun current =>
    have rest : P (Machine.pushValue (.text (current.rest.take (max n 1))) >>= fun _ =>
        changeState (·.advance n)) := closed.bind (closed.pushValue _) fun _ => closed.states _
    ite (closed.bind (closed.discard (closed.looks (.present _))) fun _ => rest) rest

theorem expect (program : Program) (index : Int) : P (expect program index) :=
  closed.bind (closed.looks (.present _)) fun entry => closed.bind (closed.looks .state) fun s =>
    closed.bind (closed.looks (.lift (expect_ne s entry))) fun _ => closed.setState _

theorem closeRecord (inverted : Bool) : P (closeRecord inverted) :=
  closed.bind (closed.looks .state) fun s => closed.bind (closed.setState _) fun _ => by
    have other : ∀ error, (s.closeRecord inverted).1 ≠ some (.syntaxError error) := by
      unfold ParserState.closeRecord
      split <;> simp
    split
    · exact closed.looks (.pure _)
    · rename_i raised found
      exact closed.looks (.raise fun error same => other error (found.trans (congrArg some same)))

/-- An instruction that runs neither user code nor a rule has the property. -/
theorem op {program : Program} {call : Int → Run Outcome} {o : Op} (own : o.isOwn = true) :
    P (op program call o) := by
  have present {α : Type} (a : Option α) : P (Machine.present a) := closed.looks (.present a)
  have topPosition : P Machine.topPosition := closed.looks .topPosition
  cases o with
  | call | rule => cases own
  | push constant => cases constant <;> exact closed.behind (closed.push _) _
  | pop => exact closed.behind (closed.discard closed.pop) _
  | leave n =>
    exact ite (closed.bind (closed.discard (closed.take n)) fun _ =>
      closed.behind (closed.push _) _) (closed.looks (.pure _))
  | get n index =>
    exact closed.bind (closed.looks (.valueAt index)) fun _ =>
      closed.bind (closed.discard (closed.take n)) fun _ => closed.behind (closed.pushValue _) _
  | append =>
    exact closed.bind closed.pop fun _ => closed.bind (present _) fun _ =>
      closed.bind (closed.looks .topItems) fun _ => closed.bind (closed.discard closed.pop) fun _ =>
        closed.behind (closed.pushValue _) _
  | wrap n =>
    exact closed.bind (closed.take n) fun _ => closed.bind (closed.looks (.mapM .present _)) fun _ =>
      closed.behind (closed.pushValue _) _
  | wrapSome n indexes =>
    exact closed.bind (closed.looks (.mapM .valueAt indexes)) fun _ =>
      closed.bind (closed.discard (closed.take n)) fun _ => closed.behind (closed.pushValue _) _
  | text =>
    exact closed.bind (closed.discard closed.pop) fun _ => closed.bind topPosition fun _ =>
      closed.bind (closed.looks .state) fun _ => closed.behind (closed.pushValue _) _
  | pushPosition =>
    exact closed.bind (closed.looks .state) fun _ => closed.behind (closed.frames _) _
  | loadPosition | markTop => exact closed.bind topPosition fun _ => closed.behind (closed.states _) _
  | popPosition =>
    exact closed.bind (closed.discard topPosition) fun _ => closed.behind (closed.frames _) _
  | matchAny => exact closed.behind (closed.matching fun s => matchOne_ne s _) _
  | matchLiteral i | matchLowercase i =>
    exact closed.bind (present _) fun _ => closed.behind (closed.answering _) _
  | matchClass i =>
    exact closed.bind (present _) fun matcher =>
      closed.behind (closed.matching fun s => matchClass_ne s matcher) _
  | acceptCount n => exact closed.behind (closed.accept n) _
  | acceptLiteral i =>
    exact closed.bind (present _) fun _ => closed.bind (closed.pushValue _) fun _ =>
      closed.behind (closed.states _) _
  | expect i => exact closed.behind (closed.expect program i) _
  | markHere | silence | unsilence | openRecord => exact closed.behind (closed.states _) _
  | closeRecord inverted => exact closed.behind (closed.closeRecord _) _

end Closed

/-- The run raises no syntax error. -/
def Quiet {α : Type} (exec : Exec α) : Prop :=
  ∀ frame w error after, Exec.go exec frame w ≠ (.error (.syntaxError error), after)

theorem quiet_closed : Closed Quiet where
  looks := by
    intro α exec looks frame w error after ended
    rcases looks frame w with ⟨a, ok⟩ | ⟨raised, failed, other⟩
    · cases ok.symm.trans ended
    · cases failed.symm.trans ended
      exact other error rfl
  bind := by
    intro α β exec next first behind frame w error after ended
    rw [Exec.go_bind] at ended
    rcases here : Exec.go exec frame w with ⟨raised | ⟨a, last⟩, v⟩
    · rw [here] at ended
      cases ended
      exact first frame w error _ here
    · rw [here] at ended
      exact behind a last v error after ended
  frames _ _ _ _ _ := nofun
  states _ _ _ _ _ := nofun

section Raising

variable {program : Program} {call : Int → Run Outcome} {fuel : Nat} {frame : Frame} {w after : World}
  {error : ParseError}

/-- An instruction that runs neither user code nor a rule raises no syntax error. -/
theorem op_quiet {o : Op} (own : o.isOwn = true) : Quiet (op program call o) := quiet_closed.op own

/-- Taking results away leaves the world as it is. -/
theorem take_world {n : Int} {taken : List Outcome} {last : Frame}
    (ended : Exec.go (take n) frame w = (.ok (taken, last), after)) : after = w := by
  simp only [take, Exec.go_bind] at ended
  obtain ⟨n, -, ended⟩ := (Looks.count _).behind ended
  change Exec.go (if frame.results.length < n then _ else _) frame w = _ at ended
  split at ended
  · cases ended
  · cases ended
    rfl

/-- A call raises a syntax error where user code does. -/
theorem callFunction_raises {f n : Int} {arguments : List Int}
    (raised : Exec.go (callFunction program f n arguments) frame w =
      (.error (.syntaxError error), after)) :
    ∃ user values, Index.at? program.functions f = some user ∧
      user w.state values = .error (.syntaxError error) := by
  simp only [callFunction, Exec.go_bind] at raised
  cases known : Index.at? program.functions f with
  | none =>
    rw [known] at raised
    cases raised
  | some user =>
    rw [known] at raised
    simp only [present, Exec.go_pure, Ended.andThen_ok, Exec.go_discard] at raised
    rcases Looks.mapM Looks.valueAt arguments frame w with ⟨values, looked⟩ | ⟨_, looked, other⟩
    · rw [looked] at raised
      rcases taken : Exec.go (take n) frame w with ⟨raised' | ⟨outs, last⟩, v⟩
      · simp only [Ended.andThen_ok, taken, Ended.andThen_error] at raised
        cases raised
        exact absurd taken (quiet_closed.take n frame w error _)
      · obtain rfl := take_world taken
        simp only [Ended.andThen_ok, taken, go_state, go_lift] at raised
        cases given : user v.state values with
        | ok value =>
          rw [given] at raised
          cases raised
        | error raised' =>
          rw [given] at raised
          cases raised
          exact ⟨user, values, rfl, given⟩
    · rw [looked] at raised
      cases raised
      exact absurd rfl (other error)

/-- A syntax error of an instruction is raised by user code or in a rule. -/
theorem op_raises {o : Op}
    (raised : Exec.go (op program call o) frame w = (.error (.syntaxError error), after)) :
    (∃ f n arguments user values, o = .call f n arguments ∧
      Index.at? program.functions f = some user ∧ user w.state values = .error (.syntaxError error)) ∨
    ∃ index, o = .rule index ∧ Run.go (call index) w = (.error (.syntaxError error), after) := by
  cases o with
  | call f n arguments =>
    rw [op, Exec.go_bind] at raised
    rcases called : Exec.go (callFunction program f n arguments) frame w with ⟨_ | _, v⟩
    · rw [called] at raised
      cases raised
      obtain ⟨user, values, known, given⟩ := callFunction_raises called
      exact .inl ⟨f, n, arguments, user, values, rfl, known, given⟩
    · rw [called] at raised
      cases raised
  | rule index =>
    refine .inr ⟨index, rfl, ?_⟩
    rw [go_rule] at raised
    rcases ended : Run.go (call index) w with ⟨_ | _, _⟩
    · rw [ended] at raised
      cases raised
      rfl
    · rw [ended] at raised
      cases raised
  | _ => exact absurd raised (op_quiet rfl frame w error after)

/-- A round in which a loop raises something else than that its fuel has run out. -/
theorem rounds_raises {endless : Bool} {code : List Instr} {n : Nat}
    (raised : Exec.go (rounds endless (block program call fuel code) n) frame w =
      (.error (.syntaxError error), after)) :
    ∃ k next v, k < n ∧ (k = 0 ∨ endless = true) ∧ Rounds program call fuel code k frame w next v ∧
      Exec.go (block program call fuel code) next v = (.error (.syntaxError error), after) := by
  induction n generalizing frame w with
  | zero => cases raised
  | succ n ih =>
    rcases first : Exec.go (block program call fuel code) frame w with ⟨raised' | ⟨signal, next⟩, v⟩
    · refine ⟨0, frame, w, by omega, .inl rfl, .none _ _, ?_⟩
      cases endless
      all_goals
        simp only [go_once, go_again, first, Ended.andThen_error] at raised
        cases raised
        exact first
    · cases endless with
      | false =>
        rw [go_once, first] at raised
        cases raised
      | true =>
        rw [go_again, first] at raised
        cases signal with
        | leave => cases raised
        | next =>
          obtain ⟨k, last, u, less, -, rounds, ended⟩ := ih raised
          exact ⟨k + 1, last, u, by omega, .inr rfl, .more first rounds, ended⟩

/-- A syntax error that a block raises is raised where an instruction is done that the run comes to. -/
theorem block_raises : (code : List Instr) → ∀ frame w,
    Exec.go (block program call fuel code) frame w = (.error (.syntaxError error), after) →
    ∃ o next v, Passes program call fuel code frame w ⟨.op o, next, v⟩ ∧
      Exec.go (op program call o) next v = (.error (.syntaxError error), after)
  | [], _, _, raised => nomatch raised
  | i :: rest, frame, w, raised => by
    rw [go_block_cons] at raised
    rcases first : Exec.go (instr program call fuel i) frame w with ⟨raised' | ⟨_ | _, next⟩, v⟩
    · rw [first] at raised
      cases raised
      cases i with
      | op o => exact ⟨o, frame, w, .here .., by rwa [instr] at first⟩
      | branch condition yes no =>
        rw [instr, Exec.go_bind] at first
        rcases tested : Exec.go (test condition) frame w with ⟨raised' | ⟨holds, next⟩, u⟩
        · rw [tested] at first
          cases first
          exact absurd tested (quiet_closed.looks (.test condition) frame w error _)
        · rw [tested] at first
          cases holds with
          | true =>
            obtain ⟨o, last, z, passes, ended⟩ := block_raises yes next u first
            exact ⟨o, last, z, .arm tested passes, ended⟩
          | false =>
            obtain ⟨o, last, z, passes, ended⟩ := block_raises no next u first
            exact ⟨o, last, z, .arm tested passes, ended⟩
      | loop endless body =>
        rw [instr, Exec.go_bind] at first
        rcases looped : Exec.go (rounds endless (block program call fuel body) fuel) frame w with
          ⟨raised' | ⟨_, next⟩, u⟩
        · rw [looped] at first
          cases first
          obtain ⟨n, next, u, less, single, gone, ended⟩ := rounds_raises looped
          obtain ⟨o, last, z, passes, ended⟩ := block_raises body next u ended
          exact ⟨o, last, z, .round less single gone passes, ended⟩
        · rw [looped] at first
          cases first
    · rw [first] at raised
      obtain ⟨o, last, z, passes, ended⟩ := block_raises rest next v raised
      exact ⟨o, last, z, .behind first passes, ended⟩
    · rw [first] at raised
      cases raised

end Raising

section Rules

variable {program : Program} {fuel : Nat} {index : Int} {w : World}

/-- A syntax error that is raised in a rule is raised by user code, at a moment that is reached. -/
theorem reaches_of_rule_raises {error : ParseError} {after : World}
    (raised : Run.go (rule program fuel index) w = (.error (.syntaxError error), after)) :
    ∃ f n arguments user values frame v,
      Reaches program fuel index w ⟨.op (.call f n arguments), frame, v⟩ ∧
      Index.at? program.functions f = some user ∧ user v.state values = .error (.syntaxError error) := by
  induction fuel generalizing index w after with
  | zero => cases raised
  | succ fuel ih =>
    obtain none | ⟨place, name, code, here, at?, ⟨stop, outcome, -, ended⟩ | ⟨anew, ended⟩⟩ :=
      go_rule_succ program fuel index w
    · cases none.symm.trans raised
    · cases ended.symm.trans raised
    · have begins : Begins program index w code (w.noted program (startEvent name w)) :=
        ⟨place, name, here, at?, anew, rfl⟩
      rw [ended, go_block, Ended.andThen_assoc] at raised
      rcases ran : Exec.go (block program (rule program fuel) fuel code) {}
        (w.noted program (startEvent name w)) with ⟨raised' | ⟨signal, last⟩, v⟩
      · rw [ran] at raised
        cases raised
        obtain ⟨o, frame, v, passes, failed⟩ := block_raises code {} _ ran
        obtain ⟨f, n, arguments, user, values, rfl, known, given⟩ | ⟨inner, rfl, inside⟩ :=
          op_raises failed
        · exact ⟨f, n, arguments, user, values, frame, v, .own begins passes, known, given⟩
        · obtain ⟨f, n, arguments, user, values, last, u, reaches, known, given⟩ := ih inside
          exact ⟨f, n, arguments, user, values, last, u, .called begins passes reaches, known, given⟩
      · rw [ran, Ended.andThen_ok] at raised
        rcases results : last.results with _ | ⟨outcome, _ | _⟩
        all_goals
          simp only [results] at raised
          cases raised

end Rules

end Machine

end PegCompiler
