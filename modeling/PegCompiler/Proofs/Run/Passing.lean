import PegCompiler.Proofs.Run.Bytecode

/-!
What a run passes. `Machine.Passes` says which instructions of a block a run comes to, and with which
stacks in which world; `Machine.Reaches` goes on into the rules that are called. `Machine.Keeps` says
that something holds all the way, also where the run is never over, and what holds where it is; it has
one rule for each kind of code.
-/

namespace PegCompiler

/-- A run that is about to do an instruction: the stacks of its call, and its world. -/
structure Moment where
  instr : Instr
  frame : Frame
  world : World

theorem Ended.onward_eq_ok {ended : Ended (Signal × Frame)}
    {next : Frame → World → Ended (Signal × Frame)} {signal : Signal} {last : Frame} {after : World}
    (h : ended.onward next = (.ok (signal, last), after)) :
    (∃ frame v, ended = (.ok (.next, frame), v) ∧ next frame v = (.ok (signal, last), after)) ∨
      ended = (.ok (.leave, last), after) ∧ signal = .leave := by
  rcases ended with ⟨_ | ⟨_ | _, frame⟩, v⟩
  · cases h
  · exact .inl ⟨frame, v, rfl, h⟩
  · cases h
    exact .inr ⟨rfl, rfl⟩

namespace Machine

variable (program : Program) (call : Int → Run Outcome) (fuel : Nat)

/-- So many rounds of an endless loop are over, and it is not left. -/
inductive Rounds (body : List Instr) : Nat → Frame → World → Frame → World → Prop
  | none (frame : Frame) (w : World) : Rounds body 0 frame w frame w
  | more {n : Nat} {frame next last : Frame} {w v u : World} :
    Exec.go (block program call fuel body) frame w = (.ok (.next, next), v) →
    Rounds body n next v last u → Rounds body (n + 1) frame w last u

/-- A run of a block comes to a moment. -/
inductive Passes : List Instr → Frame → World → Moment → Prop
  | here (i : Instr) (rest : List Instr) (frame : Frame) (w : World) :
    Passes (i :: rest) frame w ⟨i, frame, w⟩
  | behind {i : Instr} {rest : List Instr} {frame next : Frame} {w v : World} {m : Moment} :
    Exec.go (instr program call fuel i) frame w = (.ok (.next, next), v) →
    Passes rest next v m → Passes (i :: rest) frame w m
  | arm {condition : Test} {yes no rest : List Instr} {frame next : Frame} {w v : World} {m : Moment}
      {holds : Bool} : Exec.go (test condition) frame w = (.ok (holds, next), v) →
    Passes (if holds then yes else no) next v m → Passes (.branch condition yes no :: rest) frame w m
  | round {endless : Bool} {body rest : List Instr} {frame next : Frame} {w v : World} {m : Moment}
      {n : Nat} : n < fuel → n = 0 ∨ endless = true → Rounds program call fuel body n frame w next v →
    Passes body next v m → Passes (.loop endless body :: rest) frame w m

/-- The code of a rule is run, from empty stacks and in `start`, when the rule is called in `w`. -/
structure Begins (index : Int) (w : World) (code : List Instr) (start : World) : Prop where
  intro ::
  entered : ∃ place name, Index.place? program.rules.length index = some place ∧
    program.rules[place]? = some (name, code) ∧
    w.kept? program (memoKey program place w.state.offset) = none ∧
    start = w.noted program (startEvent name w)

/-- A run of a rule comes to a moment, in its own code or in that of a rule that it calls. -/
inductive Reaches : Nat → Int → World → Moment → Prop
  | own {fuel : Nat} {index : Int} {w start : World} {code : List Instr} {m : Moment} :
    Begins program index w code start → Passes program (rule program fuel) fuel code {} start m →
    Reaches (fuel + 1) index w m
  | called {fuel : Nat} {index inner : Int} {w start v : World} {code : List Instr} {frame : Frame}
      {m : Moment} : Begins program index w code start →
    Passes program (rule program fuel) fuel code {} start ⟨.op (.rule inner), frame, v⟩ →
    Reaches fuel inner v m → Reaches (fuel + 1) index w m

/-! ## What holds all the way -/

/-- Every moment of the run of a block is `orderly`, and where it is over `post` holds. -/
structure Keeps (orderly : Moment → Prop) (code : List Instr) (frame : Frame) (w : World)
    (post : Signal → Frame → World → Prop) : Prop where
  always : ∀ m, Passes program call fuel code frame w m → orderly m
  ends : ∀ signal last after,
    Exec.go (block program call fuel code) frame w = (.ok (signal, last), after) →
    post signal last after

/-- What holds behind a piece of code that `rest` follows: unless the loop is left, `rest` is run. -/
def Onward (orderly : Moment → Prop) (rest : List Instr) (post : Signal → Frame → World → Prop) :
    Signal → Frame → World → Prop
  | .next, frame, w => Keeps program call fuel orderly rest frame w post
  | .leave, frame, w => post .leave frame w

section Rules

variable {program call fuel} {orderly other : Moment → Prop} {frame : Frame} {w : World}
  {rest : List Instr} {post post' : Signal → Frame → World → Prop}

theorem Keeps.mono {code : List Instr} (keeps : Keeps program call fuel orderly code frame w post)
    (all : ∀ m, orderly m → other m) (atEnd : ∀ signal last after, post signal last after →
      post' signal last after) : Keeps program call fuel other code frame w post' :=
  ⟨fun m passes => all m (keeps.always m passes),
    fun signal last after ended => atEnd signal last after (keeps.ends signal last after ended)⟩

theorem Keeps.nil (atEnd : post .next frame w) :
    Keeps program call fuel orderly [] frame w post := by
  refine ⟨fun m passes => (nomatch passes), fun signal last after ended => ?_⟩
  cases ended
  exact atEnd

/-- The end of a block whose first instruction is over. -/
theorem ends_of_onward {i : Instr} (behind : ∀ signal last v,
      Exec.go (instr program call fuel i) frame w = (.ok (signal, last), v) →
      Onward program call fuel orderly rest post signal last v)
    (signal : Signal) (last : Frame) (after : World)
    (ended : Exec.go (block program call fuel (i :: rest)) frame w = (.ok (signal, last), after)) :
    post signal last after := by
  rw [go_block_cons] at ended
  rcases Ended.onward_eq_ok ended with ⟨next, v, first, others⟩ | ⟨first, rfl⟩
  · exact (behind .next next v first).ends signal last after others
  · exact behind .leave last after first

theorem Keeps.op {o : Op} (here : orderly ⟨.op o, frame, w⟩)
    (behind : ∀ signal last v,
      Exec.go (op program call o) frame w = (.ok (signal, last), v) →
      Onward program call fuel orderly rest post signal last v) :
    Keeps program call fuel orderly (.op o :: rest) frame w post := by
  refine ⟨fun m passes => ?_, ends_of_onward (by simpa only [instr] using behind)⟩
  cases passes with
  | here => exact here
  | behind ended passes =>
    rw [instr] at ended
    exact (behind .next _ _ ended).always m passes

/-- An instruction whose end is known. -/
theorem Keeps.next {o : Op} {last : Frame} {v : World} (here : orderly ⟨.op o, frame, w⟩)
    (ended : Exec.go (Machine.op program call o) frame w = (.ok (.next, last), v))
    (behind : Keeps program call fuel orderly rest last v post) :
    Keeps program call fuel orderly (.op o :: rest) frame w post := by
  refine Keeps.op here fun signal last' v' ended' => ?_
  cases ended.symm.trans ended'
  exact behind

theorem Keeps.leave {o : Op} {last : Frame} {v : World} (here : orderly ⟨.op o, frame, w⟩)
    (ended : Exec.go (Machine.op program call o) frame w = (.ok (.leave, last), v))
    (atEnd : post .leave last v) : Keeps program call fuel orderly (.op o :: rest) frame w post := by
  refine Keeps.op here fun signal last' v' ended' => ?_
  cases ended.symm.trans ended'
  exact atEnd

theorem passes_append {first second : List Instr} {m : Moment}
    (passes : Passes program call fuel (first ++ second) frame w m) :
    Passes program call fuel first frame w m ∨ ∃ next v,
      Exec.go (block program call fuel first) frame w = (.ok (.next, next), v) ∧
        Passes program call fuel second next v m := by
  induction first generalizing frame w with
  | nil => exact .inr ⟨frame, w, rfl, passes⟩
  | cons i rest ih =>
    cases passes with
    | here => exact .inl (.here ..)
    | behind ended passes =>
      rcases ih passes with passes | ⟨next, v, others, passes⟩
      · exact .inl (.behind ended passes)
      · refine .inr ⟨next, v, ?_, passes⟩
        rw [go_block_cons, ended]
        exact others
    | arm ended passes => exact .inl (.arm ended passes)
    | round less rounds gone passes => exact .inl (.round less rounds gone passes)

theorem Keeps.append {first second : List Instr} (keeps : Keeps program call fuel orderly first
      frame w (Onward program call fuel orderly second post)) :
    Keeps program call fuel orderly (first ++ second) frame w post := by
  refine ⟨fun m passes => ?_, fun signal last after ended => ?_⟩
  · rcases passes_append passes with passes | ⟨next, v, ended, passes⟩
    · exact keeps.always m passes
    · exact (keeps.ends .next next v ended).always m passes
  · rw [go_block_append] at ended
    rcases Ended.onward_eq_ok ended with ⟨next, v, first, others⟩ | ⟨first, rfl⟩
    · exact (keeps.ends .next next v first).ends signal last after others
    · exact keeps.ends .leave last after first

theorem Keeps.branch {condition : Test} {yes no : List Instr}
    (here : orderly ⟨.branch condition yes no, frame, w⟩)
    (arms : ∀ holds next v, Exec.go (test condition) frame w = (.ok (holds, next), v) →
      Keeps program call fuel orderly (if holds then yes else no) next v
        (Onward program call fuel orderly rest post)) :
    Keeps program call fuel orderly (.branch condition yes no :: rest) frame w post := by
  have behind : ∀ signal last v,
      Exec.go (instr program call fuel (.branch condition yes no)) frame w = (.ok (signal, last), v) →
      Onward program call fuel orderly rest post signal last v := by
    intro signal last v ended
    rw [instr, Exec.go_bind] at ended
    obtain ⟨⟨holds, next⟩, u, tested, ended⟩ := Ended.andThen_eq_ok ended
    refine (arms holds next u tested).ends signal last v ?_
    cases holds <;> exact ended
  refine ⟨fun m passes => ?_, ends_of_onward behind⟩
  cases passes with
  | here => exact here
  | behind ended passes => exact (behind .next _ _ ended).always m passes
  | arm tested passes => exact (arms _ _ _ tested).always m passes

/-- A loop of a single round. -/
theorem Keeps.once {body : List Instr} (here : orderly ⟨.loop false body, frame, w⟩)
    (round : Keeps program call fuel orderly body frame w fun _ last v =>
      Keeps program call fuel orderly rest last v post) :
    Keeps program call fuel orderly (.loop false body :: rest) frame w post := by
  have behind : ∀ signal last v,
      Exec.go (instr program call fuel (.loop false body)) frame w = (.ok (signal, last), v) →
      Onward program call fuel orderly rest post signal last v := by
    intro signal last v ended
    rw [instr, Exec.go_bind] at ended
    obtain ⟨⟨⟨⟩, next⟩, u, looped, ended⟩ := Ended.andThen_eq_ok ended
    cases ended
    cases fuel with
    | zero => cases looped
    | succ fuel =>
      rw [go_once] at looped
      obtain ⟨⟨left, frame'⟩, v', first, same⟩ := Ended.andThen_eq_ok looped
      cases same
      exact round.ends left last v first
  refine ⟨fun m passes => ?_, ends_of_onward behind⟩
  cases passes with
  | here => exact here
  | behind ended passes => exact (behind .next _ _ ended).always m passes
  | round less single gone passes =>
    obtain rfl := single.resolve_right Bool.false_ne_true
    cases gone
    exact round.always m passes

/-- A loop that is run until it is left, with what every round keeps. -/
theorem Keeps.endless {body : List Instr} (invariant : Frame → World → Prop)
    (here : orderly ⟨.loop true body, frame, w⟩) (first : invariant frame w)
    (round : ∀ next v, invariant next v → Keeps program call fuel orderly body next v
      fun signal last u => match signal with
        | .next => invariant last u
        | .leave => Keeps program call fuel orderly rest last u post) :
    Keeps program call fuel orderly (.loop true body :: rest) frame w post := by
  have atEnd : ∀ n next v last u, invariant next v →
      Exec.go (rounds true (block program call fuel body) n) next v = (.ok (⟨⟩, last), u) →
      Keeps program call fuel orderly rest last u post := by
    intro n
    induction n with
    | zero => exact fun _ _ _ _ _ ended => nomatch ended
    | succ n ih =>
      intro next v last u holds ended
      rw [go_again] at ended
      obtain ⟨⟨signal, frame'⟩, v', once, others⟩ := Ended.andThen_eq_ok ended
      have kept := (round next v holds).ends signal frame' v' once
      cases signal with
      | next => exact ih frame' v' last u kept others
      | leave =>
        cases others
        exact kept
  have behind : ∀ signal last v,
      Exec.go (instr program call fuel (.loop true body)) frame w = (.ok (signal, last), v) →
      Onward program call fuel orderly rest post signal last v := by
    intro signal last v ended
    rw [instr, Exec.go_bind] at ended
    obtain ⟨⟨⟨⟩, next⟩, u, looped, ended⟩ := Ended.andThen_eq_ok ended
    cases ended
    exact atEnd fuel frame w last v first looped
  have gone : ∀ {n next v last u}, Rounds program call fuel body n next v last u →
      invariant next v → invariant last u := by
    intro n next v last u gone
    induction gone with
    | none => exact id
    | more ended _ ih => exact fun holds => ih ((round _ _ holds).ends _ _ _ ended)
  refine ⟨fun m passes => ?_, ends_of_onward behind⟩
  cases passes with
  | here => exact here
  | behind ended passes => exact (behind .next _ _ ended).always m passes
  | round less endless' rounds passes => exact (round _ _ (gone rounds first)).always m passes

end Rules

/-! ## What looks at the stacks and changes nothing -/

/-- The run leaves stacks and world as they are, and raises no syntax error. -/
def Looks {α : Type} (exec : Exec α) : Prop :=
  ∀ frame w, (∃ a, Exec.go exec frame w = (.ok (a, frame), w)) ∨
    ∃ raised, Exec.go exec frame w = (.error raised, w) ∧ ∀ error, raised ≠ .syntaxError error

namespace Looks

variable {α β : Type}

theorem pure (a : α) : Looks (Pure.pure a) := fun _ _ => .inl ⟨a, rfl⟩

theorem malformed : Looks (raise .malformed : Exec α) := fun _ _ => .inr ⟨_, rfl, nofun⟩

theorem wrongType : Looks (raise .wrongType : Exec α) := fun _ _ => .inr ⟨_, rfl, nofun⟩

theorem frame : Looks (get : Exec Frame) := fun frame _ => .inl ⟨frame, rfl⟩

theorem bind {exec : Exec α} {next : α → Exec β} (first : Looks exec) (behind : ∀ a, Looks (next a)) :
    Looks (exec >>= next) := by
  intro frame w
  rw [Exec.go_bind]
  rcases first frame w with ⟨a, ended⟩ | ⟨raised, ended, other⟩
  · rw [ended]
    exact behind a frame w
  · rw [ended]
    exact .inr ⟨raised, rfl, other⟩

theorem present (a : Option α) : Looks (present a) := by
  cases a with
  | none => exact malformed
  | some a => exact pure a

theorem mapM {f : α → Exec β} (each : ∀ a, Looks (f a)) (as : List α) : Looks (as.mapM f) := by
  induction as with
  | nil => exact pure []
  | cons a rest ih =>
    rw [List.mapM_cons]
    exact (each a).bind fun _ => ih.bind fun _ => pure _

theorem count (n : Int) : Looks (count n) := by
  unfold Machine.count
  split
  · exact malformed
  · exact pure _

theorem top : Looks top := frame.bind fun _ => present _

theorem topPosition : Looks topPosition := frame.bind fun _ => present _

theorem topItems : Looks topItems := top.bind fun _ => by
  split
  · exact pure _
  · exact malformed

theorem valueAt (distance : Int) : Looks (valueAt distance) :=
  frame.bind fun _ => (count distance).bind fun _ => (present _).bind fun _ => present _

theorem boundAt (distance : Int) : Looks (boundAt distance) := (valueAt distance).bind fun _ => by
  split
  · exact pure _
  · exact wrongType

theorem test (condition : Test) : Looks (test condition) := by
  cases condition with
  | isTrue | isFailed | isMatched => exact top.bind fun _ => pure _
  | fewer => exact topItems.bind fun _ => pure _
  | reached bound =>
    cases bound with
    | number => exact topItems.bind fun _ => pure _
    | text => exact wrongType
  | fewerThan => exact topItems.bind fun _ => (boundAt _).bind fun _ => pure _
  | reachedBy => exact (boundAt _).bind fun _ => topItems.bind fun _ => pure _

variable {exec : Exec α} {last : Frame} {before after : World} {base : Frame}

/-- What goes on behind a look goes on from the same stacks and the same world. -/
theorem behind (looks : Looks exec) {next : α × Frame → World → Ended β} {b : β}
    (ended : (Exec.go exec base before).andThen next = (.ok b, after)) :
    ∃ a, Exec.go exec base before = (.ok (a, base), before) ∧
      next (a, base) before = (.ok b, after) := by
  rcases looks base before with ⟨a, ok⟩ | ⟨raised, failed, -⟩
  · rw [ok] at ended
    exact ⟨a, ok, ended⟩
  · rw [failed] at ended
    cases ended

theorem same (looks : Looks exec) {a : α}
    (ended : Exec.go exec base before = (.ok (a, last), after)) : last = base ∧ after = before := by
  rcases looks base before with ⟨a, ok⟩ | ⟨raised, failed, -⟩
  · cases ok.symm.trans ended
    exact ⟨rfl, rfl⟩
  · cases failed.symm.trans ended

end Looks

/-! ## Runs of rules -/

section Rules

variable (program : Program) (fuel : Nat) (index : Int) (w : World)

/-- A run of a rule that has fuel: there is no such rule, its outcome was kept, or its code is run. -/
theorem go_rule_succ : Run.go (rule program (fuel + 1) index) w = (.error .malformed, w) ∨
    ∃ place name code, Index.place? program.rules.length index = some place ∧
      program.rules[place]? = some (name, code) ∧
      ((∃ stop outcome, w.kept? program (memoKey program place w.state.offset) = some (stop, outcome) ∧
          Run.go (rule program (fuel + 1) index) w =
            (.ok outcome, Tree.keptWorld program name stop outcome w)) ∨
        w.kept? program (memoKey program place w.state.offset) = none ∧
          Run.go (rule program (fuel + 1) index) w =
            (Run.go (body program (rule program fuel) fuel code)
              (w.noted program (startEvent name w))).andThen fun outcome after =>
                (.ok outcome, Tree.newWorld program place name w.state.offset outcome after)) := by
  cases here : Index.place? program.rules.length index with
  | none =>
    left
    simp only [rule, here]
    rfl
  | some place =>
    have bound : place < program.rules.length := by
      simp only [Index.place?, Option.ite_none_right_eq_some, Option.some.injEq] at here
      omega
    obtain ⟨⟨name, code⟩, at?⟩ : ∃ entry, program.rules[place]? = some entry :=
      ⟨_, List.getElem?_eq_getElem bound⟩
    refine .inr ⟨place, name, code, rfl, at?, ?_⟩
    rw [rule_at here at?]
    cases kept : w.kept? program (memoKey program place w.state.offset) with
    | some entry => exact .inl ⟨entry.1, entry.2, rfl, Tree.go_called_of_kept place name kept _⟩
    | none => exact .inr ⟨rfl, Tree.go_called_of_new place name kept _⟩

end Rules

end Machine

end PegCompiler
