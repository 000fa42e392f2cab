import PegCompiler.Proofs.Run.Upright

/-!
The code of an expression restores what it changes. Whatever the outcome is, silence and the number of
open records are as they were; a failure also leaves the input position where it was, and a match does
not leave it before. This holds of the code of every expression (`Machine.lowered_evaluates`), on every
stack and in every world that is in order, and all moments on the way are in order as well. It does not
depend on what verdicts say: code from which a test was left out restores no less.
-/

namespace PegCompiler

/-- How many results an instruction replaces by one value. -/
def Op.replaced? : Op → Option Int
  | get n _ | wrap n | wrapSome n _ | call _ n _ => some n
  | _ => none

/-- An instruction that pushes the outcome of an attempt, of a primitive or of a rule. -/
def Op.isAttempt : Op → Bool
  | matchAny | matchLiteral _ | matchLowercase _ | matchClass _ | rule _ => true
  | _ => false

namespace Machine

variable {program : Program} {call : Int → Run Outcome} {fuel : Nat} {c : Course} {t : Target}
  {functions : List UserFunction} {frame last : Frame} {w start after : World} {signal : Signal}
  {results : List Outcome} {positions : List Int}

/-! ## Single instructions -/

section Instructions

theorem go_replacing {o : Op} {n : Int} (replaces : o.replaced? = some n) {top : List Outcome}
    (length : n = top.length)
    (ended : Exec.go (op program call o) ⟨top ++ results, positions⟩ w = (.ok (signal, last), after)) :
    signal = .next ∧ after = w ∧ ∃ value, last = ⟨some value :: results, positions⟩ := by
  have taking : Exec.go (take n) ⟨top ++ results, positions⟩ w = _ := go_take w length
  cases o with
  | get n index =>
    cases replaces
    simp only [op, Exec.go_bind] at ended
    obtain ⟨value, -, ended⟩ := (Looks.valueAt index).behind ended
    rw [Exec.go_discard, taking] at ended
    cases ended
    exact ⟨rfl, rfl, value, rfl⟩
  | wrap n =>
    cases replaces
    simp only [op, Exec.go_bind, taking, Ended.andThen_ok] at ended
    obtain ⟨items, -, ended⟩ := (Looks.mapM .present _).behind ended
    cases ended
    exact ⟨rfl, rfl, _, rfl⟩
  | wrapSome n indexes =>
    cases replaces
    simp only [op, Exec.go_bind] at ended
    obtain ⟨items, -, ended⟩ := (Looks.mapM .valueAt indexes).behind ended
    rw [Exec.go_discard, taking] at ended
    cases ended
    exact ⟨rfl, rfl, _, rfl⟩
  | call f n arguments =>
    cases replaces
    simp only [op, callFunction, Exec.go_bind, Ended.andThen_assoc] at ended
    obtain ⟨user, -, ended⟩ := (Looks.present _).behind ended
    obtain ⟨values, -, ended⟩ := (Looks.mapM .valueAt arguments).behind ended
    simp only [Exec.go_discard, taking, Ended.andThen_ok, go_state, go_lift] at ended
    cases given : user w.state values with
    | error raised =>
      rw [given] at ended
      cases ended
    | ok value =>
      rw [given] at ended
      cases ended
      exact ⟨rfl, rfl, value, rfl⟩
  | _ => cases replaces

theorem go_append_ok {out acc : Outcome} (ended : Exec.go (op program call .append)
      ⟨out :: acc :: results, positions⟩ w = (.ok (signal, last), after)) :
    signal = .next ∧ after = w ∧ ∃ value, last = ⟨some value :: results, positions⟩ := by
  cases out with
  | none => cases ended
  | some item =>
    rcases acc with _ | _ | _ | _ | _ | items | _
    all_goals first | cases ended; exact ⟨rfl, rfl, _, rfl⟩ | cases ended

theorem go_expect_ok {i : Int} (ended : Exec.go (op program call (.expect i)) frame w =
      (.ok (signal, last), after)) : signal = .next ∧ last = frame ∧
    ∃ entry s, w.state.expect entry = .ok s ∧ after = { w with state := s } := by
  cases known : Index.at? program.entries i with
  | none =>
    simp only [op, expect, known] at ended
    cases ended
  | some entry =>
    rw [go_expect frame w known] at ended
    cases noted : w.state.expect entry with
    | error raised =>
      rw [noted] at ended
      cases ended
    | ok s =>
      rw [noted] at ended
      cases ended
      exact ⟨rfl, rfl, entry, s, noted, rfl⟩

/-- A primitive that stays in the input restores what it does not match. -/
theorem matching_restores {primitive : ParserState → Except Raise (Option Text × ParserState)}
    {consuming : Prop} (upright : c.Upright w)
    (advances : ∃ result, primitive w.state = .ok result ∧ w.state.Advances consuming result)
    (ended : Exec.go (matching primitive >>= fun _ => pure Signal.next) frame w =
      (.ok (signal, last), after)) :
    signal = .next ∧ ∃ out, last = frame.push out ∧ c.Restores w out after := by
  obtain ⟨⟨matched, s⟩, found, moved⟩ := advances
  rw [Exec.go_bind, go_matching, found] at ended
  cases ended
  refine ⟨rfl, _, rfl, ?_⟩
  cases matched with
  | none =>
    cases moved
    exact ⟨.refl upright, fun _ => rfl⟩
  | some matched =>
    obtain ⟨n, rfl, inside, -⟩ := moved
    exact (upright.advance inside).restores _

/-- The calls of rules restore what they change. -/
def CallsRestore (c : Course) (call : Int → Run Outcome) : Prop :=
  ∀ index w out after, c.Upright w → Run.go (call index) w = (.ok out, after) → c.Restores w out after

theorem attempt_restores (calls : CallsRestore c call) {o : Op} (attempt : o.isAttempt = true)
    (upright : c.Upright w)
    (ended : Exec.go (op program call o) frame w = (.ok (signal, last), after)) :
    signal = .next ∧ ∃ out, last = frame.push out ∧ c.Restores w out after := by
  have inside := upright.valid.state.toInside
  cases o with
  | matchAny => exact matching_restores upright inside.matchAny ended
  | matchClass i =>
    cases known : Index.at? program.matchers i with
    | none =>
      simp only [op, known] at ended
      cases ended
    | some matcher =>
      simp only [op, known, present, pure_bind] at ended
      exact matching_restores upright (inside.matchClass matcher) ended
  | matchLiteral i =>
    cases known : Index.at? program.literals i with
    | none =>
      simp only [op, known] at ended
      cases ended
    | some literal =>
      simp only [op, known, present, pure_bind] at ended
      exact matching_restores upright ⟨_, rfl, inside.matchLiteral literal⟩ ended
  | matchLowercase i =>
    cases known : Index.at? program.literals i with
    | none =>
      simp only [op, known] at ended
      cases ended
    | some literal =>
      simp only [op, known, present, pure_bind] at ended
      exact matching_restores upright ⟨_, rfl, inside.matchLowercase literal⟩ ended
  | rule index =>
    rw [go_rule] at ended
    obtain ⟨out, v, called, same⟩ := Ended.andThen_eq_ok ended
    cases same
    exact ⟨rfl, out, rfl, calls index w out after upright called⟩
  | _ => cases attempt

end Instructions

/-! ## Pieces of code -/

/-- The code of an expression in a run of its own: in order all the way, it pushes one outcome. -/
def Evaluates (c : Course) (functions : List UserFunction) (program : Program)
    (call : Int → Run Outcome) (fuel : Nat) (code : List Instr) (frame : Frame) (w : World) : Prop :=
  Keeps program call fuel (Moment.Orderly c functions frame.positions w) code frame w
    fun signal last after => signal = .next ∧ ∃ out, last = frame.push out ∧ c.Restores w out after

/-- The same inside of brackets that were opened in `start`: the position there is on the stack. -/
def Found (c : Course) (results : List Outcome) (positions : List Int) (start : World) :
    Signal → Frame → World → Prop :=
  fun _ last after => ∃ out, last = ⟨out :: results, start.state.offset :: positions⟩ ∧
    c.Restores start out after

section Pieces

variable {orderly : Moment → Prop} {post : Signal → Frame → World → Prop} {code rest : List Instr}

theorem Keeps.whole (keeps : Keeps program call fuel orderly code frame w post) :
    Keeps program call fuel orderly code frame w (Onward program call fuel orderly [] post) :=
  keeps.mono (fun _ => id) fun signal _ _ holds => match signal with
    | .next => .nil holds
    | .leave => holds

/-- Either of two arms, or one of them where the outcome of the test is known. -/
theorem keeps_condition {verdict : Verdict} {condition : Test} {yes no : List Instr}
    (here : orderly ⟨.branch condition yes no, frame, w⟩)
    (first : verdict ≠ .never → Keeps program call fuel orderly yes frame w post)
    (second : verdict ≠ .always → Keeps program call fuel orderly no frame w post) :
    Keeps program call fuel orderly (Build.condition verdict condition yes no) frame w post := by
  cases verdict with
  | never => exact second nofun
  | always => exact first nofun
  | sometimes =>
    refine .branch here fun holds next v tested => ?_
    obtain ⟨rfl, rfl⟩ := (Looks.test condition).same tested
    cases holds with
    | true => exact (first nofun).whole
    | false => exact (second nofun).whole

theorem Evaluates.within {base : List Int}
    (evaluates : Evaluates c functions program call fuel code frame w)
    (above : c.Above base start frame w)
    (atEnd : ∀ out after, c.Restores w out after → post .next (frame.push out) after) :
    Keeps program call fuel (Moment.Orderly c functions base start) code frame w post := by
  refine Keeps.mono evaluates (fun m orderly => orderly.within above) fun signal last after ended => ?_
  obtain ⟨rfl, out, rfl, restores⟩ := ended
  exact atEnd out after restores

theorem Evaluates.inside (evaluates : Evaluates c functions program call fuel code
      ⟨results, start.state.offset :: positions⟩ w)
    (above : c.Above positions start ⟨results, start.state.offset :: positions⟩ w)
    (atEnd : ∀ out after, c.Restores w out after →
      post .next ⟨out :: results, start.state.offset :: positions⟩ after) :
    Keeps program call fuel (Moment.Bracketed c functions positions start) code
      ⟨results, start.state.offset :: positions⟩ w post := by
  refine Keeps.mono evaluates (fun m orderly => ⟨orderly.within above, ?_⟩)
    fun signal last after ended => ?_
  · obtain ⟨own, same, -⟩ := orderly.above.positions
    exact ⟨own, same.symm⟩
  · obtain ⟨rfl, out, rfl, restores⟩ := ended
    exact atEnd out after restores

/-- A moment inside of brackets, right above the position where they were opened. -/
theorem bracketed {i : Instr} (goes : c.Goes start w)
    (ready : Moment.Ready functions positions start
      ⟨i, ⟨results, start.state.offset :: positions⟩, w⟩) :
    Moment.Bracketed c functions positions start
      ⟨i, ⟨results, start.state.offset :: positions⟩, w⟩ :=
  ⟨⟨goes.above_cons _ _ (Int.le_refl _) goes.forward, ready⟩, List.suffix_refl _⟩

/-- Code between the pushing of the position and the popping of it: where user code is called for an
action, the position is on the stack. -/
theorem bracket_keeps (upright : c.Upright w)
    (keeps : Keeps program call fuel (Moment.Bracketed c functions positions w) code
      ⟨results, w.state.offset :: positions⟩ w fun signal last after =>
        signal = .next ∧ Found c results positions w signal last after) :
    Keeps program call fuel (fun m => m.Orderly c functions positions w ∧
        (m.CallsAction functions → w.state.offset :: positions <:+ m.frame.positions))
      (.op .pushPosition :: (code ++ [.op .popPosition])) ⟨results, positions⟩ w
      fun signal last after =>
        signal = .next ∧ ∃ out, last = ⟨out :: results, positions⟩ ∧ c.Restores w out after := by
  have plain {i : Instr} {next : Frame} {v : World} (other : ∀ f n arguments, i ≠ .op (.call f n arguments))
      (orderly : Moment.Orderly c functions positions w ⟨i, next, v⟩) :
      Moment.Orderly c functions positions w ⟨i, next, v⟩ ∧
        (Moment.CallsAction functions ⟨i, next, v⟩ → w.state.offset :: positions <:+ next.positions) :=
    ⟨orderly, fun ⟨f, n, arguments, _, same, _⟩ => absurd same (other f n arguments)⟩
  refine .next (plain nofun ⟨(Course.Goes.refl upright).above _ _, trivial⟩) (go_pushPosition w) ?_
  refine .append (keeps.mono (fun m bracketed => ⟨bracketed.toOrderly, fun _ => bracketed.suffix⟩) ?_)
  rintro signal last after ⟨rfl, out, rfl, restores⟩
  refine .next (plain nofun ⟨restores.toGoes.above_cons _ _ (Int.le_refl _) restores.forward, trivial⟩)
    (go_popPosition after _) (.nil ?_)
  exact ⟨rfl, out, rfl, restores⟩

theorem bracket_evaluates (upright : c.Upright w)
    (keeps : Keeps program call fuel (Moment.Bracketed c functions positions w) code
      ⟨results, w.state.offset :: positions⟩ w fun signal last after =>
        signal = .next ∧ Found c results positions w signal last after) :
    Evaluates c functions program call fuel (.op .pushPosition :: (code ++ [.op .popPosition]))
      ⟨results, positions⟩ w :=
  (bracket_keeps upright keeps).mono (fun _ both => both.1) fun _ _ _ => id

end Pieces

/-! ## Expressions without brackets of loops -/

section Simple

variable {post : Signal → Frame → World → Prop}

/-- An expectation is noted, or none is. -/
theorem noted_keeps {setting : Setting} {expectation : Expectation} {code : List Instr}
    (noted : Noted t setting expectation code) (upright : c.Upright w)
    (atEnd : ∀ v, c.Goes w v → v.state.offset = w.state.offset → post .next frame v) :
    Keeps program call fuel (Moment.Orderly c functions frame.positions w) code frame w post := by
  unfold Noted at noted
  split at noted
  · obtain ⟨i, -, rfl⟩ := noted
    refine .op ⟨(Course.Goes.refl upright).above _ _, trivial⟩ fun signal last v ended => ?_
    obtain ⟨rfl, rfl, entry, s, noted, rfl⟩ := go_expect_ok ended
    obtain ⟨goes, here⟩ := upright.expect noted
    exact .nil (atEnd _ goes here)
  · subst noted
    exact .nil (atEnd w (.refl upright) rfl)

/-- A leaf: what it expects is noted, then its outcome is pushed. -/
theorem leaf_evaluates {setting : Setting} {expectation : Expectation} {noted : List Instr} {o : Op}
    (notes : Noted t setting expectation noted) (upright : c.Upright w)
    (free : o.isFree = true)
    (pushes : ∀ v signal last after, c.Upright v →
      Exec.go (op program call o) frame v = (.ok (signal, last), after) →
      signal = .next ∧ ∃ out, last = frame.push out ∧ c.Restores v out after) :
    Evaluates c functions program call fuel (noted ++ Build.ops [o]) frame w := by
  refine .append (noted_keeps notes upright fun v goes here => ?_)
  refine .op ⟨goes.above _ _, Moment.ready_of_free free⟩ fun signal last after ended => ?_
  obtain ⟨rfl, out, rfl, restores⟩ := pushes v signal last after goes.upright ended
  exact .nil ⟨rfl, out, rfl, restores.behind goes here⟩

theorem push_evaluates (constant : Constant) (upright : c.Upright w) :
    Evaluates c functions program call fuel (Build.ops [.push constant]) frame w := by
  refine .next ⟨(Course.Goes.refl upright).above _ _, trivial⟩ (go_opPush frame w constant) (.nil ?_)
  exact ⟨rfl, _, rfl, .refl upright, fun _ => rfl⟩

/-- What is matched is replaced by its text. -/
theorem text_evaluates (verdict : Verdict) {inner : List Instr} (upright : c.Upright w)
    (evaluates : Evaluates c functions program call fuel inner
      ⟨results, w.state.offset :: positions⟩ w) :
    Evaluates c functions program call fuel (.op .pushPosition ::
      (inner ++ Build.condition verdict Test.isMatched [.op .text] [] ++ [.op .popPosition]))
      ⟨results, positions⟩ w := by
  have above := (Course.Goes.refl upright).above_cons results positions (Int.le_refl _) (Int.le_refl _)
  refine bracket_evaluates upright (.append (evaluates.inside above fun out v restores => ?_))
  refine keeps_condition (bracketed restores.toGoes trivial) (fun _ => ?_) fun _ => ?_
  · refine .next (bracketed restores.toGoes trivial) (go_text v out _) (.nil ?_)
    exact ⟨rfl, _, rfl, restores.restores _⟩
  · exact .nil ⟨rfl, out, rfl, restores⟩

/-- Going back to where brackets were opened, and pushing a constant for an outcome. -/
theorem back_keeps {constant : Constant} {out : Outcome} (upright : c.Upright start)
    (goes : c.Goes start w) :
    Keeps program call fuel (Moment.Bracketed c functions positions start)
      [.op .loadPosition, .op .pop, .op (.push constant)]
      ⟨out :: results, start.state.offset :: positions⟩ w fun signal last after =>
        signal = .next ∧ Found c results positions start signal last after := by
  have back := goes.back upright (outcomeOf constant)
  refine .next (bracketed goes trivial) (go_loadPosition w _) ?_
  refine .next (bracketed back.toGoes trivial) (go_pop _ out) ?_
  exact .next (bracketed back.toGoes trivial) (go_opPush _ _ constant)
    (.nil ⟨rfl, outcomeOf constant, rfl, back⟩)

/-- Looking ahead closes the record that it opens, and goes back from a match. -/
theorem lookahead_evaluates {negative : Bool} {verdict : Verdict} {inner : List Instr}
    (upright : c.Upright w)
    (evaluates : Evaluates c functions program call fuel inner
      ⟨results, w.state.offset :: positions⟩ (w.change (·.openRecord))) :
    Evaluates c functions program call fuel (Lower.ofLookahead negative verdict inner)
      ⟨results, positions⟩ w := by
  have code : Lower.ofLookahead negative verdict inner = Instr.op .pushPosition ::
      (Instr.op .openRecord :: (inner ++ Instr.op (.closeRecord (flagWord negative)) ::
        if negative then Build.condition verdict.neg Test.isFailed
            [Instr.op .pop, Instr.op (.push .undefined)]
            [Instr.op .loadPosition, Instr.op .pop, Instr.op (.push .failed)]
          else Build.condition verdict Test.isMatched
            [Instr.op .loadPosition, Instr.op .pop, Instr.op (.push .undefined)] []) ++
              [Instr.op .popPosition]) := by
    simp [Lower.ofLookahead]
  have opened : c.Above positions w ⟨results, w.state.offset :: positions⟩ (w.change (·.openRecord)) :=
    ⟨upright.opened, Int.le_refl _, Int.le_refl _, Nat.le_succ _, [w.state.offset], rfl,
      fun p member => List.mem_singleton.mp member ▸ ⟨Int.le_refl _, Int.le_refl _⟩⟩
  rw [code]
  refine bracket_evaluates upright (.next (bracketed (.refl upright) trivial) (go_openRecord _ w) ?_)
  refine .append (evaluates.inside opened fun out v restores => ?_)
  obtain ⟨s, closes, goes, here⟩ := restores.toGoes.closed upright (flagWord negative != 0)
  have deeper : w.state.records.length < v.state.records.length := by
    have depth := restores.depth
    change v.state.records.length = w.state.records.length + 1 at depth
    omega
  have above : c.Above positions w ⟨out :: results, w.state.offset :: positions⟩ v :=
    opened.trans (restores.toGoes.above _ _)
  have closed : Exec.go (op program call (.closeRecord (flagWord negative)))
      ⟨out :: results, w.state.offset :: positions⟩ v =
        (.ok (.next, ⟨out :: results, w.state.offset :: positions⟩), { v with state := s }) := by
    rw [go_closeRecord, closes]
  refine .next ⟨⟨above, deeper⟩, List.suffix_refl _⟩ closed ?_
  cases negative with
  | true =>
    refine keeps_condition (bracketed goes trivial) (fun _ => ?_) fun _ => back_keeps upright goes
    refine .next (bracketed goes trivial) (go_pop _ out) ?_
    refine .next (bracketed goes trivial) (go_opPush _ _ .undefined) (.nil ⟨rfl, _, rfl, goes, ?_⟩)
    exact fun none => absurd none (Option.some_ne_none _)
  | false =>
    refine keeps_condition (bracketed goes trivial) (fun _ => back_keeps upright goes) fun _ => ?_
    exact .nil ⟨rfl, out, rfl, goes, fun none => here.trans (restores.failed none)⟩

/-- A failure is replaced by a value. -/
theorem optional_evaluates {verdict : Verdict} {inner : List Instr}
    (evaluates : Evaluates c functions program call fuel inner frame w) (upright : c.Upright w) :
    Evaluates c functions program call fuel
      (inner ++ Build.condition verdict Test.isFailed [.op .pop, .op (.push .null)] []) frame w := by
  refine .append (evaluates.within ((Course.Goes.refl upright).above _ _) fun out v restores => ?_)
  have goes := restores.toGoes
  refine keeps_condition ⟨goes.above _ _, trivial⟩ (fun _ => ?_) fun _ => .nil ⟨rfl, out, rfl, restores⟩
  refine .next ⟨goes.above _ _, trivial⟩ (go_pop v out) ?_
  exact .next ⟨goes.above _ _, trivial⟩ (go_opPush _ v .null) (.nil ⟨rfl, _, rfl, goes, nofun⟩)

/-- User code is called where the mark is, in place of the results on top. -/
theorem calling_keeps {predicate : Bool} {body : Text} {n : Int} {labels : Environment} {top : Int}
    {code : List Instr} {orderly : Moment → Prop} (above : List Outcome)
    (calling : Calling t predicate body n labels top code) (length : n = above.length)
    (here : ∀ i : Int, ∀ n arguments, Index.at? t.tables.functions i =
        some ⟨predicate, labels.map Prod.fst, body⟩ →
      orderly ⟨.op (.call i n arguments), ⟨above ++ results, positions⟩, w⟩)
    (atEnd : ∀ value, post .next ⟨some value :: results, positions⟩ w) :
    Keeps program call fuel orderly code ⟨above ++ results, positions⟩ w post := by
  obtain ⟨i, found, rfl⟩ := calling
  refine .op (here i n _ (Index.at?_natCast found)) fun signal last after ended => ?_
  obtain ⟨rfl, rfl, value, rfl⟩ := go_replacing rfl length ended
  exact .nil (atEnd value)

/-- A predicate in user code is called where the position is marked. -/
theorem predicate_evaluates {body : Text} {labels : Environment} {top : Int} {calling : List Instr}
    (yes no : Constant) (calls : Calling t true body 0 labels top calling) (upright : c.Upright w) :
    Evaluates c t.tables.functions program call fuel (.op .markHere :: (calling ++ [.branch .isTrue
      [.op .pop, .op (.push yes)] [.op .pop, .op (.push no)]])) frame w := by
  have goes := (Course.Goes.refl upright).mark w.state.offset
  refine .next ⟨(Course.Goes.refl upright).above _ _, trivial⟩ (go_markHere frame w) (.append ?_)
  refine calling_keeps [] calls rfl (fun i n arguments known => ?_) fun value => ?_
  · exact ⟨goes.above _ _, _, known, rfl⟩
  · refine .branch ⟨goes.above _ _, trivial⟩ fun holds next v tested => ?_
    obtain ⟨rfl, rfl⟩ := (Looks.test .isTrue).same tested
    refine Keeps.whole ?_
    have pushed (constant : Constant) : Keeps program call fuel
        (Moment.Orderly c t.tables.functions frame.positions w) [.op .pop, .op (.push constant)]
        ⟨some value :: frame.results, frame.positions⟩
        (w.change fun s => { s with mark := s.offset }) fun signal last after =>
          signal = .next ∧ ∃ out, last = frame.push out ∧ c.Restores w out after := by
      refine .next ⟨goes.above _ _, trivial⟩ (go_pop _ _) ?_
      exact .next ⟨goes.above _ _, trivial⟩ (go_opPush _ _ constant)
        (.nil ⟨rfl, _, rfl, goes, fun _ => rfl⟩)
    cases holds with
    | true => exact pushed yes
    | false => exact pushed no

/-- A display name: the code of its expression is run in silence. -/
theorem named_evaluates {i : Int} {inner : List Instr} (upright : c.Upright w)
    (evaluates : ∀ v, c.Upright v → Evaluates c functions program call fuel inner frame v) :
    Evaluates c functions program call fuel
      (.op (.expect i) :: .op .silence :: (inner ++ [.op .unsilence])) frame w := by
  refine .op ⟨(Course.Goes.refl upright).above _ _, trivial⟩ fun signal last v ended => ?_
  obtain ⟨rfl, rfl, entry, s, noted, rfl⟩ := go_expect_ok ended
  obtain ⟨goes, here⟩ := upright.expect noted
  replace here : ({ w with state := s } : World).state.offset = w.state.offset := here
  generalize ({ w with state := s } : World) = v at goes here
  have silent := goes.upright.silent
  have deeper : w.state.silence < v.state.silence + 1 := by
    have same := goes.silence
    omega
  have above : c.Above last.positions w last (v.change fun s => { s with silence := s.silence + 1 }) :=
    ⟨silent, goes.forward, Int.le_of_lt deeper, Nat.le_of_eq goes.depth.symm, [], rfl, nofun⟩
  refine .next ⟨goes.above _ _, trivial⟩ (go_silence last v) (.append ?_)
  refine (evaluates _ silent).within above fun out u restores => ?_
  refine .next ⟨above.trans (restores.toGoes.above _ _), ?_⟩ (go_unsilence _ u) (.nil ?_)
  · exact Int.lt_of_lt_of_le deeper (Int.le_of_eq restores.silence.symm)
  · exact ⟨rfl, out, rfl, (restores.heard goes.upright).behind goes here⟩

end Simple

/-! ## Repetitions -/

section Repetitions

variable {orderly : Moment → Prop} {post : Signal → Frame → World → Prop} {max : Boundary}
  {labels : Environment} {top : Int} {checkMax elementCode separatorCode : List Instr}

/-- The code of a check of a greatest number, if it needs any. -/
theorem code_of_checkMax (checks : .ok checkMax = Build.checkMax max top labels) :
    checkMax = [] ∨ ∃ condition, checkMax = [.branch condition [.op (.leave 0)] []] := by
  unfold Build.checkMax at checks
  split at checks
  · cases checks
    exact .inl rfl
  · cases checks
    exact .inl rfl
  · cases checks
    exact .inr ⟨_, rfl⟩
  · cases checks
    exact .inr ⟨_, rfl⟩
  · simp only [bind, Except.bind] at checks
    split at checks
    · cases checks
    · cases checks
      exact .inr ⟨_, rfl⟩

/-- The code of a repetition with the check of its least number, if it needs one. -/
theorem code_of_checkMin {min : Boundary} {code collected : List Instr}
    (checks : .ok code = Build.checkMin collected min top labels) :
    code = collected ∨ ∃ condition, code = .op .pushPosition :: (collected ++
      [.branch condition [.op .loadPosition, .op .pop, .op (.push .failed)] []] ++
        [.op .popPosition]) := by
  unfold Build.checkMin at checks
  split at checks
  · cases checks
    exact .inl rfl
  · cases checks
    exact .inl rfl
  · rename_i n
    split at checks <;> cases checks
    · exact .inl rfl
    · exact .inr ⟨.fewer n, by simp [Build.condition, Verdict.select]⟩
  · cases checks
  · simp only [bind, Except.bind] at checks
    split at checks
    · cases checks
    · rename_i distance _
      cases checks
      exact .inr ⟨.fewerThan distance, by simp [Build.condition, Verdict.select]⟩

/-- The check of a greatest number only looks: the loop is left, or the code goes on. -/
theorem checkMax_keeps (checks : .ok checkMax = Build.checkMax max top labels)
    (here : ∀ condition, orderly ⟨.branch condition [.op (.leave 0)] [], frame, w⟩)
    (leaves : orderly ⟨.op (.leave 0), frame, w⟩) (atEnd : ∀ signal, post signal frame w) :
    Keeps program call fuel orderly checkMax frame w post := by
  rcases code_of_checkMax checks with rfl | ⟨condition, rfl⟩
  · exact .nil (atEnd .next)
  · refine .branch (here condition) fun holds next v tested => ?_
    obtain ⟨rfl, rfl⟩ := (Looks.test condition).same tested
    cases holds with
    | true => exact .leave leaves (go_leave _ _) (atEnd .leave)
    | false => exact .nil (.nil (atEnd .next))

variable {verdict : Verdict} (upright : c.Upright w)
  (checks : .ok checkMax = Build.checkMax max top labels)
  (element : ∀ (acc : Outcome) positions v, c.Upright v →
    Evaluates c functions program call fuel elementCode ⟨acc :: results, positions⟩ v)

/-- What is pushed is what has been collected. -/
theorem collected_keeps {acc : Value} (goes : c.Goes w after) :
    Keeps program call fuel orderly [] ⟨some acc :: results, positions⟩ after
      fun signal last after => signal = .next ∧
        ∃ out, last = ⟨out :: results, positions⟩ ∧ c.Restores w out after :=
  .nil ⟨rfl, some acc, rfl, goes.restores acc⟩

include upright checks element in
/-- A repetition without a delimiter collects what is matched, and leaves out the failure at its
end. -/
theorem plain_evaluates : Evaluates c functions program call fuel (Build.ops [.push .emptyList] ++
    Lower.ofRepetition verdict elementCode checkMax max none) ⟨results, positions⟩ w := by
  have refl := Course.Goes.refl upright
  refine .next ⟨refl.above _ _, trivial⟩ (go_opPush _ w .emptyList) ?_
  refine .endless (fun frame v => ∃ acc, frame = ⟨some acc :: results, positions⟩ ∧ c.Goes w v)
    ⟨refl.above _ _, trivial⟩ ⟨.list [], rfl, refl⟩ ?_
  rintro _ v ⟨acc, rfl, goes⟩
  refine .append (checkMax_keeps checks (fun _ => ⟨goes.above _ _, trivial⟩)
    ⟨goes.above _ _, trivial⟩ fun signal => ?_)
  cases signal with
  | leave => exact collected_keeps goes
  | next =>
    refine .append ((element _ positions v goes.upright).within (goes.above _ _) fun out u restores => ?_)
    have goes := goes.trans restores.toGoes
    refine keeps_condition ⟨goes.above _ _, trivial⟩ (fun _ => ?_) fun _ => ?_
    · refine .next ⟨goes.above _ _, trivial⟩ (go_pop u out) ?_
      exact .leave ⟨goes.above _ _, trivial⟩ (go_leave _ u) (collected_keeps goes)
    · refine .op ⟨goes.above _ _, trivial⟩ fun signal last z ended => ?_
      obtain ⟨rfl, rfl, value, rfl⟩ := go_append_ok ended
      exact .nil ⟨value, rfl, goes⟩

variable {separatorVerdict : Verdict} (separator : ∀ (acc : Outcome) positions v, c.Upright v →
    Evaluates c functions program call fuel separatorCode ⟨acc :: results, positions⟩ v)

include upright checks element separator in
/-- A round of a repetition with a delimiter: the top position is where the last delimiter began. -/
theorem separatedRound_keeps {acc : Value} {p : Int} {v : World} (goes : c.Goes w v)
    (lower : w.state.offset ≤ p) (upper : p ≤ v.state.offset)
    (settled : ∀ signal acc p u, c.Goes w u → w.state.offset ≤ p → p ≤ u.state.offset →
      post signal ⟨some acc :: results, p :: positions⟩ u) :
    Keeps program call fuel (Moment.Orderly c functions positions w)
      (Lower.separatedRound verdict separatorVerdict elementCode checkMax separatorCode)
      ⟨some acc :: results, p :: positions⟩ v post := by
  have code : Lower.separatedRound verdict separatorVerdict elementCode checkMax separatorCode =
      elementCode ++ (Build.condition verdict.neg Test.isFailed
        [Instr.op .loadPosition, Instr.op .pop, Instr.op (.leave 0)] [Instr.op .append] ++ (checkMax ++
          Instr.op .popPosition :: Instr.op .pushPosition :: (separatorCode ++
            Build.condition separatorVerdict.neg Test.isFailed [Instr.op .pop, Instr.op (.leave 0)]
              [Instr.op .pop]))) := by
    simp [Lower.separatedRound, Build.appendOrLeave]
  rw [code]
  refine .append ((element _ _ v goes.upright).within (goes.above_cons _ _ lower upper)
    fun out u restores => ?_)
  have goes := goes.trans restores.toGoes
  have upper := Int.le_trans upper restores.forward
  have above (results : List Outcome) := goes.above_cons results positions lower upper
  refine .append (keeps_condition ⟨above _, trivial⟩ (fun _ => ?_) fun _ => ?_)
  · -- nothing is matched behind the last delimiter: it is given back
    have back := goes.goTo upright lower upper
    refine .next ⟨above _, trivial⟩ (go_loadPosition u p) ?_
    refine .next ⟨back.above_cons _ _ lower (Int.le_refl _), trivial⟩ (go_pop _ out) ?_
    exact .leave ⟨back.above_cons _ _ lower (Int.le_refl _), trivial⟩ (go_leave _ _)
      (settled .leave acc p _ back lower (Int.le_refl _))
  · refine .op ⟨above _, trivial⟩ fun signal last z ended => ?_
    obtain ⟨rfl, rfl, value, rfl⟩ := go_append_ok ended
    refine .nil (.append (checkMax_keeps checks (fun _ => ⟨above _, trivial⟩) ⟨above _, trivial⟩
      fun signal => ?_))
    cases signal with
    | leave => exact settled .leave value p z goes lower upper
    | next =>
      refine .next ⟨above _, trivial⟩ (go_popPosition z p) ?_
      refine .next ⟨goes.above _ _, trivial⟩ (go_pushPosition z) ?_
      refine .append ((separator _ _ z goes.upright).within
        (goes.above_cons _ _ goes.forward (Int.le_refl _)) fun out u restores => ?_)
      have later := goes.trans restores.toGoes
      have above (results : List Outcome) :=
        later.above_cons results positions goes.forward restores.forward
      refine keeps_condition ⟨above _, trivial⟩ (fun _ => ?_) fun _ => ?_
      · refine .next ⟨above _, trivial⟩ (go_pop u out) ?_
        exact .leave ⟨above _, trivial⟩ (go_leave _ u)
          (settled .leave value _ u later goes.forward restores.forward)
      · exact .next ⟨above _, trivial⟩ (go_pop u out)
          (.nil (settled .next value _ u later goes.forward restores.forward))

include upright checks element separator in
/-- A repetition with a delimiter gives back the delimiter behind which nothing is matched. -/
theorem separated_evaluates : Evaluates c functions program call fuel (Build.ops [.push .emptyList] ++
    Lower.ofRepetition verdict elementCode checkMax max (some (separatorVerdict, separatorCode)))
      ⟨results, positions⟩ w := by
  have refl := Course.Goes.refl upright
  rw [Lower.ofRepetition_separated]
  refine .next ⟨refl.above _ _, trivial⟩ (go_opPush _ w .emptyList) ?_
  refine .once ⟨refl.above _ _, trivial⟩ (.append ?_)
  have rounds : ∀ signal, Onward program call fuel (Moment.Orderly c functions positions w)
      (.op .pushPosition :: .loop true (Lower.separatedRound verdict separatorVerdict elementCode
        checkMax separatorCode) :: [.op .popPosition])
      (fun _ last v => Keeps program call fuel (Moment.Orderly c functions positions w) [] last v
        fun signal last after => signal = .next ∧
          ∃ out, last = ⟨out :: results, positions⟩ ∧ c.Restores w out after)
      signal ⟨some (.list []) :: results, positions⟩ w := by
    intro signal
    cases signal with
    | leave => exact collected_keeps refl
    | next =>
      refine .next ⟨refl.above _ _, trivial⟩ (go_pushPosition w) ?_
      refine .endless (fun frame v => ∃ acc p, frame = ⟨some acc :: results, p :: positions⟩ ∧
        c.Goes w v ∧ w.state.offset ≤ p ∧ p ≤ v.state.offset)
        ⟨refl.above_cons _ _ (Int.le_refl _) (Int.le_refl _), trivial⟩
        ⟨.list [], _, rfl, refl, Int.le_refl _, Int.le_refl _⟩ ?_
      rintro _ v ⟨acc, p, rfl, goes, lower, upper⟩
      refine separatedRound_keeps upright checks element separator goes lower upper
        fun signal acc p u goes lower upper => ?_
      cases signal with
      | next => exact ⟨acc, p, rfl, goes, lower, upper⟩
      | leave =>
        exact .next ⟨goes.above_cons _ _ lower upper, trivial⟩ (go_popPosition u p)
          (.nil (collected_keeps goes))
  unfold Lower.firstCheck
  split
  · split
    · exact checkMax_keeps checks (fun _ => ⟨refl.above _ _, trivial⟩) ⟨refl.above _ _, trivial⟩ rounds
    · exact .nil (rounds .next)
  · exact checkMax_keeps checks (fun _ => ⟨refl.above _ _, trivial⟩) ⟨refl.above _ _, trivial⟩ rounds

/-- Where too little was collected, the position goes back to where the repetition began. -/
theorem checkMin_evaluates {min : Boundary} {code collected : List Instr} (upright : c.Upright w)
    (checks : .ok code = Build.checkMin collected min top labels)
    (evaluates : ∀ positions, Evaluates c functions program call fuel collected ⟨results, positions⟩ w) :
    Evaluates c functions program call fuel code ⟨results, positions⟩ w := by
  rcases code_of_checkMin checks with rfl | ⟨condition, rfl⟩
  · exact evaluates positions
  · have above :=
      (Course.Goes.refl upright).above_cons results positions (Int.le_refl _) (Int.le_refl _)
    refine bracket_evaluates upright (.append ((evaluates _).inside above fun out v restores => ?_))
    refine .branch (bracketed restores.toGoes trivial) fun holds next u tested => ?_
    obtain ⟨rfl, rfl⟩ := (Looks.test condition).same tested
    refine Keeps.whole ?_
    cases holds with
    | true => exact back_keeps upright restores.toGoes
    | false => exact .nil ⟨rfl, out, rfl, restores⟩

end Repetitions

/-! ## Expressions -/

/-- What is to hold of the code of one expression. -/
def Restoring (c : Course) (t : Target) (program : Program) (call : Int → Run Outcome) (fuel : Nat)
    (e : Expr) : Prop :=
  ∀ (setting : Setting) (labels : Environment) (code : List Instr) (frame : Frame) (w : World),
    Lowered t setting labels e code → c.Upright w →
      Evaluates c t.tables.functions program call fuel code frame w

section Expressions

/-- Where an element has failed, its sequence is left, and the position goes back. -/
theorem leaving_keeps {verdict : Verdict} {out : Outcome} {above : List Outcome} {position : Nat}
    {post : Signal → Frame → World → Prop} (upright : c.Upright start) (goes : c.Goes start w)
    (length : position = above.length + 1)
    (left : ∀ last v, Found c results positions start .leave last v → post .leave last v)
    (atEnd : post .next ⟨out :: (above ++ results), start.state.offset :: positions⟩ w) :
    Keeps program call fuel (Moment.Bracketed c functions positions start)
      (Lower.leaving verdict position) ⟨out :: (above ++ results), start.state.offset :: positions⟩ w
      post := by
  have code : Lower.leaving verdict position = Build.condition verdict.neg Test.isFailed
      [.op .loadPosition, .op (.leave position)] [] := by
    cases verdict <;> simp [Lower.leaving, Build.leaveIf, Build.condition, Verdict.neg, Verdict.select]
  rw [code]
  refine keeps_condition (bracketed goes trivial) (fun _ => ?_) fun _ => .nil atEnd
  have back := goes.back upright none
  refine .next (bracketed goes trivial) (go_loadPosition w _) ?_
  refine .leave (bracketed back.toGoes trivial)
    (go_leaveWith _ (out :: above) (by omega) (by simp [length])) (left _ _ ⟨none, rfl, back⟩)

/-- The end of a sequence. -/
theorem finishing_keeps {setting : Setting} {labels : Environment} {autos : List Int} {n : Nat}
    {code : List Instr} {above : List Outcome} (goes : c.Goes start w) (length : n = above.length)
    (finishing : Finishing t setting labels autos n code) :
    Keeps program call fuel (Moment.Bracketed c t.tables.functions positions start) code
      ⟨above ++ results, start.state.offset :: positions⟩ w (Found c results positions start) := by
  have replacing {o : Op} (replaces : o.replaced? = some n) (free : o.isFree = true) :
      Keeps program call fuel (Moment.Bracketed c t.tables.functions positions start) [.op o]
        ⟨above ++ results, start.state.offset :: positions⟩ w (Found c results positions start) := by
    refine .op (bracketed goes (Moment.ready_of_free free)) fun signal last after ended => ?_
    obtain ⟨rfl, rfl, value, rfl⟩ := go_replacing replaces (by simp [length]) ended
    exact .nil ⟨some value, rfl, goes.restores value⟩
  unfold Finishing at finishing
  split at finishing
  · obtain ⟨calling, calls, rfl⟩ := finishing
    have marked := goes.mark start.state.offset
    refine .next (bracketed goes trivial) (go_markTop w _) ?_
    refine calling_keeps above calls (by simp [length]) (fun i n arguments known => ?_) fun value => ?_
    · exact bracketed marked ⟨_, known, [], rfl⟩
    · exact ⟨some value, rfl, marked.restores value⟩
  · split at finishing <;> subst finishing
    · exact replacing rfl rfl
    · exact replacing rfl rfl
    · exact replacing rfl rfl

/-- What is left of a sequence that began in `start`. -/
theorem row_keeps {es : List Expr} (each : ∀ e ∈ es, Restoring c t program call fuel e)
    (upright : c.Upright start) (above : List Outcome) {setting : Setting} {labels : Environment}
    {autos : List Int} {code : List Instr} (goes : c.Goes start w)
    (lowered : LoweredRow t setting labels autos (above.length + 1) es code) :
    Keeps program call fuel (Moment.Bracketed c t.tables.functions positions start) code
      ⟨above ++ results, start.state.offset :: positions⟩ w (Found c results positions start) := by
  induction es generalizing setting labels autos code above w with
  | nil => exact finishing_keeps goes rfl lowered
  | cons e rest ih =>
    obtain ⟨first, others, here, lowered, rfl⟩ := lowered
    rw [List.append_assoc]
    refine .append ((each e (by simp) _ _ _ _ w here goes.upright).inside
      (goes.above_cons _ _ (Int.le_refl _) goes.forward) fun out v restores => ?_)
    have goes := goes.trans restores.toGoes
    refine .append (leaving_keeps upright goes rfl (fun last v found => found) ?_)
    exact ih (fun e he => each e (by simp [he])) (out :: above) goes lowered

/-- The codes that are kept are codes of alternatives. -/
theorem restoring_of_choices {es : List Expr} (each : ∀ e ∈ es, Restoring c t program call fuel e)
    {setting : Setting} {labels : Environment} {codes : List (List Instr)}
    (lowered : LoweredChoices t setting labels es codes) (code : List Instr) (member : code ∈ codes)
    (frame : Frame) (w : World) (upright : c.Upright w) :
    Evaluates c t.tables.functions program call fuel code frame w := by
  induction es generalizing codes with
  | nil =>
    unfold LoweredChoices at lowered
    subst lowered
    cases member
  | cons e rest ih =>
    have ih := @ih fun e he => each e (by simp [he])
    unfold LoweredChoices at lowered
    split at lowered
    · exact ih lowered member
    · obtain ⟨only, here, rfl⟩ := lowered
      rw [List.mem_singleton.mp member]
      exact each e (by simp) _ _ _ _ w here upright
    · obtain ⟨first, others, here, lowered, rfl⟩ := lowered
      rcases List.mem_cons.mp member with rfl | member
      · exact each e (by simp) _ _ _ _ w here upright
      · exact ih lowered member

/-- Alternatives one after the other: each of them starts where the choice does. -/
theorem firstMatch_keeps {codes : List (List Instr)} (nonempty : codes ≠ [])
    (each : ∀ code ∈ codes, ∀ frame w, c.Upright w →
      Evaluates c functions program call fuel code frame w)
    (goes : c.Goes start w) (here : w.state.offset = start.state.offset) :
    Keeps program call fuel (Moment.Orderly c functions frame.positions start)
      (Lower.firstMatch codes) frame w fun _ last after =>
        ∃ out, last = frame.push out ∧ c.Restores start out after := by
  induction codes generalizing w with
  | nil => exact absurd rfl nonempty
  | cons code rest ih =>
    have first := each code (by simp) frame w goes.upright
    cases rest with
    | nil =>
      exact first.within (goes.above _ _) fun out v restores =>
        ⟨out, rfl, restores.behind goes here⟩
    | cons next others =>
      have whole : Lower.firstMatch (code :: next :: others) = code ++
          .branch .isMatched [.op (.leave 0)] [] :: .op .pop :: Lower.firstMatch (next :: others) := by
        rw [Lower.firstMatch]
        · simp [Build.leaveIf, Verdict.select]
        · simp
      rw [whole]
      refine .append (first.within (goes.above _ _) fun out v restores => ?_)
      have restores := restores.behind goes here
      have above (results : List Outcome) := restores.toGoes.above results frame.positions
      refine .branch ⟨above _, trivial⟩ fun holds last u tested => ?_
      rw [Frame.push, go_isMatched] at tested
      cases tested
      cases out with
      | some value => exact .leave ⟨above _, trivial⟩ (go_leave _ v) ⟨some value, rfl, restores⟩
      | none =>
        refine .nil (.next ⟨above _, trivial⟩ (go_pop v none) ?_)
        exact ih (by simp) (fun code member => each code (by simp [member])) restores.toGoes
          (restores.failed rfl)

/-- The code of a sequence: where it ends with an action, the position of its beginning is on the
stack. -/
theorem sequence_keeps {es : List Expr} (each : ∀ e ∈ es, Restoring c t program call fuel e)
    {info : Info} {setting : Setting} {labels : Environment} {code : List Instr}
    (lowered : Lowered t setting labels (.sequence info es) code) (upright : c.Upright w) :
    Keeps program call fuel (fun m => m.Orderly c t.tables.functions positions w ∧
        (m.CallsAction t.tables.functions → w.state.offset :: positions <:+ m.frame.positions)) code
      ⟨results, positions⟩ w fun signal last after =>
        signal = .next ∧ ∃ out, last = ⟨out :: results, positions⟩ ∧ c.Restores w out after := by
  unfold Lowered at lowered
  obtain ⟨body, lowered, rfl⟩ := lowered
  have row : Keeps program call fuel (Moment.Bracketed c t.tables.functions positions w) body
      ⟨results, w.state.offset :: positions⟩ w (Found c results positions w) :=
    row_keeps each upright [] (.refl upright) lowered
  refine bracket_keeps upright (.once (bracketed (.refl upright) trivial) ?_)
  exact row.mono (fun _ => id) fun _ _ _ found => .nil ⟨rfl, found⟩

/-- The code of an action: the position where its match began is on the stack, and user code is called
with the mark there. -/
theorem action_keeps {body : Expr} (restoring : Restoring c t program call fuel body)
    (below : ∀ e ∈ body.children, Restoring c t program call fuel e) {info : Info} {text : Text}
    {location : Option Location} {setting : Setting} {labels : Environment} {code : List Instr}
    (lowered : Lowered t setting labels (.action info text location body) code)
    (upright : c.Upright w) :
    Keeps program call fuel (fun m => m.Orderly c t.tables.functions positions w ∧
        (m.CallsAction t.tables.functions → w.state.offset :: positions <:+ m.frame.positions)) code
      ⟨results, positions⟩ w fun signal last after =>
        signal = .next ∧ ∃ out, last = ⟨out :: results, positions⟩ ∧ c.Restores w out after := by
  unfold Lowered at lowered
  obtain ⟨inner, lowered, rest⟩ := lowered
  split at rest
  · rename_i sequence
    subst rest
    cases body with
    | sequence _ es => exact sequence_keeps below lowered upright
    | _ => cases sequence
  · obtain ⟨calling, rfl, calls⟩ := rest
    have code : Build.ops [.pushPosition] ++ inner ++ Build.condition body.verdict Test.isMatched
        calling Assembly.nothing ++ Build.ops [.popPosition] = .op .pushPosition ::
          (inner ++ Build.condition body.verdict Test.isMatched calling [] ++ [.op .popPosition]) := by
      simp
    have above :=
      (Course.Goes.refl upright).above_cons results positions (Int.le_refl _) (Int.le_refl _)
    rw [code]
    refine bracket_keeps upright (.append ((restoring _ _ _ _ w lowered upright).inside above
      fun out v restores => ?_))
    have goes := restores.toGoes
    refine keeps_condition (bracketed goes trivial) (fun possible => ?_) fun _ =>
      .nil ⟨rfl, out, rfl, restores⟩
    obtain ⟨call, rfl, calling⟩ := calls possible
    have marked := goes.mark w.state.offset
    refine .next (bracketed goes trivial) (go_markTop v _) ?_
    refine calling_keeps [out] calling rfl (fun i n arguments known => ?_) fun value => ?_
    · exact bracketed marked ⟨_, known, [], rfl⟩
    · exact ⟨rfl, some value, rfl, marked.restores value⟩

/-- The code of every expression restores what it changes. -/
theorem lowered_evaluates (calls : CallsRestore c call) (e : Expr) :
    Restoring c t program call fuel e := by
  induction e using Expr.byGrandchildren with
  | node e each below =>
    intro setting labels code frame w lowered upright
    obtain ⟨results, positions⟩ := frame
    have attempt {o : Op} (is : o.isAttempt = true) : ∀ v signal last after, c.Upright v →
        Exec.go (op program call o) ⟨results, positions⟩ v = (.ok (signal, last), after) →
        signal = .next ∧ ∃ out, last = Frame.push ⟨results, positions⟩ out ∧ c.Restores v out after :=
      fun v signal last after upright ended => attempt_restores calls is upright ended
    have unchecked : (.ok [] : Except BoundFault (List Instr)) = Build.checkMax .unbounded 0 [] := rfl
    -- what is repeated runs above what has been collected
    have above : ∀ b ∈ e.children, ∀ code, Lowered t setting.next.inner labels b code →
        ∀ (acc : Outcome) positions v, c.Upright v →
          Evaluates c t.tables.functions program call fuel code ⟨acc :: results, positions⟩ v :=
      fun b hb code lowered acc positions v upright => each b hb _ _ code _ v lowered upright
    cases e with
    | literal info value ignoreCase =>
      unfold Lowered at lowered
      split at lowered
      · subst lowered
        exact push_evaluates _ upright
      · obtain ⟨noted, i, notes, -, rfl⟩ := lowered
        cases ignoreCase with
        | true => exact leaf_evaluates notes upright rfl (attempt rfl)
        | false => exact leaf_evaluates notes upright rfl (attempt rfl)
    | charClass info members =>
      unfold Lowered at lowered
      obtain ⟨noted, notes, lowered⟩ := lowered
      split at lowered
      · subst lowered
        refine leaf_evaluates notes upright rfl fun v signal last after upright ended => ?_
        cases (go_opPush _ v .failed).symm.trans ended
        exact ⟨rfl, none, rfl, .refl upright, fun _ => rfl⟩
      · obtain ⟨i, -, rfl⟩ := lowered
        exact leaf_evaluates notes upright rfl (attempt rfl)
    | any info =>
      unfold Lowered at lowered
      obtain ⟨noted, notes, rfl⟩ := lowered
      exact leaf_evaluates notes upright rfl (attempt rfl)
    | ruleRef info name =>
      unfold Lowered at lowered
      subst lowered
      refine .op ⟨(Course.Goes.refl upright).above _ _, trivial⟩ fun signal last after ended => ?_
      obtain ⟨rfl, pushed⟩ := attempt rfl w signal last after upright ended
      exact .nil ⟨rfl, pushed⟩
    | sequence info es =>
      exact (sequence_keeps each lowered upright).mono (fun _ both => both.1) fun _ _ _ => id
    | choice info es =>
      unfold Lowered at lowered
      split at lowered
      · subst lowered
        exact push_evaluates _ upright
      · obtain ⟨codes, lowered, nonempty, rfl⟩ := lowered
        refine .once ⟨(Course.Goes.refl upright).above _ _, trivial⟩ ?_
        exact (firstMatch_keeps nonempty (restoring_of_choices each lowered) (.refl upright) rfl).mono
          (fun _ => id) fun _ _ _ found => .nil ⟨rfl, found⟩
    | labeled info label location auto body =>
      unfold Lowered at lowered
      exact each body (by simp [Expr.children]) _ _ code _ w lowered upright
    | unary info operator body =>
      have inner := each body (by simp [Expr.children])
      cases operator with
      | group =>
        unfold Lowered at lowered
        exact inner _ _ code _ w lowered upright
      | text =>
        unfold Lowered at lowered
        obtain ⟨innerCode, lowered, rfl⟩ := lowered
        split
        · exact inner _ _ innerCode _ w lowered upright
        · have evaluates := text_evaluates body.verdict upright
            (inner _ _ innerCode ⟨results, w.state.offset :: positions⟩ w lowered upright)
          simpa using evaluates
      | followedBy | notFollowedBy =>
        unfold Lowered at lowered
        obtain ⟨innerCode, lowered, rfl⟩ := lowered
        exact lookahead_evaluates upright (inner _ _ innerCode _ _ lowered upright.opened)
      | optional =>
        unfold Lowered at lowered
        obtain ⟨innerCode, lowered, rfl⟩ := lowered
        exact optional_evaluates (inner _ _ innerCode _ w lowered upright) upright
      | zeroOrMore =>
        unfold Lowered at lowered
        obtain ⟨innerCode, lowered, rfl⟩ := lowered
        exact plain_evaluates upright unchecked
          (above body (by simp [Expr.children]) innerCode lowered)
      | oneOrMore =>
        unfold Lowered at lowered
        obtain ⟨innerCode, lowered, checked⟩ := lowered
        exact checkMin_evaluates upright checked fun positions =>
          plain_evaluates upright unchecked
            (above body (by simp [Expr.children]) innerCode lowered)
    | range info min max body delimiter =>
      cases delimiter with
      | none =>
        unfold Lowered at lowered
        obtain ⟨innerCode, checkMax, lowered, most, checked⟩ := lowered
        exact checkMin_evaluates upright checked fun positions =>
          plain_evaluates upright most (above body (by simp [Expr.children]) innerCode lowered)
      | some separator =>
        unfold Lowered at lowered
        obtain ⟨innerCode, checkMax, between, lowered, most, separated, checked⟩ := lowered
        exact checkMin_evaluates upright checked fun positions =>
          separated_evaluates upright most (above body (by simp [Expr.children]) innerCode lowered)
            (above separator (by simp [Expr.children]) between separated)
    | named info name body =>
      have inner := each body (by simp [Expr.children])
      unfold Lowered at lowered
      split at lowered
      · obtain ⟨i, innerCode, -, lowered, rfl⟩ := lowered
        have evaluates := named_evaluates (i := i) upright fun v upright =>
          inner _ _ innerCode ⟨results, positions⟩ v lowered upright
        simpa using evaluates
      · exact inner _ _ code _ w lowered upright
    | action info text location body =>
      have inner : body ∈ (Expr.action info text location body).children := by simp [Expr.children]
      exact (action_keeps (each body inner) (below body inner) lowered upright).mono
        (fun _ both => both.1) fun _ _ _ => id
    | predicate info negative text =>
      unfold Lowered at lowered
      obtain ⟨calling, calls, rfl⟩ := lowered
      have evaluates : Evaluates c t.tables.functions program call fuel _ ⟨results, positions⟩ w :=
        predicate_evaluates (if negative then .failed else .undefined)
          (if negative then .undefined else .failed) calls upright
      simpa using evaluates
    | foreign what =>
      unfold Lowered at lowered
      exact absurd lowered id

end Expressions

end Machine

end PegCompiler
