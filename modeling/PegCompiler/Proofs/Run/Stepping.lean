import Mathlib.Data.List.Forall2
import PegCompiler.Run.Machine

/-!
How pieces of code run from a given frame and a given world. `Run.go` and `Exec.go` give the end of a
run, and `Ended.andThen` is what goes on behind a piece that did not raise anything. Every instruction
has its equation here, so that no later proof opens the machine.
-/

namespace PegCompiler

/-- How a run ended, and the world it left. -/
abbrev Ended (α : Type) := Except Raise α × World

namespace Ended

variable {α β γ : Type}

/-- Goes on from an end, unless something was raised. -/
def andThen : Ended α → (α → World → Ended β) → Ended β
  | (.ok a, world), next => next a world
  | (.error raised, world), _ => (.error raised, world)

@[simp] theorem andThen_ok (a : α) (world : World) (next : α → World → Ended β) :
    andThen (.ok a, world) next = next a world := rfl

@[simp] theorem andThen_error (raised : Raise) (world : World) (next : α → World → Ended β) :
    andThen (.error raised, world) next = (.error raised, world) := rfl

theorem andThen_assoc (ended : Ended α) (next : α → World → Ended β) (last : β → World → Ended γ) :
    (ended.andThen next).andThen last =
      ended.andThen fun a world => (next a world).andThen last := by
  rcases ended with ⟨_ | _, _⟩ <;> rfl

/-- Two ways to go on are the same if they are for what there is to go on from. -/
theorem andThen_congr {ended : Ended α} {next other : α → World → Ended β}
    (same : ∀ a world, ended = (.ok a, world) → next a world = other a world) :
    ended.andThen next = ended.andThen other := by
  rcases ended with ⟨_ | a, world⟩
  · rfl
  · exact same a world rfl

theorem andThen_eq_ok {ended : Ended α} {next : α → World → Ended β} {b : β} {last : World}
    (h : ended.andThen next = (.ok b, last)) :
    ∃ a world, ended = (.ok a, world) ∧ next a world = (.ok b, last) := by
  rcases ended with ⟨_ | a, world⟩
  · cases h
  · exact ⟨a, world, rfl, h⟩

end Ended

/-- The end of a run that starts in `world`. -/
def Run.go {α : Type} (run : Run α) (world : World) : Ended α := run world

/-- The end of a run that starts with the stacks of `frame`. -/
def Exec.go {α : Type} (exec : Exec α) (frame : Frame) (world : World) : Ended (α × Frame) :=
  Run.go (exec frame) world

/-- The world after a change of the state of the parse. -/
def World.change (world : World) (change : ParserState → ParserState) : World :=
  { world with state := change world.state }

section Monads

variable {α β : Type} (world : World) (frame : Frame)

@[simp] theorem World.change_state (change : ParserState → ParserState) :
    (world.change change).state = change world.state := rfl

@[simp] theorem Run.go_pure (a : α) : Run.go (pure a) world = (.ok a, world) := rfl

@[simp] theorem Run.go_throw (raised : Raise) :
    Run.go (throw raised : Run α) world = (.error raised, world) := rfl

@[simp] theorem Run.go_bind (run : Run α) (next : α → Run β) :
    Run.go (run >>= next) world = (Run.go run world).andThen fun a after => Run.go (next a) after := by
  change (ExceptT.bind run next : Run β) world = _
  unfold Run.go ExceptT.bind ExceptT.mk
  change (match run world with | (a, after) => ExceptT.bindCont next a after) = _
  rcases run world with ⟨_ | a, after⟩ <;> rfl

@[simp] theorem Run.go_get : Run.go (get : Run World) world = (.ok world, world) := rfl

@[simp] theorem Run.go_modify (change : World → World) :
    Run.go (modify change : Run PUnit) world = (.ok ⟨⟩, change world) := rfl

@[simp] theorem Exec.go_pure (a : α) : Exec.go (pure a) frame world = (.ok (a, frame), world) := rfl

@[simp] theorem Exec.go_bind (exec : Exec α) (next : α → Exec β) :
    Exec.go (exec >>= next) frame world =
      (Exec.go exec frame world).andThen fun (a, frame) after => Exec.go (next a) frame after :=
  Run.go_bind world (exec frame) fun (a, frame) => next a frame

@[simp] theorem Exec.go_discard (exec : Exec α) :
    Exec.go (discard exec) frame world =
      (Exec.go exec frame world).andThen fun (_, frame) after => (.ok (⟨⟩, frame), after) :=
  Run.go_bind world (exec frame) fun (_, frame) => pure (PUnit.unit, frame)

@[simp] theorem Exec.go_lift (run : Run α) :
    Exec.go (liftM run : Exec α) frame world =
      (Run.go run world).andThen fun a after => (.ok (a, frame), after) :=
  Run.go_bind world run fun a => pure (a, frame)

end Monads

namespace Frame

/-- The value that a place of the stack of results holds; places count from the bottom. -/
def Holds (results : List Outcome) (place : Int) (value : Value) : Prop :=
  0 ≤ place ∧ results.reverse[place.toNat]? = some (some value)

/-- One more result on the stack. -/
def push (frame : Frame) (result : Outcome) : Frame :=
  { frame with results := result :: frame.results }

theorem Holds.push {results : List Outcome} {place : Int} {value : Value}
    (holds : Holds results place value) (top : List Outcome) : Holds (top ++ results) place value := by
  obtain ⟨natural, found⟩ := holds
  have bound := (List.getElem?_eq_some_iff.mp found).1
  refine ⟨natural, ?_⟩
  rw [List.reverse_append, List.getElem?_append_left bound, found]

/-- The place of the top result. -/
theorem holds_top (results : List Outcome) (value : Value) :
    Holds (some value :: results) results.length value := by
  refine ⟨by omega, ?_⟩
  simp

/-- Seen from the top, where a value is. -/
theorem Holds.below {results : List Outcome} {place : Int} {value : Value}
    (holds : Holds results place value) {distance : Int}
    (here : distance = results.length - 1 - place) :
    0 ≤ distance ∧ results[distance.toNat]? = some (some value) := by
  obtain ⟨natural, found⟩ := holds
  have bound := (List.getElem?_eq_some_iff.mp found).1
  rw [List.length_reverse] at bound
  refine ⟨by omega, ?_⟩
  rw [List.getElem?_reverse bound] at found
  rw [← found]
  congr 1
  omega

end Frame

namespace Machine

variable (frame : Frame) (world : World)

section Access

variable {α : Type}

@[simp] theorem go_state :
    Exec.go state frame world = (.ok (world.state, frame), world) := rfl

@[simp] theorem go_setState (after : ParserState) :
    Exec.go (setState after) frame world = (.ok (⟨⟩, frame), { world with state := after }) := rfl

@[simp] theorem go_changeState (change : ParserState → ParserState) :
    Exec.go (changeState change) frame world = (.ok (⟨⟩, frame), world.change change) := rfl

@[simp] theorem go_push (result : Outcome) :
    Exec.go (push result) frame world = (.ok (⟨⟩, frame.push result), world) := rfl

@[simp] theorem go_raise (raised : Raise) :
    Exec.go (raise raised : Exec α) frame world = (.error raised, world) := rfl

theorem go_lift (result : Except Raise α) :
    Exec.go (lift result) frame world = (result.map (·, frame), world) := by
  cases result <;> rfl

end Access

section Stacks

theorem go_take {top results : List Outcome} {positions : List Int} {n : Int} (h : n = top.length) :
    Exec.go (take n) ⟨top ++ results, positions⟩ world =
      (.ok (top.reverse, ⟨results, positions⟩), world) := by
  subst h
  have natural : ¬(top.length : Int) < 0 := by omega
  have enough : ¬(top ++ results).length < top.length := by simp
  simp only [take, count, natural, if_false]
  change (if (top ++ results).length < top.length then raise .malformed else _ : Exec _)
    ⟨top ++ results, positions⟩ world = _
  rw [if_neg enough]
  change ((Except.ok ((List.take top.length (top ++ results)).reverse,
    (⟨List.drop top.length (top ++ results), positions⟩ : Frame)), world) : Ended _) = _
  simp

theorem go_valueAt {distance : Int} {value : Value} (natural : 0 ≤ distance)
    (found : frame.results[distance.toNat]? = some (some value)) :
    Exec.go (valueAt distance) frame world = (.ok (value, frame), world) := by
  have : ¬distance < 0 := by omega
  simp only [valueAt, count, this, if_false, Exec.go_bind, Exec.go_pure, Ended.andThen_ok]
  change (Exec.go (present frame.results[distance.toNat]?) frame world).andThen _ = _
  rw [found]
  rfl

theorem go_valuesAt {distances : List Int} {values : List Value}
    (found : List.Forall₂ (fun (distance : Int) value =>
      0 ≤ distance ∧ frame.results[distance.toNat]? = some (some value)) distances values) :
    Exec.go (distances.mapM valueAt) frame world = (.ok (values, frame), world) := by
  induction found with
  | nil => rfl
  | cons here _ ih =>
    simp only [List.mapM_cons, Exec.go_bind, go_valueAt frame world here.1 here.2, Ended.andThen_ok,
      ih, Exec.go_pure]

theorem go_topItems {items : List Value} {results : List Outcome} {positions : List Int} :
    Exec.go topItems ⟨some (.list items) :: results, positions⟩ world =
      (.ok (items, ⟨some (.list items) :: results, positions⟩), world) := rfl

end Stacks

section Instructions

variable {program : Program} {callRule : Int → Run Outcome} {results : List Outcome}
  {positions : List Int}

/-- What a constant puts on the stack. -/
def outcomeOf : Constant → Outcome
  | .emptyText => some (.text [])
  | .undefined | .null => some .null
  | .failed => none
  | .emptyList => some (.list [])

@[simp] theorem go_opPush (constant : Constant) :
    Exec.go (op program callRule (.push constant)) frame world =
      (.ok (.next, frame.push (outcomeOf constant)), world) := by
  cases constant <;> rfl

@[simp] theorem go_pop (result : Outcome) :
    Exec.go (op program callRule .pop) ⟨result :: results, positions⟩ world =
      (.ok (.next, ⟨results, positions⟩), world) := rfl

@[simp] theorem go_leave :
    Exec.go (op program callRule (.leave 0)) frame world = (.ok (.leave, frame), world) := rfl

theorem go_leaveWith (top : List Outcome) {n : Int} (positive : 0 < n) (h : n = top.length) :
    Exec.go (op program callRule (.leave n)) ⟨top ++ results, positions⟩ world =
      (.ok (.leave, ⟨none :: results, positions⟩), world) := by
  simp only [op, positive, if_true, Exec.go_bind, Exec.go_discard, go_take world h,
    Ended.andThen_ok]
  rfl

@[simp] theorem go_append (item : Value) (items : List Value) :
    Exec.go (op program callRule .append) ⟨some item :: some (.list items) :: results, positions⟩
      world = (.ok (.next, ⟨some (.list (items ++ [item])) :: results, positions⟩), world) := rfl

@[simp] theorem go_pushPosition :
    Exec.go (op program callRule .pushPosition) ⟨results, positions⟩ world =
      (.ok (.next, ⟨results, world.state.offset :: positions⟩), world) := rfl

@[simp] theorem go_loadPosition (offset : Int) :
    Exec.go (op program callRule .loadPosition) ⟨results, offset :: positions⟩ world =
      (.ok (.next, ⟨results, offset :: positions⟩), world.change ({ · with offset })) := rfl

@[simp] theorem go_popPosition (offset : Int) :
    Exec.go (op program callRule .popPosition) ⟨results, offset :: positions⟩ world =
      (.ok (.next, ⟨results, positions⟩), world) := rfl

@[simp] theorem go_text (result : Outcome) (offset : Int) :
    Exec.go (op program callRule .text) ⟨result :: results, offset :: positions⟩ world =
      (.ok (.next, ⟨some (.text (Index.slice world.state.input offset world.state.offset)) ::
        results, offset :: positions⟩), world) := rfl

@[simp] theorem go_markTop (offset : Int) :
    Exec.go (op program callRule .markTop) ⟨results, offset :: positions⟩ world =
      (.ok (.next, ⟨results, offset :: positions⟩), world.change ({ · with mark := offset })) := rfl

@[simp] theorem go_markHere :
    Exec.go (op program callRule .markHere) frame world =
      (.ok (.next, frame), world.change fun s => { s with mark := s.offset }) := rfl

@[simp] theorem go_silence :
    Exec.go (op program callRule .silence) frame world =
      (.ok (.next, frame), world.change fun s => { s with silence := s.silence + 1 }) := rfl

@[simp] theorem go_unsilence :
    Exec.go (op program callRule .unsilence) frame world =
      (.ok (.next, frame), world.change fun s => { s with silence := s.silence - 1 }) := rfl

@[simp] theorem go_openRecord :
    Exec.go (op program callRule .openRecord) frame world =
      (.ok (.next, frame), world.change (·.openRecord)) := rfl

theorem go_wrap {values : List Value} {n : Int} (h : n = values.length) :
    Exec.go (op program callRule (.wrap n)) ⟨(values.map some).reverse ++ results, positions⟩ world =
      (.ok (.next, ⟨some (.list values) :: results, positions⟩), world) := by
  have all : ∀ frame : Frame, Exec.go ((values.map some).mapM present) frame world =
      (.ok (values, frame), world) := by
    intro frame
    clear h
    induction values with
    | nil => rfl
    | cons value rest ih =>
      simp only [List.map_cons, List.mapM_cons, present, Exec.go_bind, Exec.go_pure,
        Ended.andThen_ok, ih]
  have length : n = ((values.map some).reverse).length := by simpa using h
  simp only [op, Exec.go_bind, go_take world length, List.reverse_reverse, Ended.andThen_ok, all]
  rfl

theorem go_get {top : List Outcome} {n index : Int} {value : Value} (h : n = top.length)
    (natural : 0 ≤ index) (found : (top ++ results)[index.toNat]? = some (some value)) :
    Exec.go (op program callRule (.get n index)) ⟨top ++ results, positions⟩ world =
      (.ok (.next, ⟨some value :: results, positions⟩), world) := by
  simp only [op, Exec.go_bind, Exec.go_discard,
    go_valueAt ⟨top ++ results, positions⟩ world natural found, Ended.andThen_ok, go_take world h]
  rfl

theorem go_wrapSome {top : List Outcome} {n : Int} {indexes : List Int} {values : List Value}
    (h : n = top.length)
    (found : List.Forall₂ (fun (distance : Int) value =>
      0 ≤ distance ∧ (top ++ results)[distance.toNat]? = some (some value)) indexes values) :
    Exec.go (op program callRule (.wrapSome n indexes)) ⟨top ++ results, positions⟩ world =
      (.ok (.next, ⟨some (.list values) :: results, positions⟩), world) := by
  simp only [op, Exec.go_bind, Exec.go_discard,
    go_valuesAt ⟨top ++ results, positions⟩ world found, Ended.andThen_ok, go_take world h]
  rfl

theorem go_call {top : List Outcome} {function n : Int} {arguments : List Int}
    {values : List Value} {code : UserCode} (known : Index.at? program.functions function = some code)
    (h : n = top.length)
    (found : List.Forall₂ (fun (distance : Int) value =>
      0 ≤ distance ∧ (top ++ results)[distance.toNat]? = some (some value)) arguments values) :
    Exec.go (op program callRule (.call function n arguments)) ⟨top ++ results, positions⟩ world =
      match code world.state values with
      | .ok value => (.ok (.next, ⟨some value :: results, positions⟩), world)
      | .error raised => (.error raised, world) := by
  simp only [op, callFunction, known, present, Exec.go_bind, Exec.go_pure, Exec.go_discard,
    go_valuesAt ⟨top ++ results, positions⟩ world found, Ended.andThen_ok, go_take world h, go_state,
    go_lift]
  cases code world.state values <;> rfl

/-- How a primitive leaves world and stack. -/
theorem go_matching (primitive : ParserState → Except Raise (Option Text × ParserState)) :
    Exec.go (matching primitive) frame world =
      match primitive world.state with
      | .ok (matched, after) =>
        (.ok (⟨⟩, frame.push (matched.map .text)), { world with state := after })
      | .error raised => (.error raised, world) := by
  simp only [matching, Exec.go_bind, go_state, Ended.andThen_ok, go_lift]
  rcases primitive world.state with _ | ⟨matched, after⟩ <;> rfl

theorem go_expect {index : Int} {entry : Entry} (known : Index.at? program.entries index = some entry) :
    Exec.go (op program callRule (.expect index)) frame world =
      match world.state.expect entry with
      | .ok after => (.ok (.next, frame), { world with state := after })
      | .error raised => (.error raised, world) := by
  simp only [op, expect, known, present, Exec.go_bind, Exec.go_pure, Ended.andThen_ok, go_state,
    go_lift]
  cases world.state.expect entry <;> rfl

@[simp] theorem go_closeRecord (inverted : Int) :
    Exec.go (op program callRule (.closeRecord inverted)) frame world =
      match world.state.closeRecord (inverted != 0) with
      | (none, after) => (.ok (.next, frame), { world with state := after })
      | (some raised, after) => (.error raised, { world with state := after }) := by
  simp only [op, closeRecord, Exec.go_bind, go_state, Ended.andThen_ok, go_setState]
  rcases world.state.closeRecord (inverted != 0) with ⟨_ | raised, after⟩ <;> rfl

@[simp] theorem go_rule (index : Int) :
    Exec.go (op program callRule (.rule index)) frame world =
      (Run.go (callRule index) world).andThen fun out after => (.ok (.next, frame.push out), after) := by
  simp only [op, Exec.go_bind, Exec.go_lift, Ended.andThen_assoc, Ended.andThen_ok, push]
  rfl

end Instructions

section Tests

variable {results : List Outcome} {positions : List Int} {items : List Value}

@[simp] theorem go_isTrue (result : Outcome) :
    Exec.go (test .isTrue) ⟨result :: results, positions⟩ world =
      (.ok ((result.map Value.isTrue).getD false, ⟨result :: results, positions⟩), world) := rfl

@[simp] theorem go_isFailed (result : Outcome) :
    Exec.go (test .isFailed) ⟨result :: results, positions⟩ world =
      (.ok (result.isNone, ⟨result :: results, positions⟩), world) := rfl

@[simp] theorem go_isMatched (result : Outcome) :
    Exec.go (test .isMatched) ⟨result :: results, positions⟩ world =
      (.ok (result.isSome, ⟨result :: results, positions⟩), world) := rfl

@[simp] theorem go_fewer (n : Int) :
    Exec.go (test (.fewer n)) ⟨some (.list items) :: results, positions⟩ world =
      (.ok (decide (items.length < n), ⟨some (.list items) :: results, positions⟩), world) := rfl

@[simp] theorem go_reached (n : Int) :
    Exec.go (test (.reached (.number n))) ⟨some (.list items) :: results, positions⟩ world =
      (.ok (decide (n ≤ items.length), ⟨some (.list items) :: results, positions⟩), world) := rfl

theorem go_boundAt {distance : Int} {value : Value} (natural : 0 ≤ distance)
    (found : frame.results[distance.toNat]? = some (some value)) :
    Exec.go (boundAt distance) frame world =
      match value.number? with
      | some n => (.ok (n, frame), world)
      | none => (.error .wrongType, world) := by
  simp only [boundAt, Exec.go_bind, go_valueAt frame world natural found, Ended.andThen_ok]
  cases value.number? <;> rfl

theorem go_fewerThan {distance : Int} {value : Value} (natural : 0 ≤ distance)
    (found : (some (.list items) :: results)[distance.toNat]? = some (some value)) :
    Exec.go (test (.fewerThan distance)) ⟨some (.list items) :: results, positions⟩ world =
      match value.number? with
      | some n =>
        (.ok (n.exceeds items.length, ⟨some (.list items) :: results, positions⟩), world)
      | none => (.error .wrongType, world) := by
  simp only [test, Exec.go_bind, go_topItems, Ended.andThen_ok,
    go_boundAt ⟨some (.list items) :: results, positions⟩ world natural found]
  cases value.number? <;> rfl

theorem go_reachedBy {distance : Int} {value : Value} (natural : 0 ≤ distance)
    (found : (some (.list items) :: results)[distance.toNat]? = some (some value)) :
    Exec.go (test (.reachedBy distance)) ⟨some (.list items) :: results, positions⟩ world =
      match value.number? with
      | some n =>
        (.ok (n.atMost items.length, ⟨some (.list items) :: results, positions⟩), world)
      | none => (.error .wrongType, world) := by
  simp only [test, Exec.go_bind,
    go_boundAt ⟨some (.list items) :: results, positions⟩ world natural found]
  cases value.number? <;> rfl

end Tests

end Machine

/-- Goes on behind a piece of code that does not leave the innermost loop. -/
def Ended.onward (ended : Ended (Signal × Frame)) (next : Frame → World → Ended (Signal × Frame)) :
    Ended (Signal × Frame) :=
  ended.andThen fun (signal, frame) world =>
    match signal with
    | .leave => (.ok (.leave, frame), world)
    | .next => next frame world

namespace Ended

variable (frame : Frame) (world : World) (next : Frame → World → Ended (Signal × Frame))

@[simp] theorem onward_next :
    onward (.ok (.next, frame), world) next = next frame world := rfl

@[simp] theorem onward_leave :
    onward (.ok (.leave, frame), world) next = (.ok (.leave, frame), world) := rfl

@[simp] theorem onward_error (raised : Raise) :
    onward (.error raised, world) next = (.error raised, world) := rfl

theorem onward_assoc (ended : Ended (Signal × Frame))
    (last : Frame → World → Ended (Signal × Frame)) :
    (ended.onward next).onward last =
      ended.onward fun frame world => (next frame world).onward last := by
  rcases ended with ⟨_ | ⟨_ | _, _⟩, _⟩ <;> rfl

/-- A run that gives a result and never leaves a loop. -/
theorem andThen_onward {α : Type} (ended : Ended α) (first : α → World → Ended (Signal × Frame)) :
    (ended.andThen first).onward next =
      ended.andThen fun a world => (first a world).onward next := by
  rcases ended with ⟨_ | _, _⟩ <;> rfl

end Ended

namespace Machine

section Blocks

variable (program : Program) (callRule : Int → Run Outcome) (fuel : Nat) (frame : Frame)
  (world : World)

@[simp] theorem go_block_nil :
    Exec.go (block program callRule fuel []) frame world = (.ok (.next, frame), world) := rfl

theorem go_block_cons (i : Instr) (rest : List Instr) :
    Exec.go (block program callRule fuel (i :: rest)) frame world =
      (Exec.go (instr program callRule fuel i) frame world).onward
        (Exec.go (block program callRule fuel rest)) := by
  rw [block, Exec.go_bind, Ended.onward]
  refine Ended.andThen_congr fun a world _ => ?_
  rcases a with ⟨_ | _, _⟩ <;> rfl

@[simp] theorem go_block_append (first second : List Instr) :
    Exec.go (block program callRule fuel (first ++ second)) frame world =
      (Exec.go (block program callRule fuel first) frame world).onward
        (Exec.go (block program callRule fuel second)) := by
  induction first generalizing frame world with
  | nil => rfl
  | cons i rest ih =>
    rw [List.cons_append, go_block_cons, go_block_cons, Ended.onward_assoc]
    congr 1
    funext frame world
    exact ih frame world

@[simp] theorem go_block_op (o : Op) (rest : List Instr) :
    Exec.go (block program callRule fuel (.op o :: rest)) frame world =
      (Exec.go (op program callRule o) frame world).onward
        (Exec.go (block program callRule fuel rest)) := by
  rw [go_block_cons, instr]

@[simp] theorem go_block_branch (condition : Test) (yes no rest : List Instr) :
    Exec.go (block program callRule fuel (.branch condition yes no :: rest)) frame world =
      ((Exec.go (test condition) frame world).andThen fun (holds, frame) world =>
        Exec.go (block program callRule fuel (if holds then yes else no)) frame world).onward
          (Exec.go (block program callRule fuel rest)) := by
  rw [go_block_cons, instr, Exec.go_bind]
  congr 1
  refine Ended.andThen_congr fun a world _ => ?_
  rcases a with ⟨_ | _, _⟩ <;> rfl

/-- A loop without fuel does not start. -/
def looping (ended : Ended (Unit × Frame)) : Ended (Signal × Frame) :=
  ended.andThen fun (_, frame) world => (.ok (.next, frame), world)

@[simp] theorem go_block_loop (endless : Bool) (body rest : List Instr) :
    Exec.go (block program callRule fuel (.loop endless body :: rest)) frame world =
      (looping (Exec.go (rounds endless (block program callRule fuel body) fuel) frame world)).onward
        (Exec.go (block program callRule fuel rest)) := by
  rw [go_block_cons, instr, Exec.go_bind]
  rfl

@[simp] theorem go_rounds_zero (endless : Bool) (body : Exec Signal) :
    Exec.go (rounds endless body 0) frame world = (.error .outOfFuel, world) := rfl

/-- A loop that is not endless has a single round. -/
@[simp] theorem go_once (body : Exec Signal) :
    Exec.go (rounds false body (fuel + 1)) frame world =
      (Exec.go body frame world).andThen fun (_, frame) world => (.ok (⟨⟩, frame), world) := by
  rw [rounds, Exec.go_bind]
  refine Ended.andThen_congr fun a world _ => ?_
  rcases a with ⟨_ | _, _⟩ <;> rfl

theorem go_again (body : Exec Signal) :
    Exec.go (rounds true body (fuel + 1)) frame world =
      (Exec.go body frame world).andThen fun (signal, frame) world =>
        match signal with
        | .leave => (.ok (⟨⟩, frame), world)
        | .next => Exec.go (rounds true body fuel) frame world := by
  rw [rounds, Exec.go_bind]
  refine Ended.andThen_congr fun a world _ => ?_
  rcases a with ⟨_ | _, _⟩ <;> rfl

end Blocks

end Machine

end PegCompiler
