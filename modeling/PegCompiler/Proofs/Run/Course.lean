import PegCompiler.Proofs.Run.Matching
import PegCompiler.Proofs.Run.Tree

/-!
The course of a parse. `Course.Valid` says of a world that it belongs to a parse of a given input: the
position is in the input, there is a record to note in, and whatever the memo table holds may be
there. `Run.Yields` says what holds wherever a run gives something.
-/

namespace PegCompiler

/-- What holds of everything that a run gives, and of the world it leaves. -/
def Run.Yields {α : Type} (run : Run α) (world : World) (holds : α → World → Prop) : Prop :=
  ∀ a after, Run.go run world = (.ok a, after) → holds a after

namespace Run.Yields

variable {α β : Type} {world : World} {run : Run α} {holds other : α → World → Prop}

theorem pure {a : α} (h : holds a world) : Run.Yields (Pure.pure a) world holds := by
  intro b after ended
  cases ended
  exact h

theorem throw {raised : Raise} : Run.Yields (throw raised : Run α) world holds := by
  intro b after ended
  cases ended

theorem bind {next : α → Run β} {holds : β → World → Prop}
    (h : Run.Yields run world fun a after => Run.Yields (next a) after holds) :
    Run.Yields (run >>= next) world holds := by
  intro b last ended
  rw [Run.go_bind] at ended
  obtain ⟨a, after, first, second⟩ := Ended.andThen_eq_ok ended
  exact h a after first b last second

theorem mono (h : Run.Yields run world holds)
    (imp : ∀ a after, holds a after → other a after) : Run.Yields run world other :=
  fun a after ended => imp a after (h a after ended)

end Run.Yields

/-- What a parse goes by: its input, and what the memo table may hold for a rule, namely from where
to where it got and with which outcome. -/
structure Course where
  program : Program
  input : Text
  source : Option Text
  kept : (place : Nat) → (start : Int) → Outcome → (stop : Int) → Prop

namespace Course

/-- A state of a parse. -/
structure Fits (c : Course) (s : ParserState) : Prop extends s.Inside where
  input : s.input = c.input
  source : s.source = c.source
  records : s.records ≠ []

/-- A world of a parse. -/
structure Valid (c : Course) (w : World) : Prop where
  state : c.Fits w.state
  memo : ∀ (place : Nat) (start : Int) (entry : Int × Outcome), place < c.program.rules.length →
    0 ≤ start → w.memo[Machine.memoKey c.program place start]? = some entry →
    c.kept place start entry.2 entry.1

/-- A later world of a parse, with as many open records. -/
structure Follows (c : Course) (w later : World) : Prop where
  valid : c.Valid later
  depth : later.state.records.length = w.state.records.length

variable {c : Course} {w v u : World}

theorem Follows.refl (valid : c.Valid w) : c.Follows w w := ⟨valid, rfl⟩

theorem Follows.trans (first : c.Follows w v) (second : c.Follows v u) : c.Follows w u :=
  ⟨second.valid, second.depth.trans first.depth⟩

/-- Only the state has changed. -/
theorem Valid.withState (valid : c.Valid w) {s : ParserState} (fits : c.Fits s) :
    c.Valid { w with state := s } :=
  ⟨fits, valid.memo⟩

theorem Valid.goTo (valid : c.Valid w) {offset : Int} (lower : 0 ≤ offset)
    (upper : offset ≤ c.input.length) : c.Follows w (w.change ({ · with offset })) :=
  ⟨valid.withState ⟨⟨lower, valid.state.input ▸ upper⟩, valid.state.input, valid.state.source,
    valid.state.records⟩, rfl⟩

theorem Valid.mark (valid : c.Valid w) (mark : Int) :
    c.Follows w (w.change ({ · with mark })) :=
  ⟨valid.withState ⟨⟨valid.state.lower, valid.state.upper⟩, valid.state.input, valid.state.source,
    valid.state.records⟩, rfl⟩

theorem Valid.silence (valid : c.Valid w) (silence : Int) :
    c.Follows w (w.change ({ · with silence })) :=
  ⟨valid.withState ⟨⟨valid.state.lower, valid.state.upper⟩, valid.state.input, valid.state.source,
    valid.state.records⟩, rfl⟩

theorem Valid.upper (valid : c.Valid w) : w.state.offset ≤ c.input.length :=
  valid.state.input ▸ valid.state.upper

theorem Valid.advance (valid : c.Valid w) {n : Nat}
    (inside : w.state.offset + n ≤ w.state.input.length) :
    c.Follows w { w with state := w.state.advance n } := by
  have lower := valid.state.lower
  refine ⟨valid.withState ⟨⟨?_, inside⟩, valid.state.input, valid.state.source,
    valid.state.records⟩, rfl⟩
  change 0 ≤ w.state.offset + n
  omega

/-- Noting an expectation changes nothing else, and there is a record to note it in. -/
theorem Valid.expect (valid : c.Valid w) (entry : Entry) :
    ∃ s, w.state.expect entry = .ok s ∧ s.offset = w.state.offset ∧
      c.Follows w { w with state := s } := by
  unfold ParserState.expect
  split
  · exact ⟨_, rfl, rfl, .refl valid⟩
  · split
    · rename_i none
      exact absurd none valid.state.records
    · rename_i record outer some
      refine ⟨_, rfl, rfl, valid.withState ?_, ?_⟩
      · exact ⟨⟨valid.state.lower, valid.state.upper⟩, valid.state.input, valid.state.source,
          by simp⟩
      · simp [some]

/-- Notes are no part of what a parse goes by. -/
theorem Follows.noted (follows : c.Follows w v) (events : List TraceEvent) :
    c.Follows w { v with events } :=
  ⟨⟨follows.valid.state, follows.valid.memo⟩, follows.depth⟩

end Course

/-! ## Calls of rules -/

namespace World

/-- The world behind a note. -/
def noted (world : World) (program : Program) (event : TraceEvent) : World :=
  { world with events := if program.trace then event :: world.events else world.events }

/-- What the memo table has, if it is in use. -/
def kept? (world : World) (program : Program) (key : Int) : Option (Int × Outcome) :=
  if program.cache then world.memo[key]? else none

@[simp] theorem noted_kept? (world : World) (program : Program) (event : TraceEvent) (key : Int) :
    (world.noted program event).kept? program key = world.kept? program key := rfl

/-- The world in which an outcome is kept, if the memo table is in use. -/
def remembering (world : World) (program : Program) (key : Int) (outcome : Outcome) : World :=
  { world with memo := if program.cache then
      world.memo.insert key (world.state.offset, outcome) else world.memo }

section Memo

variable {world : World} {program : Program} {key other : Int} {outcome : Outcome}

theorem kept?_eq_some {entry : Int × Outcome} :
    world.kept? program key = some entry ↔ program.cache = true ∧ world.memo[key]? = some entry :=
  Option.ite_none_right_eq_some

theorem remembering_memo : (world.remembering program key outcome).memo[other]? =
    if program.cache = true ∧ key = other then some (world.state.offset, outcome)
    else world.memo[other]? := by
  unfold remembering
  by_cases cache : program.cache = true
  · by_cases same : key = other
    · simp [cache, same]
    · simp [cache, same, Std.TreeMap.getElem?_insert]
  · simp [cache]

theorem remembering_kept? : (world.remembering program key outcome).kept? program other =
    if program.cache = true ∧ key = other then some (world.state.offset, outcome)
    else world.kept? program other := by
  unfold kept?
  rw [remembering_memo]
  by_cases cache : program.cache = true
  · simp [cache]
  · simp [cache]

end Memo

end World

/-- What the memo table has for a rule and the present offset is what may be kept for them. -/
theorem Course.Valid.keeps {c : Course} {w : World} (valid : c.Valid w) {place : Nat} {stop : Int}
    {out : Outcome} (inside : place < c.program.rules.length)
    (kept : w.kept? c.program (Machine.memoKey c.program place w.state.offset) = some (stop, out)) :
    c.kept place w.state.offset out stop :=
  valid.memo place _ _ inside valid.state.lower (World.kept?_eq_some.mp kept).2

namespace Machine

variable (program : Program) (world : World)

/-- Different pairs of a rule and an offset have different places in the memo table. -/
theorem memoKey_inj {program : Program} {p q : Nat} {s t : Int} (hp : p < program.rules.length)
    (hq : q < program.rules.length) (same : memoKey program p s = memoKey program q t) :
    p = q ∧ s = t := by
  unfold memoKey at same
  have places : ∀ {r : Nat} (u : Int), r < program.rules.length →
      (u * program.rules.length + r) % program.rules.length = r := by
    intro r u hr
    rw [Int.add_comm, Int.add_mul_emod_self_right]
    exact Int.emod_eq_of_lt (by omega) (by omega)
  have place : (p : Int) = q := by
    rw [← places s hp, ← places t hq, same]
  refine ⟨by omega, ?_⟩
  rw [place] at same
  exact Int.eq_of_mul_eq_mul_right (a := (program.rules.length : Int)) (by omega) (by omega)

theorem go_note (event : TraceEvent) :
    Run.go (note program event) world = (.ok ⟨⟩, world.noted program event) := by
  unfold note World.noted
  split <;> rfl

/-- What is noted where a rule starts. -/
def startEvent (name : Text) (world : World) : TraceEvent :=
  ⟨.enter, name, world.state.offset, world.state.offset, none⟩

/-- What is noted where a rule ends. -/
def endEvent (name : Text) (start : Int) (outcome : Outcome) (world : World) : TraceEvent :=
  match outcome with
  | some value => ⟨.matched, name, start, world.state.offset, some value⟩
  | none => ⟨.failed, name, start, start, none⟩

theorem go_noteEnd (name : Text) (start : Int) (outcome : Outcome) :
    Run.go (noteEnd program name start outcome) world =
      (.ok ⟨⟩, world.noted program (endEvent name start outcome world)) := by
  cases outcome with
  | none => exact go_note program world _
  | some value =>
    simp only [noteEnd, Run.go_bind, Run.go_get, Ended.andThen_ok, go_note]
    rfl

theorem go_memoized (key : Int) :
    Run.go (memoized program key) world =
      match world.kept? program key with
      | some (stop, outcome) => (.ok (some outcome), world.change ({ · with offset := stop }))
      | none => (.ok none, world) := by
  unfold memoized World.kept?
  cases program.cache with
  | false => rfl
  | true =>
    simp only [Bool.not_true, Bool.false_eq_true, if_false, if_true, Run.go_bind, Run.go_get,
      Ended.andThen_ok]
    cases world.memo[key]? <;> rfl

theorem go_remember (key : Int) (outcome : Outcome) :
    Run.go (remember program key outcome) world =
      (.ok ⟨⟩, world.remembering program key outcome) := by
  unfold remember World.remembering
  split <;> rfl

end Machine

namespace Tree

variable {program : Program} {world : World} (place : Nat) (name : Text)

/-- The world behind a call whose outcome was kept. -/
def keptWorld (program : Program) (name : Text) (stop : Int) (outcome : Outcome) (world : World) :
    World :=
  let moved := (world.noted program (Machine.startEvent name world)).change ({ · with offset := stop })
  moved.noted program (Machine.endEvent name world.state.offset outcome moved)

/-- The world behind a call whose outcome was found in the world `after`. -/
def newWorld (program : Program) (place : Nat) (name : Text) (start : Int) (outcome : Outcome)
    (after : World) : World :=
  let keeps := after.remembering program (Machine.memoKey program place start) outcome
  keeps.noted program (Machine.endEvent name start outcome keeps)

theorem go_called_of_kept {stop : Int} {outcome : Outcome}
    (kept : world.kept? program (Machine.memoKey program place world.state.offset) =
      some (stop, outcome)) (body : Run Outcome) :
    Run.go (called program place name body) world =
      (.ok outcome, keptWorld program name stop outcome world) := by
  unfold called
  simp only [Run.go_bind, Run.go_get, Ended.andThen_ok, Machine.go_note, Machine.go_memoized,
    World.noted_kept?, kept, Machine.go_noteEnd, Run.go_pure]
  rfl

theorem go_called_of_new
    (anew : world.kept? program (Machine.memoKey program place world.state.offset) = none)
    (body : Run Outcome) :
    Run.go (called program place name body) world =
      (Run.go body (world.noted program (Machine.startEvent name world))).andThen fun outcome after =>
        (.ok outcome, newWorld program place name world.state.offset outcome after) := by
  unfold called
  simp only [Run.go_bind, Run.go_get, Ended.andThen_ok, Machine.go_note, Machine.go_memoized,
    World.noted_kept?, anew, Machine.go_noteEnd, Machine.go_remember, Run.go_pure]
  rfl

/-- A call whose outcome is in the memo table. -/
theorem go_called_kept {stop : Int} {outcome : Outcome}
    (kept : world.kept? program (Machine.memoKey program place world.state.offset) =
      some (stop, outcome)) :
    ∃ events, ∀ body, Run.go (called program place name body) world =
      (.ok outcome, { world.change ({ · with offset := stop }) with events }) :=
  ⟨(keptWorld program name stop outcome world).events, go_called_of_kept place name kept⟩

/-- A call whose outcome is found anew. -/
theorem go_called_anew
    (anew : world.kept? program (Machine.memoKey program place world.state.offset) = none) :
    ∃ (before : List TraceEvent) (behind : Outcome → World → List TraceEvent), ∀ body,
      Run.go (called program place name body) world =
        (Run.go body { world with events := before }).andThen fun outcome after =>
          (.ok outcome, { after.remembering program
            (Machine.memoKey program place world.state.offset) outcome with
              events := behind outcome after }) :=
  ⟨(world.noted program (Machine.startEvent name world)).events, fun outcome after =>
    (newWorld program place name world.state.offset outcome after).events, go_called_of_new place name anew⟩

end Tree

end PegCompiler
