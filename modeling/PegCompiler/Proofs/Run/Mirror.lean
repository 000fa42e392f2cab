import PegCompiler.Proofs.Run.Agreement
import PegCompiler.Proofs.Run.Parametric

/-!
Two runs side by side. The one on the right may have more fuel, and each may keep what rules give and
note events in its own way. `Run.Mirrors` says that whatever the left run gives or raises, as long as it
is not for want of fuel, the right run gives or raises as well, and stands at the same place afterwards;
what has been noted and is expected may differ. It also says what the left run may note and raise at
all. Expressions mirror themselves if the calls of rules do (`Tree.mirrors_parametric`).
-/

namespace PegCompiler

/-- A node that can be run: no reference that leads nowhere, and no stranger. -/
def Grammar.Runs (g : Grammar) (e : Expr) : Prop := g.Resolves e ∧ ∀ what, e ≠ .foreign what

theorem Grammar.SoundBody.runs {g : Grammar} {e : Expr} (body : g.SoundBody e) : e.Everywhere g.Runs := by
  have inner {e : Expr} (sound : g.Sound e) : e.Everywhere g.Runs :=
    (sound.resolves.and sound.textual).mono fun e here =>
      ⟨here.1, fun what same => by cases same; exact here.2⟩
  cases body with
  | plain sound => exact inner sound
  | @displayed info name e _ sound =>
    refine .node ⟨trivial, nofun⟩ fun c hc => ?_
    obtain rfl : c = e := by simpa [Expr.children] using hc
    exact inner sound

/-- Two courses of one parse. -/
structure Sides where
  left : Course
  right : Course
  input : right.input = left.input
  source : right.source = left.source
  /-- What the left side notes. -/
  told : TraceEvent → Prop
  /-- What the left side raises, but for want of fuel. -/
  raises : Raise → Prop

/-- Two worlds of a parse at the same place. -/
structure Twins (sides : Sides) (w v : World) : Prop where
  left : sides.left.Valid w
  right : sides.right.Valid v
  offset : v.state.offset = w.state.offset
  told : ∀ event ∈ w.events, sides.told event

/-- Later worlds that are twins again, with as many open records as before on either side. -/
structure Twins.Leads (sides : Sides) (w v w' v' : World) : Prop where
  twins : Twins sides w' v'
  left : w'.state.records.length = w.state.records.length
  right : v'.state.records.length = v.state.records.length

namespace Twins

variable {sides : Sides} {w v w' v' w'' v'' : World}

theorem input (twins : Twins sides w v) : v.state.input = w.state.input :=
  (twins.right.state.input.trans sides.input).trans twins.left.state.input.symm

theorem source (twins : Twins sides w v) : v.state.source = w.state.source :=
  (twins.right.state.source.trans sides.source).trans twins.left.state.source.symm

theorem Leads.refl (twins : Twins sides w v) : Leads sides w v w v := ⟨twins, rfl, rfl⟩

theorem Leads.trans (first : Leads sides w v w' v') (second : Leads sides w' v' w'' v'') :
    Leads sides w v w'' v'' :=
  ⟨second.twins, second.left.trans first.left, second.right.trans first.right⟩

/-- Both sides move on by themselves. -/
theorem leads (twins : Twins sides w v) (left : sides.left.Follows w w')
    (right : sides.right.Follows v v') (offset : v'.state.offset = w'.state.offset)
    (events : w'.events = w.events) : Leads sides w v w' v' :=
  ⟨⟨left.valid, right.valid, offset, events ▸ twins.told⟩, left.depth, right.depth⟩

/-- Both sides go to an offset of the input. -/
theorem goTo (twins : Twins sides w v) {offset : Int} (lower : 0 ≤ offset)
    (upper : offset ≤ sides.left.input.length) :
    Leads sides w v (w.change ({ · with offset })) (v.change ({ · with offset })) :=
  twins.leads (twins.left.goTo lower upper) (twins.right.goTo lower (sides.input ▸ upper)) rfl rfl

end Twins

/-- What the left run gives or raises, but for want of fuel, the right one does too. -/
def Run.MirrorsAt {α : Type} (sides : Sides) (run run' : Run α) (w v : World) : Prop :=
  match Run.go run w with
  | (.ok a, w') => ∃ v', Run.go run' v = (.ok a, v') ∧ Twins.Leads sides w v w' v'
  | (.error raised, w') => (∀ event ∈ w'.events, sides.told event) ∧
    (raised ≠ .outOfFuel → sides.raises raised ∧ ∃ v', Run.go run' v = (.error raised, v'))

/-- Wherever the runs begin as twins. -/
def Run.Mirrors {α : Type} (sides : Sides) (run run' : Run α) : Prop :=
  ∀ w v, Twins sides w v → run.MirrorsAt sides run' w v

namespace Run.MirrorsAt

variable {α : Type} {sides : Sides} {run run' : Run α} {w w' v : World}

theorem of_ok {a : α} {v' : World} (left : Run.go run w = (.ok a, w'))
    (right : Run.go run' v = (.ok a, v')) (leads : Twins.Leads sides w v w' v') :
    MirrorsAt sides run run' w v := by
  unfold MirrorsAt
  rw [left]
  exact ⟨v', right, leads⟩

theorem of_error {raised : Raise} (left : Run.go run w = (.error raised, w'))
    (told : ∀ event ∈ w'.events, sides.told event) (right : raised ≠ .outOfFuel →
      sides.raises raised ∧ ∃ v', Run.go run' v = (.error raised, v')) :
    MirrorsAt sides run run' w v := by
  unfold MirrorsAt
  rw [left]
  exact ⟨told, right⟩

theorem ok {a : α} (mirrors : MirrorsAt sides run run' w v) (left : Run.go run w = (.ok a, w')) :
    ∃ v', Run.go run' v = (.ok a, v') ∧ Twins.Leads sides w v w' v' := by
  unfold MirrorsAt at mirrors
  rwa [left] at mirrors

theorem error {raised : Raise} (mirrors : MirrorsAt sides run run' w v)
    (left : Run.go run w = (.error raised, w')) : (∀ event ∈ w'.events, sides.told event) ∧
      (raised ≠ .outOfFuel → sides.raises raised ∧ ∃ v', Run.go run' v = (.error raised, v')) := by
  unfold MirrorsAt at mirrors
  rwa [left] at mirrors

/-- Where the left run ends, the right one does. -/
theorem ends (mirrors : MirrorsAt sides run run' w v) (ends : (Run.go run w).1 ≠ .error .outOfFuel) :
    (Run.go run' v).1 ≠ .error .outOfFuel := by
  rcases ended : Run.go run w with ⟨raised | a, w'⟩
  · rw [ended] at ends
    obtain ⟨-, v', right⟩ := (mirrors.error ended).2 fun same => ends (congrArg _ same)
    rwa [right]
  · obtain ⟨v', right, -⟩ := mirrors.ok ended
    rw [right]
    exact nofun

theorem told (mirrors : MirrorsAt sides run run' w v) :
    ∀ event ∈ (Run.go run w).2.events, sides.told event := by
  rcases ended : Run.go run w with ⟨raised | a, w'⟩
  · exact (mirrors.error ended).1
  · obtain ⟨v', -, leads⟩ := mirrors.ok ended
    exact leads.twins.told

end Run.MirrorsAt

namespace Run.Mirrors

variable {α β : Type} {sides : Sides} {run run' : Run α}

theorem of_ok (goes : ∀ w v, Twins sides w v → ∃ a w' v', Run.go run w = (.ok a, w') ∧
    Run.go run' v = (.ok a, v') ∧ Twins.Leads sides w v w' v') : Mirrors sides run run' := by
  intro w v twins
  obtain ⟨a, w', v', left, right, leads⟩ := goes w v twins
  exact .of_ok left right leads

theorem pure {a : α} : Mirrors sides (Pure.pure a) (Pure.pure a) :=
  of_ok fun w v twins => ⟨a, w, v, rfl, rfl, .refl twins⟩

theorem throw {raised : Raise} (raises : raised ≠ .outOfFuel → sides.raises raised) :
    Mirrors sides (MonadExcept.throw raised : Run α) (MonadExcept.throw raised) :=
  fun _ v twins => ⟨twins.told, fun fuel => ⟨raises fuel, v, rfl⟩⟩

/-- Where the left run has no fuel, the right one may do anything. -/
theorem out : Mirrors sides (MonadExcept.throw .outOfFuel : Run α) run' :=
  fun _ _ twins => ⟨twins.told, fun fuel => absurd rfl fuel⟩

theorem bind {next next' : α → Run β} (first : Mirrors sides run run')
    (second : ∀ a, Mirrors sides (next a) (next' a)) :
    Mirrors sides (run >>= next) (run' >>= next') := by
  intro w v twins
  have first := first w v twins
  rcases ended : Run.go run w with ⟨raised | a, w'⟩
  · obtain ⟨told, right⟩ := first.error ended
    refine .of_error (by rw [Run.go_bind, ended]; rfl) told fun fuel => ?_
    obtain ⟨raises, v', right⟩ := right fuel
    exact ⟨raises, v', by rw [Run.go_bind, right]; rfl⟩
  · obtain ⟨v', right, leads⟩ := first.ok ended
    have onward : Run.go (run' >>= next') v = Run.go (next' a) v' := by rw [Run.go_bind, right]; rfl
    have second := second a w' v' leads.twins
    rcases ended' : Run.go (next a) w' with ⟨raised | b, w''⟩
    · obtain ⟨told, right⟩ := second.error ended'
      exact .of_error (by rw [Run.go_bind, ended]; exact ended') told (onward ▸ right)
    · obtain ⟨v'', right', leads'⟩ := second.ok ended'
      exact .of_ok (by rw [Run.go_bind, ended]; exact ended') (onward.trans right') (leads.trans leads')

/-- Both runs start at an offset of the input. -/
theorem from_offset {next next' : Int → Run β}
    (second : ∀ start : Int, 0 ≤ start → start ≤ sides.left.input.length →
      Mirrors sides (next start) (next' start)) :
    Mirrors sides (Tree.offset >>= next) (Tree.offset >>= next') := by
  intro w v twins
  have := second w.state.offset twins.left.state.lower twins.left.upper w v twins
  unfold MirrorsAt at this ⊢
  simpa only [Run.go_bind, Tree.go_offset, Ended.andThen_ok, twins.offset] using this

/-- A result that does not depend on the state. -/
theorem of_result (result : Except Raise α) (reads : ∀ w, Run.go run w = (result, w))
    (reads' : ∀ w, Run.go run' w = (result, w))
    (raises : ∀ raised, result = .error raised → sides.raises raised) : Mirrors sides run run' := by
  intro w v twins
  cases result with
  | ok a => exact .of_ok (reads w) (reads' v) (.refl twins)
  | error raised =>
    exact .of_error (reads w) twins.told fun _ => ⟨raises raised rfl, v, reads' v⟩

end Run.Mirrors

namespace Tree

variable {sides : Sides}

theorem goTo_mirrors {start : Int} (lower : 0 ≤ start) (upper : start ≤ sides.left.input.length) :
    (goTo start).Mirrors sides (goTo start) :=
  .of_ok fun _ _ twins => ⟨_, _, _, rfl, rfl, twins.goTo lower upper⟩

theorem silence_mirrors (change : Int → Int) :
    (Tree.change fun s => { s with silence := change s.silence }).Mirrors sides
      (Tree.change fun s => { s with silence := change s.silence }) :=
  .of_ok fun _ _ twins => ⟨_, _, _, rfl, rfl,
    twins.leads (twins.left.silence _) (twins.right.silence _) twins.offset rfl⟩

theorem expect_mirrors (reports : Bool) (entry : Entry) :
    (expect reports entry).Mirrors sides (expect reports entry) := by
  refine .of_ok fun w v twins => ?_
  simp only [go_expect]
  cases reports with
  | false => exact ⟨_, _, _, rfl, rfl, .refl twins⟩
  | true =>
    obtain ⟨s, noted, offset, follows⟩ := twins.left.expect entry
    obtain ⟨s', noted', offset', follows'⟩ := twins.right.expect entry
    refine ⟨⟨⟩, _, _, by rw [if_pos rfl, noted], by rw [if_pos rfl, noted'],
      twins.leads follows follows' ?_ rfl⟩
    exact offset'.trans (twins.offset.trans offset.symm)

theorem matching_mirrors {matcher : CharClass → ClassMatcher}
    {primitive : ParserState → Except Raise (Option Text × ParserState)}
    (is : Primitive matcher primitive) : (matching primitive).Mirrors sides (matching primitive) := by
  refine .of_ok fun w v twins => ?_
  obtain ⟨matched, after, after', found, found', offset⟩ := is.alike twins.left.state.toInside
    twins.input.symm twins.offset.symm
  have left : Run.go (matching primitive) w = (.ok (matched.map .text), { w with state := after }) := by
    rw [go_matching, found]
  have right : Run.go (matching primitive) v = (.ok (matched.map .text), { v with state := after' }) := by
    rw [go_matching, found']
  obtain ⟨consuming, advances⟩ := is.advances
  have follows := (Course.matching_steps advances w twins.left _ _ left).follows
  have follows' := (Course.matching_steps advances v twins.right _ _ right).follows
  exact ⟨_, _, _, left, right, twins.leads follows follows' offset.symm rfl⟩

section UserCode

variable {scene : Scene} {program : Program} (pure : PureMeaning scene.meaning)
  (user : ∀ f s values raised, scene.meaning f s values = .error raised → sides.raises raised)

variable (program) in
include pure user in
/-- User code that sees the match from the same place on. -/
theorem call_mirrors (predicate : Bool) (code : Text) (scope : Scope) {w v : World}
    (twins : Twins sides w v) (mark : v.state.mark = w.state.mark) :
    ∃ result, Run.go (call scene predicate code scope) w = (result, w) ∧
      Run.go (call { scene with program } predicate code scope) v = (result, v) ∧
      ∀ raised, result = .error raised → sides.raises raised := by
  refine ⟨_, go_call .., ?_, user _ _ _⟩
  rw [go_call]
  exact congrArg (·, v) (pure _ _ _ _ twins.input twins.source twins.offset mark)

include pure user in
theorem act_mirrors (start : Int) (code : Text) (scope : Scope) :
    (act scene start code scope).Mirrors sides (act { scene with program } start code scope) := by
  intro w v twins
  have marked := twins.leads (twins.left.mark start) (twins.right.mark start) twins.offset rfl
  obtain ⟨result, left, right, raises⟩ :=
    call_mirrors program pure user false code scope marked.twins rfl
  unfold Run.MirrorsAt
  simp only [act, Run.go_bind, go_change, Ended.andThen_ok, left, right]
  cases result with
  | ok value => exact ⟨_, rfl, marked⟩
  | error raised => exact ⟨marked.twins.told, fun _ => ⟨raises raised rfl, _, rfl⟩⟩

include pure user in
theorem predicate_mirrors (negative : Bool) (code : Text) (scope : Scope) :
    (predicate scene negative code scope).Mirrors sides
      (predicate { scene with program } negative code scope) := by
  intro w v twins
  have marked : Twins.Leads sides w v (w.change fun s => { s with mark := s.offset })
      (v.change fun s => { s with mark := s.offset }) :=
    twins.leads (twins.left.mark _) (twins.right.mark _) twins.offset rfl
  obtain ⟨result, left, right, raises⟩ :=
    call_mirrors program pure user true code scope marked.twins twins.offset
  unfold Run.MirrorsAt
  simp only [predicate, Run.go_bind, go_change, Ended.andThen_ok, left, right]
  cases result with
  | ok value => exact ⟨_, rfl, marked⟩
  | error raised => exact ⟨marked.twins.told, fun _ => ⟨raises raised rfl, _, rfl⟩⟩

end UserCode

theorem boundOf_mirrors (bounds : sides.raises .wrongType) (scope : Scope) (name : Text) :
    (boundOf scope name).Mirrors sides (boundOf scope name) := by
  cases found : (Value.lookup? name scope).bind Value.number? with
  | some n =>
    exact .of_result (.ok n) (fun w => by rw [go_boundOf, found])
      (fun w => by rw [go_boundOf, found]) nofun
  | none =>
    exact .of_result (.error .wrongType) (fun w => by rw [go_boundOf, found])
      (fun w => by rw [go_boundOf, found]) fun raised same => by cases same; exact bounds

/-- Either side closes the record that it has opened. -/
theorem lookahead_mirrors {body body' : Run Outcome} (mirrors : body.Mirrors sides body')
    (negative : Bool) : (lookahead negative body).Mirrors sides (lookahead negative body') := by
  refine .from_offset fun start lower upper => ?_
  intro w v twins
  have opened : Twins sides (w.change (·.openRecord)) (v.change (·.openRecord)) :=
    ⟨twins.left.opened, twins.right.opened, twins.offset, twins.told⟩
  have ends := mirrors _ _ opened
  rcases ended : Run.go body (w.change (·.openRecord)) with ⟨raised | out, w'⟩
  · obtain ⟨told, right⟩ := ends.error ended
    refine .of_error (by simp only [Run.go_bind, go_change, Ended.andThen_ok, ended]; rfl) told
      fun fuel => ?_
    obtain ⟨raises, v', right⟩ := right fuel
    exact ⟨raises, v', by simp only [Run.go_bind, go_change, Ended.andThen_ok, right]; rfl⟩
  · obtain ⟨v', right, leads⟩ := ends.ok ended
    obtain ⟨w'', closes, closed, same⟩ :=
      Course.Follows.closes ⟨leads.twins.left, leads.left⟩ twins.left negative
    obtain ⟨v'', closes', closed', same'⟩ :=
      Course.Follows.closes ⟨leads.twins.right, leads.right⟩ twins.right negative
    have events : w''.events = w'.events := by
      rw [go_closeRecord] at closes
      split at closes <;> cases closes
      rfl
    have onward : Twins.Leads sides w v w'' v'' :=
      ⟨⟨closed.valid, closed'.valid, same'.trans (leads.twins.offset.trans same.symm),
        events ▸ leads.twins.told⟩, closed.depth, closed'.depth⟩
    unfold Run.MirrorsAt
    simp only [Run.go_bind, go_change, ended, right, Ended.andThen_ok, closes, closes']
    cases out with
    | none => exact ⟨v'', rfl, onward⟩
    | some _ =>
      exact ⟨_, rfl, onward.trans (onward.twins.goTo lower upper)⟩

/-- Expressions mirror themselves, if the calls of the rules that they refer to do. -/
theorem mirrors_parametric {scene : Scene} {program : Program} (pure : PureMeaning scene.meaning)
    (user : ∀ f s values raised, scene.meaning f s values = .error raised → sides.raises raised)
    (bounds : sides.raises .wrongType) {callRule callRule' : Int → Run Outcome} {rounds rounds' : Nat}
    (more : rounds ≤ rounds')
    (calls : ∀ name, scene.grammar.defines name = true → (callRule (scene.grammar.placeOf name)).Mirrors
      sides (callRule' (scene.grammar.placeOf name))) :
    Engine.Parametric scene.grammar.Runs (fun start => 0 ≤ start ∧ start ≤ sides.left.input.length) Eq
      (engine scene callRule rounds) (engine { scene with program } callRule' rounds')
      fun _ => Run.Mirrors sides where
  prune := rfl
  admits _ _ := .inl rfl
  matcher := rfl
  rounds := .inr ⟨more, fun _ => .out⟩
  pure _ := .pure
  throw throws := .throw fun fuel => by
    cases throws with
    | outOfFuel => exact absurd rfl fuel
    | wrongType => exact bounds
    | malformed allowed => exact absurd rfl (allowed.2 _)
  bind := .bind
  offset next := .from_offset fun start lower upper => next start ⟨lower, upper⟩
  goTo lies := goTo_mirrors lies.1 lies.2
  matched start := by
    refine .of_ok fun w v twins => ⟨_, w, v, rfl, ?_, .refl twins⟩
    simp only [engine, matched, Run.go_bind, go_state, Ended.andThen_ok, Run.go_pure, twins.input,
      twins.offset]
  expect entry _ same := same ▸ expect_mirrors _ entry
  matching := matching_mirrors
  boundOf := boundOf_mirrors bounds
  act code scope _ := act_mirrors pure user _ code scope
  predicate := predicate_mirrors pure user
  call allowed := calls _ allowed.1
  followedBy _ mirrors := lookahead_mirrors mirrors false
  notFollowedBy _ mirrors := lookahead_mirrors mirrors true
  named _ same := ⟨same.symm, rfl⟩
  silently _ mirrors := .bind (silence_mirrors (· + 1)) fun _ => .bind mirrors fun _ =>
    .bind (silence_mirrors (· - 1)) fun _ => .pure

end Tree

theorem World.noted_told {told : TraceEvent → Prop} {world : World} {program : Program}
    {event : TraceEvent} (all : ∀ event ∈ world.events, told event) (one : told event) :
    ∀ event' ∈ (world.noted program event).events, told event' := by
  intro event' member
  unfold World.noted at member
  split at member
  · rcases List.mem_cons.mp member with rfl | member
    · exact one
    · exact all event' member
  · exact all event' member

/-- Calls side by side, where the memo table has nothing yet. -/
theorem Tree.called_mirrors {sides : Sides} {program program' : Program} {place : Nat} {name : Text}
    {body body' : Run Outcome} (mirrors : body.Mirrors sides body') {w v : World}
    (twins : Twins sides w v)
    (anew : w.kept? program (Machine.memoKey program place w.state.offset) = none)
    (anew' : v.kept? program' (Machine.memoKey program' place v.state.offset) = none)
    (begins : sides.told (Machine.startEvent name w))
    (keeps : ∀ out w' v', Run.go body (w.noted program (Machine.startEvent name w)) = (.ok out, w') →
      Run.go body' (v.noted program' (Machine.startEvent name v)) = (.ok out, v') →
      Twins sides w' v' →
      sides.left.Valid (w'.remembering program (Machine.memoKey program place w.state.offset) out) ∧
      sides.right.Valid (v'.remembering program' (Machine.memoKey program' place v.state.offset) out) ∧
        sides.told (Machine.endEvent name w.state.offset out w')) :
    (called program place name body).MirrorsAt sides (called program' place name body') w v := by
  have left := go_called_of_new place name anew body
  have right := go_called_of_new place name anew' body'
  have begun : Twins sides (w.noted program (Machine.startEvent name w))
      (v.noted program' (Machine.startEvent name v)) :=
    ⟨⟨twins.left.state, twins.left.memo⟩, ⟨twins.right.state, twins.right.memo⟩, twins.offset,
      World.noted_told twins.told begins⟩
  have ends := mirrors _ _ begun
  rcases ended : Run.go body (w.noted program (Machine.startEvent name w)) with ⟨raised | out, w'⟩
  · obtain ⟨told, onward⟩ := ends.error ended
    rw [ended] at left
    refine .of_error left told fun fuel => ?_
    obtain ⟨raises, v', ended'⟩ := onward fuel
    rw [ended'] at right
    exact ⟨raises, v', right⟩
  · obtain ⟨v', ended', leads⟩ := ends.ok ended
    rw [ended] at left
    rw [ended'] at right
    obtain ⟨valid, valid', one⟩ := keeps out w' v' ended ended' leads.twins
    exact .of_ok left right ⟨⟨⟨valid.state, valid.memo⟩, ⟨valid'.state, valid'.memo⟩,
      leads.twins.offset, World.noted_told leads.twins.told one⟩, leads.left, leads.right⟩

theorem Grammar.exists_place {g : Grammar} {name : Text} (defined : g.defines name = true) :
    ∃ i, Index.place? g.rules.length (g.placeOf name) = some i := by
  obtain ⟨r, found⟩ := Option.isSome_iff_exists.mp defined
  obtain ⟨i, place, at?⟩ := placeOf_spec found
  exact ⟨i, place ▸ Index.place?_natCast (List.getElem?_eq_some_iff.mp at?).1⟩

namespace Scene

variable (scene : Scene) (input : Text) (source : Option Text) (raises : Raise → Prop)

/-- The scene where nothing is kept. -/
def uncached : Scene := { scene with program := { scene.program with cache := false } }

/-- A parse where anything may be kept, and where nothing is. -/
def free : Course := ⟨scene.uncached.program, input, source, fun _ _ _ _ => True⟩

/-- Nothing is kept on either side. -/
def anew : Sides :=
  ⟨scene.free input source, scene.free input source, rfl, rfl, fun _ => True, raises⟩

variable {scene} {input} {source} {raises} (prepared : scene.grammar.Prepared)
  (pure : PureMeaning scene.meaning)

include prepared pure in
/-- The expression of a rule mirrors itself if the rules that it refers to do. -/
theorem body_mirrors {sides : Sides} (program : Program)
    (user : ∀ f s values raised, scene.meaning f s values = .error raised → sides.raises raised)
    (bounds : sides.raises .wrongType) {r : Rule} (member : r ∈ scene.grammar.rules)
    {call call' : Int → Run Outcome} {rounds rounds' : Nat} (more : rounds ≤ rounds')
    (calls : ∀ (index : Int) (place : Nat),
      Index.place? scene.grammar.rules.length index = some place →
        (call index).Mirrors sides (call' index)) :
    (Tree.expr scene call rounds r.reports none [] r.body).Mirrors sides
      (Tree.expr { scene with program } call' rounds' r.reports none [] r.body) :=
  Tree.expr_related (Tree.mirrors_parametric pure user bounds more fun _ defined =>
    calls _ _ (Grammar.exists_place defined).choose_spec) (prepared.soundBody member).runs rfl none []

variable (user : ∀ f s values raised, scene.meaning f s values = .error raised → raises raised)
  (bounds : raises .wrongType)

include prepared pure user bounds in
/-- Where nothing is kept, neither what was noted before nor more fuel changes what a rule gives. All that
it raises is what user code raises, and that a bound is no number. -/
theorem rule_more {fuel fuel' : Nat} (more : fuel ≤ fuel') {index : Int} {place : Nat}
    (here : Index.place? scene.grammar.rules.length index = some place) :
    (Tree.rule scene.uncached fuel index).Mirrors (scene.anew input source raises)
      (Tree.rule scene.uncached fuel' index) := by
  induction fuel generalizing fuel' index place with
  | zero => exact .out
  | succ fuel ih =>
    obtain ⟨fuel', rfl⟩ := Nat.exists_eq_add_of_le' (Nat.le_trans (Nat.le_add_left 1 _) more)
    obtain ⟨r, at?⟩ := exists_rule here
    have left : Tree.rule scene.uncached (fuel + 1) index = _ := rule_at here at?
    have right : Tree.rule scene.uncached (fuel' + 1) index = _ := rule_at here at?
    have less : fuel ≤ fuel' := Nat.le_of_succ_le_succ more
    have body := @body_mirrors scene.uncached prepared pure (scene.anew input source raises)
      scene.uncached.program user bounds r (List.mem_of_getElem? at?) (Tree.rule scene.uncached fuel)
      (Tree.rule scene.uncached fuel') fuel fuel' less fun _ _ here => ih less here
    rw [left, right]
    intro w v twins
    refine Tree.called_mirrors body twins rfl rfl trivial fun out w' v' _ _ twins => ⟨?_, ?_, trivial⟩
    · exact ⟨twins.left.state, fun _ _ _ _ _ _ => trivial⟩
    · exact ⟨twins.right.state, fun _ _ _ _ _ _ => trivial⟩

end Scene

end PegCompiler
