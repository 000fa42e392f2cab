import Mathlib.Data.Finset.Lattice.Fold
import Mathlib.Data.Finset.Prod
import PegCompiler.Proofs.Run.Correctness
import PegCompiler.Proofs.Run.Mirror

/-!
Keeping what rules give changes no results. What the memo table holds for a rule and an offset is what
the rule gives there when nothing is kept, since that depends neither on what came before nor on how
much fuel there is (`Scene.rule_more`). So a run that keeps mirrors one that does not
(`Scene.rule_kept`), and the other way round with fuel enough for what is at hand in the former
(`Scene.rule_told`). Both give the same value, fail alike, raise the same error or go on for ever
(`Grammar.cached_like_plain`).
-/

namespace PegCompiler

/-- What an event says of a rule is so, where `gives` says which rule of which name gives what. -/
def TraceEvent.Tells (gives : Text → Int → Outcome → Int → Prop) (event : TraceEvent) : Prop :=
  match event.kind with
  | .matched => ∃ value, event.result = some value ∧ gives event.rule event.start (some value) event.stop
  | .failed => gives event.rule event.start none event.start
  | _ => True

theorem TraceEvent.Tells.mono {gives gives' : Text → Int → Outcome → Int → Prop}
    (imp : ∀ name start out stop, gives name start out stop → gives' name start out stop)
    {event : TraceEvent} (tells : event.Tells gives) : event.Tells gives' := by
  unfold Tells at tells ⊢
  cases kind : event.kind with
  | matched =>
    rw [kind] at tells
    obtain ⟨value, same, given⟩ := tells
    exact ⟨value, same, imp _ _ _ _ given⟩
  | failed =>
    rw [kind] at tells
    exact imp _ _ _ _ tells
  | _ => trivial

namespace Scene

variable (scene : Scene) (input : Text) (source : Option Text)

/-- What the rule at a place gives from an offset on, and where it ends, when nothing is kept. -/
def Gives (place : Nat) (start : Int) (out : Outcome) (stop : Int) : Prop :=
  0 ≤ start ∧ start ≤ input.length ∧ ∃ (fuel : Nat) (after : World),
    Run.go (Tree.rule scene.uncached fuel place) (.fresh input source start) = (.ok out, after) ∧
      after.state.offset = stop

/-- The same by the name of a rule. -/
def NameGives (name : Text) (start : Int) (out : Outcome) (stop : Int) : Prop :=
  ∃ place r, scene.grammar.rules[place]? = some r ∧ r.name = name ∧
    scene.Gives input source place start out stop

/-- A parse where the memo table holds what the rules give. -/
def caching : Course where
  program := scene.program
  input := input
  source := source
  kept place start out stop :=
    0 ≤ stop ∧ stop ≤ input.length ∧ scene.Gives input source place start out stop

variable {scene} {input} {source}

/-- On the right, the memo table holds what the rules give. -/
def keeping (scene : Scene) (input : Text) (source : Option Text) (raises : Raise → Prop) : Sides :=
  ⟨scene.free input source, scene.caching input source, rfl, rfl, fun _ => True, raises⟩

/-- On the left, the memo table holds what the rules give, and the events tell it. -/
def telling (scene : Scene) (input : Text) (source : Option Text) (raises : Raise → Prop) : Sides :=
  let other := scene.keeping input source raises
  ⟨other.right, other.left, other.input.symm, other.source.symm,
    TraceEvent.Tells (scene.NameGives input source), raises⟩

section Rules

variable (prepared : scene.grammar.Prepared) (pure : PureMeaning scene.meaning)

theorem rule_at_place {fuel : Nat} {index : Int} {place : Nat}
    (here : Index.place? scene.grammar.rules.length index = some place) :
    Tree.rule scene fuel place = Tree.rule scene fuel index := by
  obtain ⟨r, at?⟩ := exists_rule here
  have inside := (List.getElem?_eq_some_iff.mp at?).1
  cases fuel with
  | zero => rfl
  | succ fuel => rw [rule_at (Index.place?_natCast inside) at?, rule_at here at?]

variable {fuel : Nat} {index : Int} {place : Nat}
  (here : Index.place? scene.grammar.rules.length index = some place) {w after : World}
  (fits : (scene.free input source).Fits w.state)

include prepared pure here in
/-- The same for what is given; it does not matter what user code raises. -/
theorem rule_again {fuel' : Nat} (more : fuel ≤ fuel') :
    (Tree.rule scene.uncached fuel index).Mirrors (scene.anew input source fun _ => True)
      (Tree.rule scene.uncached fuel' index) :=
  rule_more prepared pure (fun _ _ _ _ _ => trivial) trivial more here

include fits in
theorem fresh_twins : Twins (scene.anew input source fun _ => True) w
    (.fresh input source w.state.offset) :=
  ⟨⟨fits, fun _ _ _ _ _ _ => trivial⟩, .fresh fits.lower (fits.input ▸ fits.upper), rfl,
    fun _ _ => trivial⟩

include prepared pure here fits in
/-- What a rule gives from some world on, it gives at this offset. -/
theorem gives_of_rule {out : Outcome}
    (ended : Run.go (Tree.rule scene.uncached fuel index) w = (.ok out, after)) :
    (scene.caching input source).kept place w.state.offset out after.state.offset ∧
      after.state.records.length = w.state.records.length ∧
        (scene.free input source).Valid after := by
  have twins := fresh_twins fits
  obtain ⟨later, ended', leads⟩ :=
    (rule_again prepared pure here (Nat.le_refl fuel) w _ twins).ok ended
  have left := leads.twins.left
  have same := @rule_at_place scene.uncached fuel index place here
  exact ⟨⟨left.state.lower, left.upper, fits.lower, twins.left.upper, fuel, later,
    by rw [same, ended'], leads.twins.offset⟩, leads.left, left⟩

include prepared pure here fits in
/-- What its body gives from there, the rule gives at this offset. -/
theorem gives_of_body {r : Rule} (at? : scene.grammar.rules[place]? = some r) {out : Outcome}
    (ended : Run.go (Tree.expr scene.uncached (Tree.rule scene.uncached fuel) fuel r.reports none []
      r.body) (w.noted scene.uncached.program (Machine.startEvent r.name w)) = (.ok out, after)) :
    (scene.caching input source).kept place w.state.offset out after.state.offset := by
  have whole : Run.go (Tree.rule scene.uncached (fuel + 1) index) w =
      (.ok out, Tree.newWorld scene.uncached.program place r.name w.state.offset out after) := by
    rw [@rule_at scene.uncached _ _ _ r here at?, Tree.go_called_of_new place r.name rfl, ended]
    rfl
  exact (gives_of_rule prepared pure here fits whole).1

include prepared pure here fits in
/-- With fuel enough, a rule gives what it gives at this offset. -/
theorem rule_of_gives {out : Outcome} {stop : Int}
    (gives : scene.Gives input source place w.state.offset out stop) {result : Except Raise Outcome}
    (ended : Run.go (Tree.rule scene.uncached fuel index) w = (result, after)) :
    result = .error .outOfFuel ∨ result = .ok out ∧ after.state.offset = stop := by
  obtain ⟨-, -, fuel', fresh, ended', rfl⟩ := gives
  have fits' : (scene.free input source).Fits (World.fresh input source w.state.offset).state :=
    (fresh_twins fits).right.state
  rw [@rule_at_place scene.uncached fuel' index place here] at ended'
  obtain ⟨later, most, leads⟩ := (rule_again prepared pure here (Nat.le_max_right fuel fuel') _ _
    (fresh_twins fits')).ok ended'
  have mirrors := rule_again prepared pure here (Nat.le_max_left fuel fuel') w _ (fresh_twins fits)
  cases result with
  | error raised =>
    by_cases out : raised = .outOfFuel
    · exact .inl (congrArg _ out)
    · obtain ⟨-, last, most'⟩ := (mirrors.error ended).2 out
      cases most.symm.trans most'
  | ok out' =>
    obtain ⟨last, most', leads'⟩ := mirrors.ok ended
    cases most.symm.trans most'
    exact .inr ⟨rfl, leads'.twins.offset.symm.trans leads.twins.offset⟩

/-- So much fuel is enough for every rule to give what it gives. -/
def Enough (scene : Scene) (input : Text) (source : Option Text) (most : Nat) : Prop :=
  ∀ (place : Nat) (start : Int) (out : Outcome) (stop : Int), place < scene.grammar.rules.length →
    scene.Gives input source place start out stop → ∃ after,
      Run.go (Tree.rule scene.uncached most place) (.fresh input source start) = (.ok out, after) ∧
        after.state.offset = stop

include prepared pure in
/-- There are as many places and offsets as there are, so some fuel is enough for all of them. -/
theorem exists_enough : ∃ most, scene.Enough input source most := by
  have each (place start : Nat) : ∃ fuel, ∀ out stop, place < scene.grammar.rules.length →
      scene.Gives input source place start out stop → ∃ after,
        Run.go (Tree.rule scene.uncached fuel place) (.fresh input source start) = (.ok out, after) ∧
          after.state.offset = stop := by
    by_cases some : ∃ out stop, scene.Gives input source place start out stop
    · obtain ⟨out, stop, lower, upper, fuel, after, ended, lands⟩ := some
      refine ⟨fuel, fun out' stop' inside gives => ⟨after, ?_⟩⟩
      have fits : (scene.free input source).Fits (World.fresh input source start).state :=
        (@Course.Valid.fresh (scene.free input source) start lower upper).state
      rcases rule_of_gives prepared pure (Index.place?_natCast inside) fits gives ended with
        out | ⟨same, lands'⟩
      · cases out
      · exact ⟨ended.trans (congrArg (·, after) same), lands'⟩
    · exact ⟨0, fun out stop _ gives => absurd ⟨out, stop, gives⟩ some⟩
  choose bound enough using each
  let pairs := Finset.range scene.grammar.rules.length ×ˢ Finset.range (input.length + 1)
  refine ⟨pairs.sup fun pair => bound pair.1 pair.2, fun place start out stop inside gives => ?_⟩
  obtain ⟨lower, upper, -⟩ := id gives
  obtain ⟨start, rfl⟩ := Int.eq_ofNat_of_zero_le lower
  obtain ⟨after, ended, lands⟩ := enough place start out stop inside gives
  have member : (place, start) ∈ pairs := by
    simp only [pairs, Finset.mem_product, Finset.mem_range]
    omega
  have more : bound place start ≤ pairs.sup fun pair => bound pair.1 pair.2 :=
    Finset.le_sup (f := fun pair : Nat × Nat => bound pair.1 pair.2) member
  have fits : (scene.free input source).Fits (World.fresh input source start).state :=
    (@Course.Valid.fresh (scene.free input source) start lower upper).state
  obtain ⟨later, ended', leads⟩ := (rule_again prepared pure (Index.place?_natCast inside) more _ _
    (fresh_twins fits)).ok ended
  exact ⟨later, ended', leads.twins.offset.trans lands⟩

variable (length : scene.program.rules.length = scene.grammar.rules.length)

include prepared length in
/-- A rule that fails ends where it began. -/
theorem Gives.back {start stop : Int} (gives : scene.Gives input source place start none stop)
    (inside : place < scene.grammar.rules.length) : stop = start := by
  obtain ⟨lower, upper, fuel, after, ended, rfl⟩ := gives
  have reaches := @rule_steps scene.uncached input source prepared length fuel place
    (.fresh input source start) (.fresh lower upper) none after ended
  exact ((reaches.moves place (Index.place?_natCast inside)).2.2 _ (List.getElem?_eq_getElem inside)).1

include prepared length in
/-- The event at the end of a call tells what the rule gives. -/
theorem Gives.tells {r : Rule} (at? : scene.grammar.rules[place]? = some r) {start : Int}
    {out : Outcome} (gives : scene.Gives input source place start out after.state.offset) :
    (Machine.endEvent r.name start out after).Tells (scene.NameGives input source) := by
  cases out with
  | some value => exact ⟨value, rfl, place, r, at?, rfl, gives⟩
  | none =>
    have back := gives.back prepared length (List.getElem?_eq_some_iff.mp at?).1
    exact ⟨place, r, at?, rfl, back ▸ gives⟩

variable {raises : Raise → Prop}
  (user : ∀ f s values raised, scene.meaning f s values = .error raised → raises raised)
  (bounds : raises .wrongType)

include prepared pure length user bounds in
/-- A run of a rule that keeps results mirrors one that does not. -/
theorem rule_kept (fuel : Nat) {index : Int} {place : Nat}
    (here : Index.place? scene.grammar.rules.length index = some place) :
    (Tree.rule scene.uncached fuel index).Mirrors (scene.keeping input source raises)
      (Tree.rule scene fuel index) := by
  induction fuel generalizing index place with
  | zero => exact .out
  | succ fuel ih =>
    obtain ⟨r, at?⟩ := exists_rule here
    have inside := (List.getElem?_eq_some_iff.mp at?).1
    have left : Tree.rule scene.uncached (fuel + 1) index = Tree.called scene.uncached.program place
        r.name _ := rule_at here at?
    have right : Tree.rule scene (fuel + 1) index = Tree.called scene.program place r.name _ :=
      rule_at here at?
    have body := @body_mirrors scene.uncached prepared pure (scene.keeping input source raises)
      scene.program user bounds r (List.mem_of_getElem? at?) (Tree.rule scene.uncached fuel)
      (Tree.rule scene fuel) fuel fuel (Nat.le_refl fuel) fun _ _ here => ih here
    intro w v twins
    have fits : (scene.free input source).Fits w.state := twins.left.state
    cases kept : v.kept? scene.program (Machine.memoKey scene.program place v.state.offset) with
    | none =>
      rw [left, right]
      refine Tree.called_mirrors body twins rfl kept trivial fun out w' v' ended _ after =>
        ⟨⟨after.left.state, fun _ _ _ _ _ _ => trivial⟩, ?_, trivial⟩
      have keeps : (scene.caching input source).kept place v.state.offset out v'.state.offset := by
        rw [twins.offset, after.offset]
        exact gives_of_body prepared pure here fits at? ended
      exact after.right.remembering (length ▸ inside) keeps
    | some entry =>
      obtain ⟨stop, out⟩ := entry
      have keeps : (scene.caching input source).kept place v.state.offset out stop :=
        twins.right.keeps (length ▸ inside) kept
      have ends := Tree.go_called_of_kept place r.name kept
        (Tree.expr scene (Tree.rule scene fuel) fuel r.reports none [] r.body)
      have gives : scene.Gives input source place w.state.offset out stop := twins.offset ▸ keeps.2.2
      rw [right]
      rcases ended : Run.go (Tree.rule scene.uncached (fuel + 1) index) w with ⟨result, w'⟩
      rcases rule_of_gives prepared pure here fits gives ended with rfl | ⟨rfl, rfl⟩
      · exact .of_error ended (fun _ _ => trivial) fun fuel => absurd rfl fuel
      · obtain ⟨-, depth, valid⟩ := gives_of_rule prepared pure here fits ended
        have moved := (twins.right.goTo keeps.1 keeps.2.1).valid
        exact .of_ok ended ends
          ⟨⟨valid, ⟨moved.state, moved.memo⟩, rfl, fun _ _ => trivial⟩, depth, rfl⟩

include prepared pure length user bounds in
/-- A run of a rule that does not keep results, and has fuel enough for those that are at hand in one
that does, mirrors the latter; whose events tell what the rules give. -/
theorem rule_told {most : Nat} (enough : scene.Enough input source most) (fuel : Nat) {index : Int}
    {place : Nat} (here : Index.place? scene.grammar.rules.length index = some place) :
    (Tree.rule scene fuel index).Mirrors (scene.telling input source raises)
      (Tree.rule scene.uncached (fuel + most) index) := by
  induction fuel generalizing index place with
  | zero => exact .out
  | succ fuel ih =>
    obtain ⟨r, at?⟩ := exists_rule here
    have inside := (List.getElem?_eq_some_iff.mp at?).1
    rw [show fuel + 1 + most = fuel + most + 1 by omega]
    have left : Tree.rule scene (fuel + 1) index = Tree.called scene.program place r.name _ :=
      rule_at here at?
    have right : Tree.rule scene.uncached (fuel + most + 1) index =
        Tree.called scene.uncached.program place r.name _ := rule_at here at?
    have body : (Tree.expr scene (Tree.rule scene fuel) fuel r.reports none [] r.body).Mirrors
        (scene.telling input source raises) (Tree.expr scene.uncached
          (Tree.rule scene.uncached (fuel + most)) (fuel + most) r.reports none [] r.body) :=
      body_mirrors prepared pure scene.uncached.program user bounds (List.mem_of_getElem? at?)
        (Nat.le_add_right fuel most) fun _ _ here => ih here
    intro w v twins
    have fits : (scene.free input source).Fits v.state := twins.right.state
    cases kept : w.kept? scene.program (Machine.memoKey scene.program place w.state.offset) with
    | none =>
      rw [left, right]
      refine Tree.called_mirrors body twins kept rfl trivial fun out w' v' _ ended after => ?_
      have keeps : (scene.caching input source).kept place w.state.offset out w'.state.offset := by
        rw [← twins.offset, ← after.offset]
        exact gives_of_body prepared pure here fits at? ended
      exact ⟨after.left.remembering (length ▸ inside) keeps,
        ⟨after.right.state, fun _ _ _ _ _ _ => trivial⟩, keeps.2.2.tells prepared length at?⟩
    | some entry =>
      obtain ⟨stop, out⟩ := entry
      have keeps : (scene.caching input source).kept place w.state.offset out stop :=
        twins.left.keeps (length ▸ inside) kept
      have gives : scene.Gives input source place v.state.offset out stop := twins.offset ▸ keeps.2.2
      have ends := Tree.go_called_of_kept place r.name kept
        (Tree.expr scene (Tree.rule scene fuel) fuel r.reports none [] r.body)
      -- with so much fuel, the rule gives the same anew
      obtain ⟨after, ended, lands⟩ := enough place v.state.offset out stop inside gives
      rw [@rule_at_place scene.uncached most index place here] at ended
      have begins := fresh_twins fits
      obtain ⟨v', ended', leads⟩ := (rule_again prepared pure here
        (show most ≤ fuel + most + 1 by omega) _ v ⟨begins.right, begins.left, rfl, fun _ _ => trivial⟩).ok
          ended
      rw [left]
      have moved := (twins.left.goTo keeps.1 keeps.2.1).valid
      refine .of_ok ends ended' ⟨⟨⟨moved.state, moved.memo⟩, leads.twins.right,
        leads.twins.offset.trans lands, ?_⟩, rfl, leads.right⟩
      exact World.noted_told (World.noted_told twins.told trivial) (keeps.2.2.tells prepared length at?)

end Rules

/-- Whether results are kept makes no difference for what the program consists of. -/
theorem Compiled.uncached {tables : Tables} (compiled : scene.Compiled tables) :
    scene.uncached.Compiled tables :=
  ⟨⟨compiled.implements.literals, compiled.implements.matchers, compiled.implements.functions,
    compiled.implements.entries⟩, compiled.length, compiled.rule⟩

end Scene

namespace Program

variable (program : Program) (fuel place : Nat) (input : Text) (source : Option Text)

/-- The result of a parse that starts with the rule at a place. -/
def result : Except Raise Value :=
  match program.runFrom fuel place { input, source } with
  | (.error raised, _) => .error raised
  | (.ok out, after) => (after.state.finish out).1

/-- What rules of a name give from an offset on, and where they end. -/
def Gives (name : Text) (start : Int) (out : Outcome) (stop : Int) : Prop :=
  ∃ place code fuel after, program.rules[place]? = some (name, code) ∧
    program.runFrom fuel place { input, source, offset := start } = (.ok out, after) ∧
      after.state.offset = stop

/-- The rule fails, or it leaves something of the input over. -/
def NoMatch : Prop :=
  ∃ out after, program.runFrom fuel place { input, source } = (.ok out, after) ∧
    (out = none ∨ after.state.offset ≠ input.length)

/-- Two parses end in the same way: with the same value, without a match, or with the same error raised
in the course of the parse. -/
inductive EndLike (raises : Raise → Prop) (program program' : Program) (fuel place : Nat)
    (input : Text) (source : Option Text) : Prop
  | value (value : Value) : program.result fuel place input source = .ok value →
    program'.result fuel place input source = .ok value →
    EndLike raises program program' fuel place input source
  | noMatch : program.NoMatch fuel place input source → program'.NoMatch fuel place input source →
    EndLike raises program program' fuel place input source
  | raised (raised : Raise) (after after' : World) : raises raised →
    program.runFrom fuel place { input, source } = (.error raised, after) →
    program'.runFrom fuel place { input, source } = (.error raised, after') →
    EndLike raises program program' fuel place input source

/-- Two parses give the same and end at the same offset. -/
theorem EndLike.of_ok {raises : Raise → Prop} {program program' : Program} {fuel place : Nat}
    {input : Text} {source : Option Text} {out : Outcome} {w v : World}
    (runs : program.runFrom fuel place { input, source } = (.ok out, w))
    (runs' : program'.runFrom fuel place { input, source } = (.ok out, v))
    (length : w.state.input = input) (length' : v.state.input = input)
    (offset : v.state.offset = w.state.offset) :
    EndLike raises program program' fuel place input source := by
  by_cases whole : w.state.offset = input.length
  · have whole' : v.state.offset = input.length := offset.trans whole
    cases out with
    | none => exact .noMatch ⟨_, w, runs, .inl rfl⟩ ⟨_, v, runs', .inl rfl⟩
    | some value =>
      refine .value value ?_ ?_
      · simp only [result, runs, ParserState.finish, length, whole, if_true]
      · simp only [result, runs', ParserState.finish, length', whole', if_true]
  · exact .noMatch ⟨_, w, runs, .inr whole⟩ ⟨_, v, runs', .inr (offset ▸ whole)⟩

end Program

namespace Scene

variable {scene : Scene} {tables : Tables} {input : Text} {source : Option Text}
  (prepared : scene.grammar.Prepared) (compiled : scene.Compiled tables) (faithful : scene.Faithful)
  (pure : PureMeaning scene.meaning)

theorem Faithful.uncached (faithful : scene.Faithful) : scene.uncached.Faithful :=
  ⟨faithful.prune, faithful.admits⟩

include prepared compiled faithful in
/-- What the rules give, they give on the machine. -/
theorem program_gives {name : Text} {start stop : Int} {out : Outcome}
    (gives : scene.NameGives input source name start out stop) :
    scene.uncached.program.Gives input source name start out stop := by
  obtain ⟨place, r, at?, rfl, lower, upper, fuel, after, ended, rfl⟩ := gives
  obtain ⟨code, found, -⟩ := compiled.rule place r at?
  refine ⟨place, code, fuel, after, found, ?_, rfl⟩
  have valid : (scene.uncached.course input source).Valid (.fresh input source start) :=
    .fresh lower upper
  exact (@Compiled.rule_runs scene.uncached tables _ _ prepared compiled.uncached faithful.uncached fuel
    place _ valid).trans ended

section Starts

theorem start_valid (c : Course) : c.Valid (.fresh c.input c.source 0) :=
  .fresh (Int.le_refl 0) (Int.natCast_nonneg _)

theorem start_twins (sides : Sides) : Twins sides (.fresh sides.left.input sides.left.source 0)
    (.fresh sides.left.input sides.left.source 0) := by
  refine ⟨start_valid sides.left, ?_, rfl, by simp [World.fresh]⟩
  rw [← sides.input, ← sides.source]
  exact start_valid sides.right

include prepared compiled faithful in
theorem runFrom_eq (fuel place : Nat) : scene.program.runFrom fuel place { input, source } =
    Run.go (Tree.rule scene fuel place) (.fresh input source 0) :=
  compiled.rule_runs prepared faithful fuel place _ (start_valid (scene.course input source))

include prepared compiled faithful in
theorem runFrom_uncached_eq (fuel place : Nat) :
    scene.uncached.program.runFrom fuel place { input, source } =
      Run.go (Tree.rule scene.uncached fuel place) (.fresh input source 0) :=
  @runFrom_eq scene.uncached tables input source prepared compiled.uncached faithful.uncached fuel place

variable {fuel fuel' place : Nat} (inside : place < scene.grammar.rules.length) {raises : Raise → Prop}
  (user : ∀ f s values raised, scene.meaning f s values = .error raised → raises raised)
  (bounds : raises .wrongType)

include prepared compiled faithful pure inside in
/-- A parse that keeps nothing and ends does so with more fuel as well. -/
theorem ends_more (more : fuel ≤ fuel')
    (ends : (scene.uncached.program.runFrom fuel place { input, source }).1 ≠ .error .outOfFuel) :
    (scene.uncached.program.runFrom fuel' place { input, source }).1 ≠ .error .outOfFuel := by
  rw [runFrom_uncached_eq prepared compiled faithful] at ends ⊢
  have further : (Tree.rule scene.uncached fuel place).MirrorsAt (scene.anew input source fun _ => True)
      (Tree.rule scene.uncached fuel' place) (.fresh input source 0) (.fresh input source 0) :=
    rule_again prepared pure (Index.place?_natCast inside) more _ _ (start_twins _)
  exact further.ends ends

include prepared compiled faithful pure inside user bounds in
/-- What a parse that keeps nothing ends in, one that keeps results ends in as well. -/
theorem ends_like
    (ends : (scene.uncached.program.runFrom fuel place { input, source }).1 ≠ .error .outOfFuel) :
    Program.EndLike raises scene.uncached.program scene.program fuel place input source := by
  have kept : (Tree.rule scene.uncached fuel place).MirrorsAt (scene.keeping input source raises)
      (Tree.rule scene fuel place) (.fresh input source 0) (.fresh input source 0) :=
    rule_kept prepared pure compiled.length user bounds fuel (Index.place?_natCast inside) _ _
      (start_twins _)
  have plain := @runFrom_uncached_eq scene tables input source prepared compiled faithful fuel place
  have cached := @runFrom_eq scene tables input source prepared compiled faithful fuel place
  rw [plain] at ends
  rcases ended : Run.go (Tree.rule scene.uncached fuel place) (.fresh input source 0) with
    ⟨raised | out, w⟩
  · rw [ended] at ends
    obtain ⟨allowed, v, ended'⟩ := (kept.error ended).2 fun same => ends (congrArg _ same)
    exact .raised raised w v allowed (plain.trans ended) (cached.trans ended')
  · obtain ⟨v, ended', leads⟩ := kept.ok ended
    exact .of_ok (plain.trans ended) (cached.trans ended') leads.twins.left.state.input
      leads.twins.right.state.input leads.twins.offset

include prepared compiled pure inside in
/-- A parse that keeps results, beside one with fuel enough that keeps nothing. -/
theorem exists_told : ∃ most,
    (Tree.rule scene fuel place).MirrorsAt (scene.telling input source fun _ => True)
      (Tree.rule scene.uncached (fuel + most) place) (.fresh input source 0) (.fresh input source 0) := by
  obtain ⟨most, enough⟩ := @exists_enough scene input source prepared pure
  exact ⟨most, rule_told prepared pure compiled.length (fun _ _ _ _ _ => trivial) trivial enough fuel
    (Index.place?_natCast inside) _ _ (start_twins _)⟩

include prepared compiled faithful pure inside in
/-- Where a parse that keeps results ends, one that keeps nothing ends with fuel enough. -/
theorem ends_uncached
    (ends : (scene.program.runFrom fuel place { input, source }).1 ≠ .error .outOfFuel) :
    ∃ enough, (scene.uncached.program.runFrom enough place { input, source }).1 ≠ .error .outOfFuel := by
  obtain ⟨most, told⟩ := @exists_told scene tables input source prepared compiled pure fuel place inside
  refine ⟨fuel + most, ?_⟩
  rw [runFrom_eq prepared compiled faithful] at ends
  rw [runFrom_uncached_eq prepared compiled faithful]
  exact told.ends ends

include prepared compiled faithful pure inside in
/-- The events of a parse that keeps results tell what the rules give when nothing is kept. -/
theorem events_tell : ∀ event ∈ (scene.program.runFrom fuel place { input, source }).2.events,
    event.Tells (scene.uncached.program.Gives input source) := by
  obtain ⟨most, told⟩ := @exists_told scene tables input source prepared compiled pure fuel place inside
  rw [runFrom_eq prepared compiled faithful]
  intro event member
  have tells : event.Tells (scene.NameGives input source) := told.told event member
  exact tells.mono fun _ _ _ _ => program_gives prepared compiled faithful

end Starts

end Scene

namespace Grammar

variable {g : Grammar} {settings : Settings}

/-- The switch only shows in the program. -/
theorem bytecode?_cache {semantics : Semantics} {cache : Bool} {program : Program}
    (reads : g.bytecode? semantics = some program) :
    g.bytecode? { semantics with cache } = some { program with cache } := by
  simp only [bytecode?, Option.bind_eq_bind, Option.bind_eq_some_iff, Option.pure_def,
    Option.some.injEq] at reads ⊢
  obtain ⟨tables, known, rules, decoded, entries, listed, rfl⟩ := reads
  exact ⟨tables, known, rules, decoded, entries, listed, rfl⟩

/-- With pure user code, it makes no difference for how a parse ends whether results are kept; either
both parses end or both go on for ever. Whatever the rules give in the course of a parse that keeps them,
by its events, they give when nothing is kept. No two pairs of an offset and a rule share a place in the
memo table. -/
theorem cached_like_plain {text : Text} {source? : Option Text} (read : Grammar.read text source? = .ok g)
    (checked : (Stage.check.run settings g).failure = none) (semantics : Semantics)
    (pure : PureMeaning semantics.meaning)
    (user : ∀ f state values, semantics.meaning f state values ≠ .error .outOfFuel) {place : Nat}
    (inside : place < (g.prepare settings).rules.length) (input : Text) (source : Option Text) :
    ∃ plain cached, (g.compiled settings).bytecode? { semantics with cache := false } = some plain ∧
      (g.compiled settings).bytecode? { semantics with cache := true } = some cached ∧
      ((∃ enough : Nat, ∀ fuel ≥ enough,
          Program.EndLike (fun raised => raised ≠ .outOfFuel ∧ (raised = .wrongType ∨
              ∃ f state values, semantics.meaning f state values = .error raised))
            plain cached fuel place input source) ∨
        ∀ fuel, (plain.runFrom fuel place { input, source }).1 = .error .outOfFuel ∧
          (cached.runFrom fuel place { input, source }).1 = .error .outOfFuel) ∧
      (∀ fuel, ∀ event ∈ (cached.runFrom fuel place { input, source }).2.events,
        event.Tells (plain.Gives input source)) ∧
      ∀ (p q : Nat) (s t : Int), p < cached.rules.length → q < cached.rules.length →
        Machine.memoKey cached p s = Machine.memoKey cached q t → p = q ∧ s = t := by
  obtain ⟨scene, tables, reads, cache, grammar, meaning, -, faithful, prepared, compiled⟩ :=
    compiled_scene read checked { semantics with cache := true }
  rw [← grammar] at inside
  have meaning : scene.meaning = semantics.meaning := meaning
  have plain : (g.compiled settings).bytecode? { semantics with cache := false } =
      some scene.uncached.program :=
    @bytecode?_cache (g.compiled settings) { semantics with cache := true } false scene.program reads
  rw [← meaning] at pure user
  refine ⟨scene.uncached.program, scene.program, plain, reads, ?_,
    fun fuel => Scene.events_tell prepared compiled faithful pure inside,
    fun p q s t hp hq same => Machine.memoKey_inj hp hq same⟩
  rw [← meaning]
  by_cases ends : ∃ enough,
      (scene.uncached.program.runFrom enough place { input, source }).1 ≠ .error .outOfFuel
  · obtain ⟨enough, ends⟩ := ends
    exact .inl ⟨enough, fun fuel more => Scene.ends_like prepared compiled faithful pure inside
      (fun f s values raised failed =>
        ⟨fun same => user f s values (same ▸ failed), .inr ⟨f, s, values, failed⟩⟩)
      ⟨nofun, .inl rfl⟩ (Scene.ends_more prepared compiled faithful pure inside more ends)⟩
  · refine .inr fun fuel => ⟨not_not.mp fun ended => ends ⟨fuel, ended⟩, not_not.mp fun ended => ends ?_⟩
    exact Scene.ends_uncached prepared compiled faithful pure inside ended

/-- The first rule ends in a sample. -/
def endsPlain (input : Text) (g : Grammar) : Bool :=
  match (g.compiled plainSettings).bytecode? { countingSemantics with cache := false } with
  | some program =>
    decide (0 < (g.prepare plainSettings).rules.length) &&
      match (program.runFrom 9 0 { input }).1 with
      | .ok _ => true
      | .error _ => false
  | none => false

/-- A rule that two alternatives begin with: the second time, what it gives is at hand. -/
theorem alternatives_cached_like_plain : ∃ g plain cached,
    Grammar.read (.ofString "s = a 'b' / a 'c'\na = 'x'") none = .ok g ∧
    (Stage.check.run plainSettings g).failure = none ∧
    (g.compiled plainSettings).bytecode? { countingSemantics with cache := false } = some plain ∧
    (g.compiled plainSettings).bytecode? { countingSemantics with cache := true } = some cached ∧
    ∃ enough : Nat, ∀ fuel ≥ enough,
      Program.EndLike (· = .wrongType) plain cached fuel 0 (.ofString "xc") none := by
  obtain ⟨g, read, checked, passes⟩ := exists_of_accepted
    (show (accepted? plainSettings (.ofString "s = a 'b' / a 'c'\na = 'x'")).any
      (endsPlain (.ofString "xc")) = true by decide +kernel)
  unfold endsPlain at passes
  split at passes
  · rename_i program runs
    obtain ⟨inside, ends⟩ := Bool.and_eq_true_iff.mp passes
    obtain ⟨plain, cached, reads, reads', both, -⟩ := cached_like_plain read checked
      countingSemantics (fun _ _ _ _ _ _ _ _ => rfl) nofun (of_decide_eq_true inside) (.ofString "xc") none
    obtain rfl := Option.some.inj (runs.symm.trans reads)
    refine ⟨g, program, cached, read, checked, reads, reads', ?_⟩
    rcases both with ⟨enough, same⟩ | endless
    · refine ⟨enough, fun fuel more => ?_⟩
      cases same fuel more with
      | value value first second => exact .value value first second
      | noMatch first second => exact .noMatch first second
      | raised raised after after' which first second =>
        refine .raised raised after after' ?_ first second
        rcases which with ⟨-, wrong | ⟨f, state, values, failed⟩⟩
        · exact wrong
        · cases failed
    · rw [(endless 9).1] at ends
      cases ends
  · cases passes

end Grammar

end PegCompiler
