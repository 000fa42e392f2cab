import PegCompiler.Proofs.Run.Mirror

/-!
Rules run as they are evaluated. Evaluation is compared with two runs of a rule: an exact one, with
nothing left out and nothing kept, shows where evaluation gets (`Scene.peg_moves`) and what it ends in
(`Scene.peg_ends`). With that, the run that leaves out what never matches and keeps what it has found
agrees with evaluation as well (`Scene.rule_agrees`).
-/

namespace PegCompiler

namespace Course

variable {c : Course} {scene : Scene} {exact : Prop} {evaluate : Text → Int → Peg.Result}
  {call : Int → Run Outcome} {rounds : Nat}

/-- The agreement of expressions, for the body of a rule. -/
theorem body_agrees (pure : PureMeaning scene.meaning) (exactly : exact → scene.prune = false)
    (calls : ∀ name, scene.grammar.defines name = true → ∀ w, c.Valid w →
      Agrees c exact (evaluate name w.state.offset) (call (scene.grammar.placeOf name))
        (Lands w.state.offset) w)
    (never : scene.prune = true → (scene.peg c.input c.source).Fails evaluate rounds)
    {e : Expr} (body : scene.grammar.SoundBody e) :
    c.ExprAgrees exact scene evaluate call rounds e := by
  cases body with
  | plain sound => exact expr_agrees pure exactly calls never e sound
  | @displayed info name e _ sound =>
    intro reports scope w valid
    have inner := expr_agrees pure exactly calls never e sound false scope
    rw [Peg.expr, Tree.expr]
    cases reports with
    | false => exact inner w valid
    | true =>
      obtain ⟨v, ended, follows, offset⟩ := valid.expects true (.rule name)
      have silent := follows.valid.silence (v.state.silence + 1)
      rw [if_pos rfl, ← bind_pure (Peg.expr ..), ← offset]
      refine .after ended follows (.after rfl silent ?_)
      refine (inner _ silent.valid).bind fun matched out u further lands => ?_
      have spoken := further.valid.silence (u.state.silence - 1)
      exact .after rfl spoken (.pure spoken.valid lands)

end Course

/-- Where a run begins at an offset of an input. -/
def World.fresh (input : Text) (source : Option Text) (start : Int) : World :=
  { state := { input, source, offset := start } }

theorem Course.Valid.fresh {c : Course} {start : Int} (lower : 0 ≤ start)
    (upper : start ≤ c.input.length) : c.Valid (.fresh c.input c.source start) := by
  refine ⟨⟨⟨lower, upper⟩, rfl, rfl, by simp [World.fresh]⟩, fun place start entry _ _ found => ?_⟩
  simp [World.fresh] at found

namespace Scene

variable {scene : Scene} {input : Text} {source : Option Text}

/-- What the memo table may hold beside evaluation: what is evaluated there. -/
def evaluation (scene : Scene) (input : Text) (source : Option Text) : Course where
  program := scene.program
  input := input
  source := source
  kept place start out stop := 0 ≤ stop ∧ stop ≤ input.length ∧
    ∀ r, scene.grammar.rules[place]? = some r → ∀ (fuel : Nat) (matched : Option (Value × Int)),
      (scene.peg input source).rule fuel r.name start = .ok matched →
        out = matched.map Prod.fst ∧ stop = (matched.map Prod.snd).getD start

section Rules

variable (prepared : scene.grammar.Prepared)
  (length : scene.program.rules.length = scene.grammar.rules.length)
  (pure : PureMeaning scene.meaning)

include prepared length pure in
/-- Every run of a rule agrees with its evaluation. -/
theorem rule_agrees {exact : Prop} (exactly : exact → scene.prune = false)
    (anew : exact → scene.program.cache = false)
    (never : scene.prune = true →
      ∀ fuel, (scene.peg input source).Fails ((scene.peg input source).rule fuel) fuel)
    (fuel : Nat) (name : Text) (defined : scene.grammar.defines name = true) (w : World)
    (valid : (scene.evaluation input source).Valid w) :
    Agrees (scene.evaluation input source) exact ((scene.peg input source).rule fuel name w.state.offset)
      (Tree.rule scene fuel (scene.grammar.placeOf name)) (Lands w.state.offset) w := by
  induction fuel generalizing name w with
  | zero => exact .throw
  | succ fuel ih =>
    obtain ⟨r, found⟩ := Option.isSome_iff_exists.mp defined
    obtain ⟨i, place, at?⟩ := Grammar.placeOf_spec found
    obtain rfl : r.name = name := Grammar.find?_name found
    have bound := (List.getElem?_eq_some_iff.mp at?).1
    have inside : i < scene.program.rules.length := length ▸ bound
    rw [rule_at (place ▸ Index.place?_natCast bound) at?]
    cases kept : w.kept? scene.program (Machine.memoKey scene.program i w.state.offset) with
    | some entry =>
      obtain ⟨stop, out⟩ := entry
      obtain ⟨events, ends⟩ := Tree.go_called_kept i r.name kept
      obtain ⟨cache, found⟩ : scene.program.cache = true ∧
          w.memo[Machine.memoKey scene.program i w.state.offset]? = some (stop, out) := by
        simpa [World.kept?] using kept
      obtain ⟨lower, upper, evaluates⟩ := valid.memo i _ _ inside valid.state.lower found
      cases evaluated : (scene.peg input source).rule (fuel + 1) r.name w.state.offset with
      | error raised =>
        intro isExact
        rw [anew isExact] at cache
        cases cache
      | ok matched =>
        exact ⟨_, _, ends _, (valid.goTo lower upper).noted events, evaluates r at? _ _ evaluated⟩
    | none =>
      obtain ⟨before, behind, ends⟩ := Tree.go_called_anew i r.name kept
      have evaluates : (scene.peg input source).rule (fuel + 1) r.name w.state.offset =
          (scene.peg input source).expr ((scene.peg input source).rule fuel) fuel [] r.body
            w.state.offset := by
        simp only [Peg.rule, show (scene.peg input source).grammar.find? r.name = some r from found]
      have body : Agrees (scene.evaluation input source) exact
          ((scene.peg input source).expr ((scene.peg input source).rule fuel) fuel [] r.body
            w.state.offset) _ (Lands w.state.offset) { w with events := before } :=
        Course.body_agrees pure exactly ih (fun prunes => never prunes fuel)
          (prepared.soundBody (List.mem_of_getElem? at?)) r.reports [] _
          ((Course.Follows.refl valid).noted before).valid
      -- notes and the memo table change neither the value nor the place
      rw [← evaluates] at body
      cases evaluated : (scene.peg input source).rule (fuel + 1) r.name w.state.offset with
      | error raised =>
        rw [evaluated] at body
        intro isExact
        obtain ⟨after, ended⟩ := body isExact
        exact ⟨after, by rw [ends, ended]; rfl⟩
      | ok matched =>
        rw [evaluated] at body
        obtain ⟨out, after, ended, follows, lands⟩ := body
        have keeps : (scene.evaluation input source).kept i w.state.offset out after.state.offset := by
          refine ⟨follows.valid.state.lower, follows.valid.upper, fun q same other result ok => ?_⟩
          obtain rfl := Option.some.inj (at?.symm.trans same)
          obtain rfl := Peg.rule_of_ok evaluated ok
          exact lands
        have remembers := follows.valid.remembering inside keeps
        refine ⟨out, _, (ends _).trans (congrArg (Ended.andThen · _) ended), ?_, lands⟩
        exact ⟨⟨remembers.state, remembers.memo⟩, follows.depth⟩

/-- A run of the scene with nothing left out and nothing kept. -/
def plain (scene : Scene) : Scene :=
  { scene with program := { scene.program with cache := false }, prune := false }

include prepared length pure in
/-- An exact run of an expression agrees with its evaluation. -/
theorem exact_agrees {e : Expr} (body : scene.grammar.SoundBody e) (fuel : Nat) (scope : Scope)
    {w : World} (valid : (scene.plain.evaluation input source).Valid w) :
    Agrees (scene.plain.evaluation input source) True ((scene.peg input source).expr
        ((scene.peg input source).rule fuel) fuel scope e w.state.offset)
      (Tree.expr scene.plain (Tree.rule scene.plain fuel) fuel false none scope e)
      (Lands w.state.offset) w :=
  @Course.body_agrees (scene.plain.evaluation input source) scene.plain True _ _ fuel pure
    (fun _ => rfl)
    (@rule_agrees scene.plain input source prepared length pure True (fun _ => rfl) (fun _ => rfl)
      (fun prunes => by cases prunes) fuel)
    (fun prunes => by cases prunes) e body false scope w valid

include prepared length pure in
/-- Evaluation of an expression gets where the expression may get. -/
theorem peg_moves {e : Expr} (body : scene.grammar.SoundBody e) {fuel : Nat} {scope : Scope}
    {start : Int} (lower : 0 ≤ start) (upper : start ≤ input.length)
    {matched : Option (Value × Int)} (evaluated : (scene.peg input source).expr
      ((scene.peg input source).rule fuel) fuel scope e start = .ok matched) :
    scene.grammar.Moves e start (matched.map Prod.fst) ((matched.map Prod.snd).getD start) := by
  have agrees := exact_agrees prepared length pure body fuel scope
    (@Course.Valid.fresh (scene.plain.evaluation input source) start lower upper)
  rw [show (World.fresh _ _ start).state.offset = start from rfl, evaluated] at agrees
  obtain ⟨_, after, ended, -, rfl, place⟩ := agrees
  have moves := (Course.body_steps (@calls_steps scene.plain input source prepared length fuel)
    prepared.judged body false none scope _
    (@Course.Valid.fresh (scene.plain.course input source) start lower upper) _ after ended).moves
  rwa [place] at moves

include prepared length pure in
/-- Nothing matches in evaluation that is marked as never matching. -/
theorem peg_fails (fuel : Nat) :
    (scene.peg input source).Fails ((scene.peg input source).rule fuel) fuel := by
  intro e scope start matched sound never lower upper evaluated
  have moves := peg_moves prepared length pure (.plain sound) lower upper evaluated
  cases matched with
  | none => rfl
  | some matched => exact absurd never moves.2.2

section Ends

variable {allowed : Raise → Prop}
  (user : ∀ f s values raised, scene.meaning f s values = .error raised → allowed raised)
  (bounds : allowed .wrongType) (bounded : scene.Bounded)

include prepared length pure user bounds in
/-- Evaluation of an expression raises nothing but what is allowed, if it has enough fuel. -/
theorem expr_raises {e : Expr} (body : scene.grammar.SoundBody e) {fuel : Nat} {scope : Scope}
    {start : Int} (lower : 0 ≤ start) (upper : start ≤ input.length) {raised : Raise}
    (failed : (scene.peg input source).expr ((scene.peg input source).rule fuel) fuel scope e start =
      .error raised) : raised = .outOfFuel ∨ allowed raised := by
  -- the exact run raises the same, and mirrors itself
  have agrees := exact_agrees prepared length pure body fuel scope
    (@Course.Valid.fresh (scene.plain.evaluation input source) start lower upper)
  rw [show (World.fresh _ _ start).state.offset = start from rfl, failed] at agrees
  obtain ⟨after, ended⟩ := agrees trivial
  have mirrors : (Tree.expr scene.plain (Tree.rule scene.plain fuel) fuel false none scope e).Mirrors
      (scene.plain.anew input source allowed) _ :=
    Tree.expr_related (@Tree.mirrors_parametric (scene.plain.anew input source allowed) scene.plain
      scene.plain.program pure user bounds (Tree.rule scene.plain fuel) (Tree.rule scene.plain fuel)
      fuel fuel (Nat.le_refl fuel) fun name defined => @rule_more { scene with prune := false } input
        source allowed prepared pure user bounds fuel fuel (Nat.le_refl fuel) _ _
        (Grammar.exists_place defined).choose_spec)
      body.runs rfl none scope
  have fresh : (scene.plain.free input source).Valid (.fresh input source start) := .fresh lower upper
  by_cases out : raised = .outOfFuel
  · exact .inl out
  · exact .inr (((mirrors _ _ ⟨fresh, fresh, rfl, fun _ _ => trivial⟩).error ended).2 out).1

include prepared length pure user bounds bounded in
/-- Evaluation of an expression ends, and raises nothing but what is allowed. -/
theorem expr_settles {e : Expr} (body : scene.grammar.SoundBody e) (scope : Scope) {start : Int}
    (lower : 0 ≤ start) (upper : start ≤ input.length) :
    Peg.Settles allowed fun fuel =>
      (scene.peg input source).expr ((scene.peg input source).rule fuel) fuel scope e start := by
  refine Agrees.settles (fun fuel => exact_agrees prepared length pure body fuel scope
    (@Course.Valid.fresh (scene.plain.evaluation input source) start lower upper)) ?_
    fun fuel fuel' more => Peg.expr_upto more e (.all (Peg.rule_upto _ more) e) scope start
  refine @Course.body_ends _ allowed scene.plain _ user bounds
    (@calls_steps scene.plain _ _ prepared length) prepared.judged bounded e body false none scope _
    (@Course.Valid.fresh (scene.plain.course input source) start lower upper)
    fun name defined v valid _ => ?_
  exact @call_ends scene.plain allowed input source prepared length user bounds bounded
    (input.length - v.state.offset).toNat name defined v valid (by omega)

include prepared length pure user bounds bounded in
/-- Evaluation of a rule ends as well. -/
theorem peg_ends {name : Text} (defined : scene.grammar.defines name = true) {start : Int}
    (lower : 0 ≤ start) (upper : start ≤ input.length) :
    Peg.Settles allowed fun fuel => (scene.peg input source).rule fuel name start := by
  obtain ⟨r, found⟩ := Option.isSome_iff_exists.mp defined
  have body := @expr_settles scene input source prepared length pure allowed user bounds bounded r.body
    (prepared.soundBody (List.mem_of_find?_eq_some found)) [] start lower upper
  refine Peg.Settles.shift (fun fuel => ?_) body
  simp only [Peg.rule, show (scene.peg input source).grammar.find? name = some r from found]

end Ends

end Rules

end Scene

end PegCompiler
