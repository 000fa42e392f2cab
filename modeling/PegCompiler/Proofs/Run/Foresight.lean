import PegCompiler.Proofs.Run.Correctness

/-!
What inference says of a node is what evaluation does. In a grammar that was read, checked and prepared,
evaluation of any node of a rule, from any place of an input and with any labels in scope, comes to an
end, but for idle ranges with an endless number for the greatest one; unless user code or a bound raises
something on the way, it matches if the node is marked to match always, and fails if it is marked to
match never (`Grammar.verdicts_foresee`). The same holds of the verdicts of rules.
-/

namespace PegCompiler

namespace Semantics

/-- What the evaluation of a checked grammar may raise. -/
def MayRaise (semantics : Semantics) (raised : Raise) : Prop :=
  raised = .wrongType ∨ ∃ f state values, semantics.meaning f state values = .error raised

/-- All that evaluation gives is as the verdict says. It comes to an end, if it is the same where no idle
range is entered that has an endless number for the greatest one; so it does if neither user code nor the
scope has such a number. -/
structure EndsAs (semantics : Semantics) (verdict : Option Verdict) (scope : Scope) (peg : Peg)
    (evaluate : Peg → Nat → Peg.Result) : Prop where
  foreseen : ∀ fuel, match evaluate peg fuel with
    | .error raised => raised = .outOfFuel ∨ semantics.MayRaise raised
    | .ok matched => (verdict = some .always → matched.isSome) ∧ (verdict = some .never → matched = none)
  settles : (∀ fuel, evaluate peg.careful fuel = evaluate peg fuel) →
    Peg.Settles semantics.MayRaise (evaluate peg)
  limited : LimitedMeaning semantics.meaning → scope.Limited →
    Peg.Settles semantics.MayRaise (evaluate peg)

end Semantics

namespace Grammar

variable {g : Grammar}

/-- Every node of a body is a body in turn. -/
theorem SoundBody.everywhere {e : Expr} (body : g.SoundBody e) : e.Everywhere g.SoundBody := by
  have inner (e : Expr) (sound : g.Sound e) : e.Everywhere g.SoundBody := by
    induction e using Expr.byChildren with
    | node e ih => exact .node (.plain sound) fun c hc => ih c hc (sound.child hc)
  cases body with
  | plain sound => exact inner e sound
  | displayed verdict sound =>
    refine .node (.displayed verdict sound) ?_
    simpa [Expr.children] using inner _ sound

/-- What gets where a node may get is as the verdict of the node says. -/
theorem Moves.foreseen {e : Expr} {start : Int} {matched : Option (Value × Int)}
    (moves : g.Moves e start (matched.map Prod.fst) ((matched.map Prod.snd).getD start)) :
    (e.info.verdict = some .always → matched.isSome) ∧ (e.info.verdict = some .never → matched = none) := by
  cases matched with
  | none =>
    refine ⟨fun always => ?_, fun _ => rfl⟩
    exact absurd (by rw [Expr.verdict, always, Option.getD_some]) moves.2
  | some _ =>
    refine ⟨fun _ => rfl, fun never => ?_⟩
    exact absurd (by rw [Expr.verdict, never, Option.getD_some]) moves.2.2

/-- The rules of a grammar without their code: in evaluation they only need their places. User code is
shown what evaluation shows it. -/
def bare (g : Grammar) (semantics : Semantics) (admits : Expr → Scope → Bool) : Scene where
  program := ⟨g.rules.map fun r => (r.name, []), [], [], [], [], [], none, false, false⟩
  grammar := g
  meaning := shown semantics.meaning
  matcher := semantics.matcher
  prune := false
  admits := admits

section Prepared

variable (prepared : g.Prepared) (semantics : Semantics) (state : ParserState) (inside : state.Inside)

include prepared inside in
theorem Prepared.body_endsAs {e : Expr} (body : g.SoundBody e) (scope : Scope) :
    semantics.EndsAs e.info.verdict scope (g.evaluator semantics state) fun peg fuel =>
      peg.expr (peg.rule fuel) fuel scope e state.offset := by
  have length (admits : Expr → Scope → Bool) : (g.bare semantics admits).program.rules.length =
    (g.bare semantics admits).grammar.rules.length := List.length_map ..
  have pure (admits : Expr → Scope → Bool) : PureMeaning (g.bare semantics admits).meaning :=
    shown_pure semantics.meaning
  have user (admits : Expr → Scope → Bool) (f : UserFunction) (s : ParserState) (values : List Value)
      (raised : Raise) (failed : (g.bare semantics admits).meaning f s values = .error raised) :
      semantics.MayRaise raised := .inr ⟨_, _, _, failed⟩
  have kin : Peg.Kin id (g.evaluator semantics state)
      ((g.bare semantics fun _ _ => true).peg state.input state.source) :=
    Peg.kin_shown _ fun _ => rfl
  have careful : Peg.Kin id (g.evaluator semantics state).careful
      ((g.bare semantics g.enters).peg state.input state.source) :=
    Peg.kin_shown _ enters_like
  have settles : Peg.Settles semantics.MayRaise fun fuel =>
      ((g.bare semantics g.enters).peg state.input state.source).expr
        (((g.bare semantics g.enters).peg state.input state.source).rule fuel) fuel scope e
          state.offset :=
    Scene.expr_settles prepared (length _) (pure _) (user _) (.inl rfl)
      (Scene.bounded_of_enters prepared rfl) body scope inside.lower inside.upper
  refine ⟨fun fuel => ?_, fun same => ?_, fun limited scope_limited => ?_⟩
  · rw [← kin.expr_eq, ← kin.rule_eq rfl]
    split
    · rename_i raised failed
      exact Scene.expr_raises prepared (length _) (pure _) (user _) (.inl rfl) body inside.lower
        inside.upper failed
    · rename_i matched evaluated
      exact (Scene.peg_moves prepared (length _) (pure _) body inside.lower inside.upper
        evaluated).foreseen
  · rw [← funext same, ← careful.expr_eq, ← careful.rule_eq rfl]
    exact settles
  · rw [← kin.expr_eq, ← kin.rule_eq rfl]
    have same := @Scene.peg_same (g.bare semantics g.enters) (fun f s values => limited f _ values)
      (fun e scope limited => limited.enters g e) prepared (pure _) (length _) state.input state.source
      e body
    rwa [funext fun fuel => same fuel scope_limited inside.lower inside.upper] at settles

include prepared inside in
theorem Prepared.rule_endsAs {r : Rule} (member : r ∈ g.rules) :
    semantics.EndsAs r.verdict [] (g.evaluator semantics state) fun peg fuel =>
      peg.rule fuel r.name state.offset := by
  have found : g.find? r.name = some r := find?_of_mem prepared.accepted.names member
  have endsAs := prepared.body_endsAs semantics state inside (prepared.soundBody member) []
  -- a rule takes a call of its own
  have calls {peg : Peg} (grammar : peg.grammar = g) (fuel : Nat) :
      peg.rule (fuel + 1) r.name state.offset =
        peg.expr (peg.rule fuel) fuel [] r.body state.offset := by
    simp only [Peg.rule, grammar, found]
  constructor
  · intro fuel
    cases fuel with
    | zero => exact .inl rfl
    | succ fuel =>
      -- the verdict of a rule is open, or that of its body
      obtain ⟨verdict, same, either, -⟩ := prepared.judged r member
      have asSaid := endsAs.foreseen fuel
      rw [calls rfl, same]
      split at asSaid
      · exact asSaid
      · rcases either with rfl | same
        · simp
        · rwa [same] at asSaid
  · intro same
    refine Peg.Settles.shift (calls rfl) (endsAs.settles fun fuel => ?_)
    have same := same (fuel + 1)
    rwa [calls rfl, calls rfl] at same
  · exact fun limited scope_limited => (endsAs.limited limited scope_limited).shift (calls rfl)

end Prepared

/-- The verdicts of the nodes and of the rules come true. -/
theorem verdicts_foresee {settings : Settings} {text : Text} {source : Option Text}
    (read : Grammar.read text source = .ok g)
    (checked : (Stage.check.run settings g).failure = none)
    {r : Rule} (member : r ∈ (g.prepare settings).rules) :
    r.body.Everywhere (fun e => ∀ (semantics : Semantics) (state : ParserState) (scope : Scope),
      state.Inside → semantics.EndsAs e.info.verdict scope ((g.prepare settings).evaluator semantics state)
        fun peg fuel => peg.expr (peg.rule fuel) fuel scope e state.offset) ∧
    ∀ (semantics : Semantics) (state : ParserState), state.Inside →
      semantics.EndsAs r.verdict [] ((g.prepare settings).evaluator semantics state)
        fun peg fuel => peg.rule fuel r.name state.offset := by
  have prepared := (preparation_of_read read checked).prepared
  constructor
  · exact (prepared.soundBody member).everywhere.mono fun e body semantics state scope inside =>
      prepared.body_endsAs semantics state inside body scope
  · exact fun semantics state inside => prepared.rule_endsAs semantics state inside member

/-! A sample: two rules that call each other, and a class without parts on every way through them. -/

def endlessText : Text := .ofString "s = 'x'* n\nn = 'y' [] s / 'y' n []"

/-- The first rule is marked to match never, and can be evaluated. -/
def isHopeless (g : Grammar) : Bool :=
  match (g.prepare plainSettings).rules[0]?,
    ((g.prepare plainSettings).evaluator countingSemantics { input := .ofString "xxyx" }).rule 6
      (.ofString "s") 0 with
  | some r, .ok _ => r.name == .ofString "s" && decide (r.verdict = some .never)
  | _, _ => false

theorem endless_fails : ∃ g, Grammar.read endlessText none = .ok g ∧
    (Stage.check.run plainSettings g).failure = none ∧
    ∃ enough, ∀ fuel ≥ enough,
      ((g.prepare plainSettings).evaluator countingSemantics { input := .ofString "xxyx" }).rule fuel
        (.ofString "s") 0 = .ok none := by
  obtain ⟨g, read, checked, passes⟩ := exists_of_accepted
    (show (accepted? plainSettings endlessText).any isHopeless = true by decide +kernel)
  refine ⟨g, read, checked, 6, fun fuel more => ?_⟩
  unfold isHopeless at passes
  split at passes
  · rename_i r matched at? evaluated
    simp only [Bool.and_eq_true, beq_iff_eq, decide_eq_true_eq] at passes
    obtain ⟨name, verdict⟩ := passes
    have asSaid := ((verdicts_foresee read checked (List.mem_of_getElem? at?)).2 countingSemantics
      { input := .ofString "xxyx" } ⟨by decide, by decide⟩).foreseen fuel
    have evaluated := (Peg.rule_upto _ more _ _).eq_of_ok evaluated
    rw [name, evaluated, verdict] at asSaid
    rw [evaluated, asSaid.2 rfl]
  · cases passes

end Grammar

end PegCompiler
