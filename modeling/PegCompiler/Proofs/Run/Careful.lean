import PegCompiler.Proofs.Run.Evaluation
import PegCompiler.Proofs.Run.Mirror

/-!
Careful runs beside the runs that enter every range. Up to where it refuses to enter a range, a careful
run is the same (`Scene.rule_careful`). So what it gives is what the other one gives; the same goes for
evaluation (`Scene.peg_of_careful`).
-/

namespace PegCompiler

/-- The first run is the second one, unless it refuses. -/
def Run.Careful {α : Type} (run run' : Run α) : Prop :=
  ∀ w, (Run.go run w).1 = .error .wrongType ∨ Run.go run w = Run.go run' w

namespace Run.Careful

variable {α β : Type} {run run' : Run α}

theorem refl (run : Run α) : Careful run run := fun _ => .inr rfl

theorem refusal : Careful (MonadExcept.throw .wrongType) run := fun _ => .inl rfl

theorem bind {next next' : α → Run β} (first : Careful run run')
    (second : ∀ a, Careful (next a) (next' a)) : Careful (run >>= next) (run' >>= next') := by
  intro w
  rw [Run.go_bind, Run.go_bind]
  rcases first w with refused | same
  · refine .inl ?_
    rcases ended : Run.go run w with ⟨raised | a, after⟩
    · rw [ended] at refused
      exact congrArg _ (Except.error.inj refused)
    · rw [ended] at refused
      cases refused
  · rw [← same]
    rcases Run.go run w with ⟨raised | a, after⟩
    · exact .inr rfl
    · exact second a after

end Run.Careful

namespace Tree

variable {scene : Scene} {callRule callRule' : Int → Run Outcome} {rounds : Nat}

/-- An expression is run carefully if the rules that it refers to are. -/
theorem careful_parametric (calls : ∀ index, (callRule index).Careful (callRule' index)) :
    Engine.Parametric (fun _ => True) (fun _ => True) Eq (engine scene callRule rounds)
      (engine { scene with admits := fun _ _ => true } callRule' rounds)
      fun _ => Run.Careful where
  prune := rfl
  admits e scope := by
    cases refused : scene.admits e scope with
    | true => exact .inl refused.symm
    | false => exact .inr ⟨refused, fun _ => .refusal⟩
  matcher := rfl
  rounds := .inl rfl
  pure _ := .refl _
  throw _ := .refl _
  bind := .bind
  offset next := .bind (.refl _) fun start => next start trivial
  goTo _ := .refl _
  matched _ := .refl _
  expect _ _ same := same ▸ .refl _
  matching _ := .refl _
  boundOf _ _ := .refl _
  act _ _ _ := .refl _
  predicate _ _ _ := .refl _
  call _ := calls _
  followedBy _ careful := .bind (.refl _) fun _ => .bind (.refl _) fun _ => .bind careful fun _ =>
    .refl _
  notFollowedBy _ careful := .bind (.refl _) fun _ => .bind (.refl _) fun _ => .bind careful fun _ =>
    .refl _
  named _ same := ⟨same.symm, rfl⟩
  silently _ careful := .bind (.refl _) fun _ => .bind careful fun _ => .refl _

theorem called_careful {program : Program} {place : Nat} {name : Text} {body body' : Run Outcome}
    (careful : body.Careful body') :
    (called program place name body).Careful (called program place name body') := by
  refine .bind (.refl _) fun _ => .bind (.refl _) fun _ => .bind (.refl _) fun kept => ?_
  cases kept with
  | some outcome => exact .refl _
  | none => exact .bind careful fun _ => .refl _

end Tree

/-- The outcome and the end tell what the match was. -/
theorem Lands.matched_eq {start : Int} {matched matched' : Option (Value × Int)} {out : Outcome}
    {after : World} (lands : Lands start matched out after) (lands' : Lands start matched' out after) :
    matched = matched' := by
  obtain ⟨value, place⟩ := lands
  obtain ⟨value', place'⟩ := lands'
  rw [value] at value'
  rw [place] at place'
  cases matched with
  | none =>
    cases matched' with
    | none => rfl
    | some => cases value'
  | some matched =>
    cases matched' with
    | none => cases value'
    | some matched' => exact congrArg some (Prod.ext (Option.some.inj value') place')

/-- Where the runs are the same, so are the results of evaluation that they agree with. -/
theorem Agrees.result_eq {c c' : Course} {result result' : Peg.Result} {run run' : Run Outcome}
    {start : Int} {w : World} (first : Agrees c True result run (Lands start) w)
    (second : Agrees c' True result' run' (Lands start) w) (same : Run.go run w = Run.go run' w) :
    result = result' := by
  cases result with
  | error raised =>
    obtain ⟨after, ended⟩ := first trivial
    cases result' with
    | error raised' =>
      obtain ⟨after', ended'⟩ := second trivial
      cases (ended.symm.trans same).trans ended'
      rfl
    | ok matched' =>
      obtain ⟨out', after', ended', -⟩ := second
      cases (ended.symm.trans same).trans ended'
  | ok matched =>
    obtain ⟨out, after, ended, -, lands⟩ := first
    cases result' with
    | error raised' =>
      obtain ⟨after', ended'⟩ := second trivial
      cases (ended.symm.trans same).trans ended'
    | ok matched' =>
      obtain ⟨out', after', ended', -, lands'⟩ := second
      cases (ended.symm.trans same).trans ended'
      rw [lands.matched_eq lands']

namespace Scene

/-- The scene in which every range is entered. -/
def entering (scene : Scene) : Scene := { scene with admits := fun _ _ => true }

variable {scene : Scene}

theorem Faithful.admits_eq (faithful : scene.Faithful) : scene.admits = fun _ _ => true :=
  funext fun e => funext (faithful.admits e)

theorem Faithful.entering (faithful : scene.Faithful) : scene.entering = scene := by
  simp only [Scene.entering, ← faithful.admits_eq]

/-- Up to where it refuses to enter a range, a careful run of a rule is the same. -/
theorem rule_careful (fuel : Nat) (index : Int) :
    (Tree.rule scene fuel index).Careful (Tree.rule scene.entering fuel index) := by
  induction fuel generalizing index with
  | zero => exact .refl _
  | succ fuel ih =>
    cases here : Index.place? scene.grammar.rules.length index with
    | none =>
      rw [rule_absent here, @rule_absent scene.entering fuel index here]
      exact .refl _
    | some place =>
      obtain ⟨r, at?⟩ := exists_rule here
      rw [rule_at here at?, @rule_at scene.entering fuel place index r here at?]
      exact Tree.called_careful
        (Tree.expr_related (Tree.careful_parametric ih) (.of_forall (fun _ => trivial) _) rfl none [])

variable {input : Text} {source : Option Text} (prepared : scene.grammar.Prepared)
  (pure : PureMeaning scene.meaning)
  (length : scene.program.rules.length = scene.grammar.rules.length)

include prepared pure length in
/-- What careful evaluation of a rule gives, evaluation gives. -/
theorem peg_of_careful {fuel : Nat} {name : Text} (defined : scene.grammar.defines name = true)
    {start : Int} (lower : 0 ≤ start) (upper : start ≤ input.length)
    {matched : Option (Value × Int)}
    (evaluated : (scene.peg input source).rule fuel name start = .ok matched) :
    (scene.entering.peg input source).rule fuel name start = .ok matched := by
  -- exact runs do what evaluation does, on either side
  have careful : Agrees (scene.plain.evaluation input source) True
      ((scene.peg input source).rule fuel name start) _ (Lands start) (.fresh input source start) :=
    @rule_agrees scene.plain input source prepared length pure True (fun _ => rfl) (fun _ => rfl)
      (fun prunes => by cases prunes) fuel name defined _ (.fresh lower upper)
  have entering : Agrees (scene.entering.plain.evaluation input source) True
      ((scene.entering.peg input source).rule fuel name start) _ (Lands start)
      (.fresh input source start) :=
    @rule_agrees scene.entering.plain input source prepared length pure True (fun _ => rfl)
      (fun _ => rfl) (fun prunes => by cases prunes) fuel name defined _ (.fresh lower upper)
  rcases @rule_careful scene.plain fuel (scene.grammar.placeOf name) (.fresh input source start) with
    refused | same
  · rw [evaluated] at careful
    obtain ⟨out, after, ended, -⟩ := careful
    cases (congrArg Prod.fst ended).symm.trans refused
  · exact (careful.result_eq entering same).symm.trans evaluated

end Scene

end PegCompiler
