import PegCompiler.Proofs.Run.Careful
import PegCompiler.Proofs.Value.Fields

/-!
Parses without endless numbers. If user code gives none, then rules give none, labels hold none and the
memo table keeps none. A careful run has no range to refuse then: it is the run that enters every range
(`Scene.rule_same`).
-/

namespace PegCompiler

/-- Positive infinity, or the float that is no number. -/
def Value.isEndless (value : Value) : Bool := value.number?.any Number.isEndless

/-- User code gives no endless number. -/
def LimitedMeaning (meaning : UserFunction → UserCode) : Prop :=
  ∀ f state values value, meaning f state values = .ok value → value.isEndless = false

/-- What is given, if anything is, is no endless number. -/
def Outcome.Limited (out : Outcome) : Prop := ∀ value, out = some value → value.isEndless = false

/-- No label holds an endless number. -/
def Scope.Limited (scope : Scope) : Prop := ∀ field ∈ scope, field.2.isEndless = false

/-- The memo table keeps none. -/
def World.Limited (w : World) : Prop :=
  ∀ (key : Int) (entry : Int × Outcome), w.memo[key]? = some entry → Outcome.Limited entry.2

namespace Outcome.Limited

theorem none : Limited Option.none := nofun

theorem some {value : Value} (limited : value.isEndless = false) : Limited (Option.some value) := by
  rintro _ ⟨⟩
  exact limited

theorem ite {out other : Outcome} {condition : Prop} [Decidable condition] (first : Limited out)
    (second : Limited other) : Limited (if condition then out else other) := by
  split
  · exact first
  · exact second

end Outcome.Limited

theorem Scope.Limited.extend {scope : Scope} (limited : scope.Limited) (e : Expr) {value : Value}
    (given : value.isEndless = false) : Scope.Limited (e.extend value scope) := by
  unfold Expr.extend
  split
  · intro field member
    rcases Value.mem_setField member with ⟨-, same⟩ | member
    · rw [same, given]
    · exact limited field member
  · exact limited

/-- Such a scope gives a range no endless number. -/
theorem Scope.Limited.isLimited {scope : Scope} (limited : scope.Limited) (e : Expr) :
    e.isLimited scope = true := by
  unfold Expr.isLimited Expr.boundsPass
  split
  · rename_i min max body delimiter
    rcases max with _ | (_ | _ | name)
    case label.text =>
      simp only [Boundary.passes, Option.all_eq_true]
      intro n held
      obtain ⟨value, found, number⟩ := Option.bind_eq_some_iff.mp held
      have given := limited _ (Value.mem_of_lookup? found)
      rw [Value.isEndless, number, Option.any_some] at given
      rw [given, Bool.not_false]
    all_goals rfl
  · rfl

theorem Scope.Limited.enters {scope : Scope} (limited : scope.Limited) (g : Grammar) (e : Expr) :
    g.enters e scope = true :=
  Bool.or_eq_true_iff.mpr (.inl (limited.isLimited e))

/-- From a world in which nothing endless is kept, the two runs are the same. What they give is as said,
and nothing endless is kept afterwards. -/
def Run.Same {α : Type} (gives : α → Prop) (run run' : Run α) : Prop :=
  ∀ w : World, w.Limited → Run.go run w = Run.go run' w ∧
    run.Yields w fun a after => gives a ∧ after.Limited

namespace Run.Same

variable {α β : Type} {gives : α → Prop} {run run' : Run α}

theorem of_yields (yields : ∀ w : World, w.Limited → run.Yields w fun a after => gives a ∧ after.Limited) :
    Same gives run run :=
  fun w limited => ⟨rfl, yields w limited⟩

theorem pure {a : α} (given : gives a) : Same gives (Pure.pure a) (Pure.pure a) :=
  of_yields fun _ limited => .pure ⟨given, limited⟩

theorem throw {raised : Raise} :
    Same gives (MonadExcept.throw raised : Run α) (MonadExcept.throw raised) :=
  of_yields fun _ _ => .throw

theorem bind {gives' : β → Prop} {next next' : α → Run β} (first : Same gives run run')
    (second : ∀ a, gives a → Same gives' (next a) (next' a)) :
    Same gives' (run >>= next) (run' >>= next') := by
  intro w limited
  obtain ⟨same, yields⟩ := first w limited
  refine ⟨?_, .bind (yields.mono fun a after ⟨given, limited⟩ => (second a given after limited).2)⟩
  rw [Run.go_bind, Run.go_bind, ← same]
  rcases ended : Run.go run w with ⟨raised | a, after⟩
  · rfl
  · obtain ⟨given, limited⟩ := yields a after ended
    exact (second a given after limited).1

/-- A run that keeps nothing. -/
theorem of_memo (memo : ∀ w, (Run.go run w).2.memo = w.memo) : Same (fun _ => True) run run := by
  refine of_yields fun w limited a after ended => ⟨trivial, fun key entry found => ?_⟩
  have same := memo w
  rw [ended] at same
  exact limited key entry (same ▸ found)

end Run.Same

namespace Tree

/-! ## Steps -/

theorem offset_same : offset.Same (fun _ => True) offset := .of_memo fun _ => rfl

theorem change_same (change : ParserState → ParserState) :
    (Tree.change change).Same (fun _ => True) (Tree.change change) := .of_memo fun _ => rfl

theorem goTo_same (start : Int) : (goTo start).Same (fun _ => True) (goTo start) := change_same _

theorem expect_same (reports : Bool) (entry : Entry) :
    (expect reports entry).Same (fun _ => True) (expect reports entry) := by
  refine .of_memo fun w => ?_
  rw [go_expect]
  cases reports
  · rfl
  · cases w.state.expect entry <;> rfl

theorem closeRecord_same (inverted : Bool) :
    (closeRecord inverted).Same (fun _ => True) (closeRecord inverted) := by
  refine .of_memo fun w => ?_
  rw [go_closeRecord]
  rcases w.state.closeRecord inverted with ⟨_ | _, _⟩ <;> rfl

theorem boundOf_same (scope : Scope) (name : Text) :
    (boundOf scope name).Same (fun _ => True) (boundOf scope name) := by
  refine .of_memo fun w => ?_
  rw [go_boundOf]
  split <;> rfl

theorem matching_same (primitive : ParserState → Except Raise (Option Text × ParserState)) :
    (matching primitive).Same Outcome.Limited (matching primitive) := by
  refine .of_yields fun w limited out after ended => ?_
  rw [go_matching] at ended
  split at ended
  · rename_i matched s found
    cases ended
    refine ⟨fun value same => ?_, fun key entry => limited key entry⟩
    obtain ⟨text, -, rfl⟩ := Option.map_eq_some_iff.mp same
    rfl
  · cases ended

theorem reached_same (scope : Scope) (max : Boundary) (count : Nat) :
    (reached scope max count).Same (fun _ => True) (reached scope max count) := by
  unfold reached
  split
  · exact .pure trivial
  · exact .bind (boundOf_same _ _) fun _ _ => .pure trivial
  · exact .pure trivial

theorem fewer_same (scope : Scope) (min : Boundary) (count : Nat) :
    (fewer scope min count).Same (fun _ => True) (fewer scope min count) := by
  unfold fewer
  split
  · exact .pure trivial
  · exact .bind (boundOf_same _ _) fun _ _ => .pure trivial
  · exact .pure trivial

/-! ## Loops -/

section Loops

variable {element element' separator separator' : Run Outcome} {enough : Nat → Run Bool}

theorem once_same {gives : Outcome → Prop} {run run' : Run Outcome} (same : run.Same gives run')
    (rounds : Nat) : (once rounds run).Same gives (once rounds run') := by
  cases rounds with
  | zero => exact .throw
  | succ => exact same

theorem collect_same (each : element.Same Outcome.Limited element')
    (tests : ∀ count, (enough count).Same (fun _ => True) (enough count)) (rounds : Nat)
    (items : List Value) :
    (collect enough element rounds items).Same (fun _ => True) (collect enough element' rounds items) := by
  induction rounds generalizing items with
  | zero => exact .throw
  | succ rounds ih =>
    refine .bind (tests _) fun full _ => ?_
    split
    · exact .pure trivial
    · refine .bind each fun out _ => ?_
      cases out with
      | none => exact .pure trivial
      | some item => exact ih _

theorem separate_same (each : element.Same Outcome.Limited element')
    (between : separator.Same Outcome.Limited separator')
    (tests : ∀ count, (enough count).Same (fun _ => True) (enough count)) (rounds : Nat) (start : Int)
    (items : List Value) : (separate enough element separator rounds start items).Same (fun _ => True)
      (separate enough element' separator' rounds start items) := by
  induction rounds generalizing start items with
  | zero => exact .throw
  | succ rounds ih =>
    refine .bind each fun out _ => ?_
    cases out with
    | none => exact .bind (goTo_same _) fun _ _ => .pure trivial
    | some item =>
      refine .bind (tests _) fun full _ => ?_
      split
      · exact .pure trivial
      · refine .bind offset_same fun start _ => .bind between fun out _ => ?_
        cases out with
        | none => exact .pure trivial
        | some _ => exact ih _ _

/-- A list is no number. -/
theorem repetition_same (each : element.Same Outcome.Limited element')
    {between between' : Option (Run Outcome)}
    (betweens : Option.Rel (Run.Same Outcome.Limited) between between') (rounds : Nat) (scope : Scope)
    (min max : Boundary) : (repetition rounds scope min max element between).Same Outcome.Limited
      (repetition rounds scope min max element' between') := by
  have gathers : (gather rounds scope max element between).Same (fun _ => True)
      (gather rounds scope max element' between') := by
    cases betweens with
    | none => exact collect_same each (reached_same scope max) rounds []
    | some between =>
      cases rounds with
      | zero => exact .throw
      | succ rounds =>
        refine .bind (reached_same scope max 0) fun full _ => ?_
        split
        · exact .pure trivial
        · exact .bind offset_same fun start _ =>
            separate_same each between (reached_same scope max) _ start []
  refine .bind offset_same fun start _ => .bind gathers fun items _ =>
    .bind (fewer_same scope min _) fun short _ => ?_
  split
  · exact .bind (goTo_same start) fun _ _ => .pure .none
  · exact .pure (.some rfl)

theorem lookahead_same (same : element.Same Outcome.Limited element') (negative : Bool) :
    (lookahead negative element).Same Outcome.Limited (lookahead negative element') := by
  refine .bind offset_same fun start _ => .bind (change_same _) fun _ _ => .bind same fun out _ =>
    .bind (closeRecord_same negative) fun _ _ => ?_
  cases out with
  | none => exact .pure (.ite (.some rfl) .none)
  | some _ => exact .bind (goTo_same start) fun _ _ => .pure (.ite .none (.some rfl))

end Loops

/-! ## Expressions and rules -/

section Expressions

variable {scene : Scene} {callRule callRule' : Int → Run Outcome} {rounds : Nat}
  (user : LimitedMeaning scene.meaning)

include user in
theorem call_same (predicate : Bool) (body : Text) (scope : Scope) :
    (call scene predicate body scope).Same (fun value => value.isEndless = false)
      (call scene predicate body scope) := by
  refine .of_yields fun w limited value after ended => ?_
  rw [go_call] at ended
  obtain ⟨given, rfl⟩ := Prod.mk.inj ended
  exact ⟨user _ _ _ _ given, limited⟩

include user in
theorem act_same (start : Int) (body : Text) (scope : Scope) :
    (act scene start body scope).Same Outcome.Limited (act scene start body scope) :=
  .bind (change_same _) fun _ _ => .bind (call_same user _ _ _) fun _ given => .pure (.some given)

theorem rowValue_limited {autos : List Value} (limited : ∀ value ∈ autos, value.isEndless = false)
    (values : List Value) : (rowValue autos values).isEndless = false := by
  unfold rowValue
  split
  · rfl
  · exact limited _ (by simp)
  · rfl

include user in
theorem row_same {reports : Bool} {es : List Expr} (finish : Option Text) (start : Int)
    (each : ∀ e ∈ es, ∀ scope : Scope, scope.Limited →
      (expr scene callRule rounds reports none scope e).Same Outcome.Limited
        (expr scene.entering callRule' rounds reports none scope e))
    {scope : Scope} (limited : scope.Limited) {autos : List Value}
    (given : ∀ value ∈ autos, value.isEndless = false) (values : List Value) :
    (row scene callRule rounds reports finish start scope autos values es).Same Outcome.Limited
      (row scene.entering callRule' rounds reports finish start scope autos values es) := by
  induction es generalizing scope autos values with
  | nil =>
    cases finish with
    | none => exact .pure (.some (rowValue_limited given values))
    | some code => exact act_same user start code scope
  | cons e rest ih =>
    rw [row, row]
    refine .bind (each e (by simp) scope limited) fun out outcome => ?_
    cases out with
    | none => exact .bind (goTo_same start) fun _ _ => .pure .none
    | some value =>
      have value_limited := outcome value rfl
      refine ih (fun e he => each e (by simp [he])) (limited.extend e value_limited) ?_ _
      unfold Expr.collect
      split
      · intro other member
        rcases List.mem_append.mp member with member | member
        · exact given other member
        · rw [List.mem_singleton.mp member, value_limited]
      · exact given

theorem alternatives_same {reports : Bool} {es : List Expr} {scope : Scope}
    (each : ∀ e ∈ es, (expr scene callRule rounds reports none scope e).Same Outcome.Limited
      (expr scene.entering callRule' rounds reports none scope e)) :
    (alternatives scene callRule rounds reports scope es).Same Outcome.Limited
      (alternatives scene.entering callRule' rounds reports scope es) := by
  induction es with
  | nil => exact .pure .none
  | cons e rest ih =>
    have others := ih fun e he => each e (by simp [he])
    rw [alternatives, alternatives, show scene.entering.prune = scene.prune from rfl]
    split
    · exact others
    · refine .bind (each e (by simp)) fun out outcome => ?_
      cases out with
      | none => exact others
      | some value => exact .pure outcome

variable (admits : ∀ e (scope : Scope), scope.Limited → scene.admits e scope = true)
  (calls : ∀ index, (callRule index).Same Outcome.Limited (callRule' index))

include user admits calls in
/-- With labels that hold no endless number, an expression gives none. -/
theorem expr_same (e : Expr) (reports : Bool) (finish : Option Text) {scope : Scope}
    (limited : scope.Limited) : (expr scene callRule rounds reports finish scope e).Same Outcome.Limited
      (expr scene.entering callRule' rounds reports finish scope e) := by
  induction e using Expr.byChildren generalizing reports finish scope with
  | node e ih =>
    have each : ∀ b ∈ e.children, ∀ scope : Scope, scope.Limited →
        (expr scene callRule rounds reports none scope b).Same Outcome.Limited
          (expr scene.entering callRule' rounds reports none scope b) :=
      fun b hb scope limited => ih b hb reports none limited
    cases e with
    | literal info value ignoreCase =>
      rw [expr, expr]
      split
      · exact .pure (.some rfl)
      · exact .bind (expect_same _ _) fun _ _ => matching_same _
    | charClass info members =>
      rw [expr, expr]
      refine .bind (expect_same _ _) fun _ _ => ?_
      split
      · exact .pure .none
      · exact matching_same _
    | any info =>
      rw [expr, expr]
      exact .bind (expect_same _ _) fun _ _ => matching_same _
    | ruleRef info name =>
      rw [expr, expr]
      exact calls _
    | sequence info es =>
      rw [expr, expr]
      exact .bind offset_same fun start _ =>
        once_same (row_same user finish start each limited (by simp) []) rounds
    | choice info es =>
      rw [expr, expr, show scene.entering.prune = scene.prune from rfl]
      split
      · exact .pure .none
      · exact once_same (alternatives_same fun e he => each e he scope limited) rounds
    | labeled info label at? auto body =>
      rw [expr, expr]
      exact each body (by simp [Expr.children]) scope limited
    | unary info operator body =>
      have inner := each body (by simp [Expr.children]) scope limited
      cases operator with
      | group =>
        rw [expr, expr]
        exact inner
      | text =>
        rw [expr, expr]
        refine .bind offset_same fun start _ => .bind inner fun out _ => ?_
        cases out with
        | none => exact .pure .none
        | some _ =>
          exact .bind (.of_memo fun _ => rfl) fun _ _ => .pure (.some rfl)
      | followedBy =>
        rw [expr, expr]
        exact lookahead_same inner false
      | notFollowedBy =>
        rw [expr, expr]
        exact lookahead_same inner true
      | optional =>
        rw [expr, expr]
        refine .bind inner fun out outcome => .pure (.some ?_)
        cases out with
        | none => rfl
        | some value => exact outcome value rfl
      | zeroOrMore | oneOrMore =>
        rw [expr, expr]
        exact repetition_same inner .none rounds scope _ _
    | range info min max body delimiter =>
      cases delimiter with
      | none =>
        have inner := each body (by simp [Expr.children]) scope limited
        rw [expr, expr, admits _ scope limited]
        exact repetition_same inner .none rounds scope _ _
      | some separator =>
        have inner := each body (by simp [Expr.children]) scope limited
        have between := each separator (by simp [Expr.children]) scope limited
        rw [expr, expr, admits _ scope limited]
        exact repetition_same inner (.some between) rounds scope _ _
    | named info name body =>
      rw [expr, expr]
      split
      · refine .bind (expect_same _ _) fun _ _ => .bind (change_same _) fun _ _ => ?_
        exact .bind (ih body (by simp [Expr.children]) false finish limited) fun out outcome =>
          .bind (change_same _) fun _ _ => .pure outcome
      · exact ih body (by simp [Expr.children]) false finish limited
    | action info code at? body =>
      rw [expr, expr]
      refine .bind offset_same fun start _ =>
        .bind (ih body (by simp [Expr.children]) reports (some code) limited) fun out outcome => ?_
      cases out with
      | none => exact .pure .none
      | some value =>
        simp only
        split
        · exact .pure outcome
        · exact act_same user start code _
    | predicate info negative code =>
      rw [expr, expr]
      exact .bind (change_same _) fun _ _ => .bind (call_same user _ _ _) fun _ _ =>
        .pure (.ite (.some rfl) .none)
    | foreign what =>
      rw [expr, expr]
      exact .throw

end Expressions

/-! The memo table keeps what rules give. -/

theorem noteEnd_same (program : Program) (name : Text) (start : Int) (outcome : Outcome) :
    (Machine.noteEnd program name start outcome).Same (fun _ => True)
      (Machine.noteEnd program name start outcome) :=
  .of_memo fun _ => by rw [Machine.go_noteEnd]; rfl

theorem memoized_same (program : Program) (key : Int) :
    (Machine.memoized program key).Same (fun kept => ∀ outcome ∈ kept, Outcome.Limited outcome)
      (Machine.memoized program key) := by
  refine .of_yields fun w limited kept after ended => ?_
  rw [Machine.go_memoized] at ended
  split at ended
  · rename_i stop outcome found
    cases ended
    refine ⟨?_, fun key entry => limited key entry⟩
    rintro _ ⟨⟩
    exact limited key _ (World.kept?_eq_some.mp found).2
  · cases ended
    exact ⟨nofun, limited⟩

theorem remember_same (program : Program) (key : Int) {outcome : Outcome} (given : outcome.Limited) :
    (Machine.remember program key outcome).Same (fun _ => True)
      (Machine.remember program key outcome) := by
  refine .of_yields fun w limited _ after ended => ?_
  rw [Machine.go_remember] at ended
  cases ended
  refine ⟨trivial, fun other entry found => ?_⟩
  rw [World.remembering_memo] at found
  split at found
  · cases found
    exact given
  · exact limited other entry found

theorem called_same (program : Program) (place : Nat) (name : Text) {body body' : Run Outcome}
    (same : body.Same Outcome.Limited body') :
    (called program place name body).Same Outcome.Limited (called program place name body') := by
  refine .bind (.of_memo fun _ => rfl) fun _ _ =>
    .bind (.of_memo fun _ => by rw [Machine.go_note]; rfl) fun _ _ =>
      .bind (memoized_same program _) fun kept limited => ?_
  cases kept with
  | some outcome => exact .bind (noteEnd_same program name _ _) fun _ _ => .pure (limited outcome rfl)
  | none =>
    exact .bind same fun outcome limited => .bind (remember_same program _ limited) fun _ _ =>
      .bind (noteEnd_same program name _ _) fun _ _ => .pure limited

end Tree

namespace Scene

variable {scene : Scene} (user : LimitedMeaning scene.meaning)
  (admits : ∀ e (scope : Scope), scope.Limited → scene.admits e scope = true)

include user admits in
/-- If user code gives no endless number, a run of a rule has no range to refuse. -/
theorem rule_same (fuel : Nat) (index : Int) :
    (Tree.rule scene fuel index).Same Outcome.Limited (Tree.rule scene.entering fuel index) := by
  induction fuel generalizing index with
  | zero => exact .throw
  | succ fuel ih =>
    cases here : Index.place? scene.grammar.rules.length index with
    | none =>
      rw [rule_absent here, @rule_absent scene.entering fuel index here]
      exact .throw
    | some place =>
      obtain ⟨r, at?⟩ := exists_rule here
      rw [rule_at here at?, @rule_at scene.entering fuel place index r here at?]
      have nothing : Scope.Limited [] := nofun
      exact Tree.called_same scene.program place r.name
        (Tree.expr_same user admits ih r.body r.reports none nothing)

include user admits in
/-- Nor has evaluation. -/
theorem peg_same (prepared : scene.grammar.Prepared) (pure : PureMeaning scene.meaning)
    (length : scene.program.rules.length = scene.grammar.rules.length) {input : Text}
    {source : Option Text} {e : Expr} (body : scene.grammar.SoundBody e) (fuel : Nat) {scope : Scope}
    (limited : scope.Limited) {start : Int} (lower : 0 ≤ start) (upper : start ≤ input.length) :
    (scene.peg input source).expr ((scene.peg input source).rule fuel) fuel scope e start =
      (scene.entering.peg input source).expr ((scene.entering.peg input source).rule fuel) fuel scope e
        start := by
  have careful := exact_agrees prepared length pure body fuel scope
    (@Course.Valid.fresh (scene.plain.evaluation input source) start lower upper)
  have entering := @exact_agrees scene.entering input source prepared length pure e body fuel scope _
    (@Course.Valid.fresh (scene.entering.plain.evaluation input source) start lower upper)
  have fresh : World.Limited (.fresh input source start) := fun key entry found => by
    simp [World.fresh] at found
  exact careful.result_eq entering (@Tree.expr_same scene.plain _ _ _ user admits
    (@rule_same scene.plain user admits fuel) e false none scope limited _ fresh).1

end Scene

end PegCompiler
