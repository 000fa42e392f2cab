import PegCompiler.Proofs.Run.Tree

/-!
One evaluation of expressions for several purposes. An `Engine` says what the steps of an evaluation are
in some monad, and `Engine.expr` puts them together as an expression asks for. The runs of `Tree` are
such an evaluation (`Tree.expr_eq`).
-/

namespace PegCompiler

/-- The steps of an evaluation. -/
structure Engine (m : Type → Type) where
  offset : m Int
  goTo : Int → m Unit
  /-- The text of the match that began at an offset. -/
  matched : Int → m Outcome
  /-- Notes what is expected here, where failures are reported. -/
  expect : Bool → Entry → m Unit
  matching : (ParserState → Except Raise (Option Text × ParserState)) → m Outcome
  /-- The number that a label holds. -/
  boundOf : Scope → Text → m Number
  act : Int → Text → Scope → m Outcome
  predicate : Bool → Text → Scope → m Outcome
  lookahead : Bool → m Outcome → m Outcome
  silently : m Outcome → m Outcome
  call : Text → m Outcome
  throw : {α : Type} → Raise → m α
  /-- How often a sequence, a choice or a loop may be entered, and go round. -/
  rounds : Nat
  /-- What can never match is left out. -/
  prune : Bool
  /-- The ranges that are entered. -/
  admits : Expr → Scope → Bool
  matcher : CharClass → ClassMatcher

namespace Engine

variable {m : Type → Type} [Monad m] (engine : Engine m)

def reached (scope : Scope) (max : Boundary) (count : Nat) : m Bool :=
  match max with
  | .count n => return n ≤ count
  | .label (.text name) => return (← engine.boundOf scope name).atMost count
  | _ => return false

def fewer (scope : Scope) (min : Boundary) (count : Nat) : m Bool :=
  match min with
  | .count n => return count < n
  | .label (.text name) => return (← engine.boundOf scope name).exceeds count
  | _ => return false

def once {α : Type} (rounds : Nat) (run : m α) : m α :=
  match rounds with
  | 0 => engine.throw .outOfFuel
  | _ + 1 => run

def collect (scope : Scope) (max : Boundary) (element : m Outcome) :
    (rounds : Nat) → List Value → m (List Value)
  | 0, _ => engine.throw .outOfFuel
  | rounds + 1, items => do
    if ← engine.reached scope max items.length then return items
    match ← element with
    | none => return items
    | some item => collect scope max element rounds (items ++ [item])

def separate (scope : Scope) (max : Boundary) (element separator : m Outcome) :
    (rounds : Nat) → (start : Int) → List Value → m (List Value)
  | 0, _, _ => engine.throw .outOfFuel
  | rounds + 1, start, items => do
    match ← element with
    | none =>
      engine.goTo start
      return items
    | some item =>
      if ← engine.reached scope max (items.length + 1) then return items ++ [item]
      let start ← engine.offset
      match ← separator with
      | none => return items ++ [item]
      | some _ => separate scope max element separator rounds start (items ++ [item])

def gather (rounds : Nat) (scope : Scope) (max : Boundary) (element : m Outcome)
    (separator : Option (m Outcome)) : m (List Value) :=
  match separator with
  | none => engine.collect scope max element rounds []
  | some separator => engine.once rounds do
    if ← engine.reached scope max 0 then return []
    let start ← engine.offset
    engine.separate scope max element separator rounds start []

def repetition (rounds : Nat) (scope : Scope) (min max : Boundary) (element : m Outcome)
    (separator : Option (m Outcome)) : m Outcome := do
  let start ← engine.offset
  let items ← engine.gather rounds scope max element separator
  if ← engine.fewer scope min items.length then
    engine.goTo start
    return none
  return some (.list items)

mutual

def expr (reports : Bool) (finish : Option Text) (scope : Scope) : Expr → m Outcome
  | .literal _ value ignoreCase =>
    if value.isEmpty then return some (.text [])
    else do
      engine.expect reports (.literal value ignoreCase)
      engine.matching fun s => .ok <|
        if ignoreCase then s.matchLowercase value.lowercase else s.matchLiteral value
  | .charClass _ members => do
    engine.expect reports (.charClass members)
    if members.parts.isEmpty then return none
    else engine.matching (·.matchClass (engine.matcher members))
  | .any _ => do
    engine.expect reports .any
    engine.matching (·.matchAny)
  | .ruleRef _ name => engine.call name
  | .sequence _ elements => do
    let start ← engine.offset
    engine.once engine.rounds (row reports finish start scope [] [] elements)
  | .choice info es =>
    if engine.prune && info.verdict = some .never then return none
    else engine.once engine.rounds (alternatives reports scope es)
  | .labeled _ _ _ _ body => expr reports none scope body
  | .unary _ operator body =>
    let inner := expr reports none scope body
    match operator with
    | .group => inner
    | .text => do
      let start ← engine.offset
      match ← inner with
      | none => return none
      | some _ => engine.matched start
    | .followedBy => engine.lookahead false inner
    | .notFollowedBy => engine.lookahead true inner
    | .optional => return some ((← inner).getD .null)
    | .zeroOrMore => engine.repetition engine.rounds scope (.count 0) .unbounded inner none
    | .oneOrMore => engine.repetition engine.rounds scope (.count 1) .unbounded inner none
  | .range info min max body none =>
    if engine.admits (.range info min max body none) scope then
      engine.repetition engine.rounds scope min max (expr reports none scope body) none
    else engine.throw .wrongType
  | .range info min max body (some separator) =>
    if engine.admits (.range info min max body (some separator)) scope then
      engine.repetition engine.rounds scope min max (expr reports none scope body)
        (some (expr reports none scope separator))
    else engine.throw .wrongType
  | .named _ name body =>
    if reports then do
      engine.expect true (.rule name)
      engine.silently (expr false finish scope body)
    else expr false finish scope body
  | .action _ code _ body => do
    let start ← engine.offset
    let out ← expr reports (some code) scope body
    match out with
    | none => return none
    | some value =>
      if body.isSequence then return some value
      else engine.act start code (body.extend value scope)
  | .predicate _ negative code => engine.predicate negative code scope
  | .foreign _ => engine.throw .malformed

def row (reports : Bool) (finish : Option Text) (start : Int) (scope : Scope)
    (autos values : List Value) : List Expr → m Outcome
  | [] =>
    match finish with
    | some code => engine.act start code scope
    | none => return some (Tree.rowValue autos values)
  | e :: rest => do
    match ← expr reports none scope e with
    | none =>
      engine.goTo start
      return none
    | some value =>
      row reports finish start (e.extend value scope) (e.collect value autos) (values ++ [value]) rest

def alternatives (reports : Bool) (scope : Scope) : List Expr → m Outcome
  | [] => return none
  | e :: rest => do
    if engine.prune && e.verdict = .never then alternatives reports scope rest
    else
      match ← expr reports none scope e with
      | some value => return some value
      | none => alternatives reports scope rest

end

end Engine

namespace Tree

/-- Runs in silence, as the expression of a rule with a display name does. -/
def silently (body : Run Outcome) : Run Outcome := do
  change fun s => { s with silence := s.silence + 1 }
  let out ← body
  change fun s => { s with silence := s.silence - 1 }
  return out

/-- The text of the match from `start` on. -/
def matched (start : Int) : Run Outcome := do
  let current ← state
  return some (.text (Index.slice current.input start current.offset))

/-- A predicate in user code sees an empty match. -/
def predicate (scene : Scene) (negative : Bool) (code : Text) (scope : Scope) : Run Outcome := do
  change fun s => { s with mark := s.offset }
  let value ← call scene true code scope
  return if value.isTrue != negative then some .null else none

variable (scene : Scene) (callRule : Int → Run Outcome) (rounds : Nat)

/-- The steps of runs in a scene. -/
def engine : Engine Run where
  offset := offset
  goTo := goTo
  matched := matched
  expect := expect
  matching := matching
  boundOf := boundOf
  act := act scene
  predicate := predicate scene
  lookahead := lookahead
  silently := silently
  call name := callRule (scene.grammar.placeOf name)
  throw := throw
  rounds := rounds
  prune := scene.prune
  admits := scene.admits
  matcher := scene.matcher

section Loops

variable (scope : Scope) (max : Boundary) (element separator : Run Outcome) (n : Nat)

theorem collect_eq (items : List Value) : (engine scene callRule rounds).collect scope max element n items =
    collect (reached scope max) element n items := by
  induction n generalizing items with
  | zero => rfl
  | succ n ih =>
    simp only [Engine.collect, collect, ih]
    rfl

theorem separate_eq (start : Int) (items : List Value) :
    (engine scene callRule rounds).separate scope max element separator n start items =
      separate (reached scope max) element separator n start items := by
  induction n generalizing start items with
  | zero => rfl
  | succ n ih =>
    simp only [Engine.separate, separate, ih]
    rfl

theorem repetition_eq (min : Boundary) (between : Option (Run Outcome)) :
    (engine scene callRule rounds).repetition n scope min max element between =
      repetition n scope min max element between := by
  cases between <;>
    simp only [Engine.repetition, repetition, Engine.gather, gather, collect_eq, separate_eq] <;> rfl

end Loops

section Expressions

variable {reports : Bool}

theorem row_eq {es : List Expr} (each : ∀ e ∈ es, ∀ scope,
      (engine scene callRule rounds).expr reports none scope e =
        expr scene callRule rounds reports none scope e)
    (finish : Option Text) (start : Int) (scope : Scope) (autos values : List Value) :
    (engine scene callRule rounds).row reports finish start scope autos values es =
      row scene callRule rounds reports finish start scope autos values es := by
  induction es generalizing scope autos values with
  | nil => cases finish <;> rfl
  | cons e rest ih =>
    rw [Engine.row, row, each e (by simp)]
    refine bind_congr fun out => ?_
    cases out with
    | none => rfl
    | some value => exact ih (fun e he => each e (by simp [he])) _ _ _

theorem alternatives_eq {es : List Expr} {scope : Scope} (each : ∀ e ∈ es,
      (engine scene callRule rounds).expr reports none scope e =
        expr scene callRule rounds reports none scope e) :
    (engine scene callRule rounds).alternatives reports scope es =
      alternatives scene callRule rounds reports scope es := by
  induction es with
  | nil => rfl
  | cons e rest ih =>
    have others := ih fun e he => each e (by simp [he])
    rw [Engine.alternatives, alternatives, each e (by simp), others]
    rfl

/-- Expressions run as the engine evaluates them. -/
theorem expr_eq (e : Expr) : ∀ (reports : Bool) (finish : Option Text) (scope : Scope),
    (engine scene callRule rounds).expr reports finish scope e =
      expr scene callRule rounds reports finish scope e := by
  induction e using Expr.byChildren with
  | node e ih =>
    intro reports finish scope
    cases e with
    | literal | charClass | any | ruleRef | predicate | foreign =>
      rw [Engine.expr, expr]
      rfl
    | sequence info es =>
      rw [Engine.expr, expr]
      refine bind_congr fun start => ?_
      exact congrArg (once rounds)
        (row_eq scene callRule rounds (fun e he scope => ih e he reports none scope) ..)
    | choice info es =>
      have same : _ = alternatives scene callRule rounds reports scope es :=
        alternatives_eq scene callRule rounds fun e he => ih e he reports none scope
      rw [Engine.expr, expr, ← same]
      rfl
    | labeled info label at? auto body =>
      rw [Engine.expr, expr]
      exact ih body (by simp [Expr.children]) reports none scope
    | unary info operator body =>
      have inner := ih body (by simp [Expr.children]) reports none scope
      cases operator with
      | group | optional => rw [Engine.expr, expr, inner]
      | text | followedBy | notFollowedBy =>
        rw [Engine.expr, expr, inner]
        rfl
      | zeroOrMore | oneOrMore =>
        rw [Engine.expr, expr, inner]
        exact repetition_eq ..
    | range info min max body delimiter =>
      cases delimiter with
      | none =>
        rw [Engine.expr, expr, ih body (by simp [Expr.children]), repetition_eq]
        rfl
      | some separator =>
        rw [Engine.expr, expr, ih body (by simp [Expr.children]), ih separator (by simp [Expr.children]),
          repetition_eq]
        rfl
    | named info name body =>
      rw [Engine.expr, expr, ih body (by simp [Expr.children])]
      rfl
    | action info code at? body =>
      rw [Engine.expr, expr, ih body (by simp [Expr.children])]
      rfl

end Expressions

end Tree

end PegCompiler
