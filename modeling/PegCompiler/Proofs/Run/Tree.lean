import PegCompiler.Proofs.Code.Lowered
import PegCompiler.Proofs.Run.Stepping

/-!
Running expressions as they stand, without code: what the instructions of an expression do, told in
terms of its parts. Labels have their values in a scope instead of places on a stack. With `prune`,
what can never match is left out where the code for it is; entering a loop takes fuel as it does on
the machine, and rules share their notes and their memo table with it. A run may also be more careful
than the machine and refuse to enter a range, as if its bound was no number.
-/

namespace PegCompiler

/-- The labels that user code can see, with their values. -/
abbrev Scope := List (Text × Value)

/-- The scope behind an element that gave a value. -/
def Expr.extend (e : Expr) (value : Value) (scope : Scope) : Scope :=
  match e.label? with
  | some name => Value.setField name value scope
  | none => scope

/-- What the rules of a grammar run with. The switches of `program` say what is noted and kept. -/
structure Scene where
  program : Program
  grammar : Grammar
  meaning : UserFunction → UserCode
  matcher : CharClass → ClassMatcher
  prune : Bool
  /-- The ranges that are entered; the machine enters every one. -/
  admits : Expr → Scope → Bool := fun _ _ => true

/-- Rules run as their code does: what never matches is left out, and every range is entered. -/
structure Scene.Faithful (scene : Scene) : Prop where
  prune : scene.prune = true
  admits : ∀ e scope, scene.admits e scope = true

namespace Tree

def lift {α : Type} : Except Raise α → Run α
  | .ok a => return a
  | .error raised => throw raised

def state : Run ParserState := return (← get).state

def change (change : ParserState → ParserState) : Run Unit := modify (·.change change)

def offset : Run Int := return (← state).offset

def goTo (offset : Int) : Run Unit := change ({ · with offset })

def matching (primitive : ParserState → Except Raise (Option Text × ParserState)) : Run Outcome := do
  let (matched, after) ← lift (primitive (← state))
  change fun _ => after
  return matched.map .text

/-- Notes what is expected here, where failures are reported. -/
def expect (reports : Bool) (entry : Entry) : Run Unit := do
  if reports then
    let after ← lift ((← state).expect entry)
    change fun _ => after

def call (scene : Scene) (predicate : Bool) (body : Text) (scope : Scope) : Run Value := do
  lift (scene.meaning ⟨predicate, scope.map Prod.fst, body⟩ (← state) (scope.map Prod.snd))

/-- User code that sees the match from `start` on. -/
def act (scene : Scene) (start : Int) (body : Text) (scope : Scope) : Run Outcome := do
  change ({ · with mark := start })
  return some (← call scene false body scope)

/-- The number that a label holds. -/
def boundOf (scope : Scope) (name : Text) : Run Number :=
  match (Value.lookup? name scope).bind Value.number? with
  | some n => return n
  | none => throw .wrongType

/-- So many matches are as many as the greatest number allows. -/
def reached (scope : Scope) (max : Boundary) (count : Nat) : Run Bool :=
  match max with
  | .count n => return n ≤ count
  | .label (.text name) => return (← boundOf scope name).atMost count
  | _ => return false

/-- So many matches are not as many as the least number asks for. -/
def fewer (scope : Scope) (min : Boundary) (count : Nat) : Run Bool :=
  match min with
  | .count n => return count < n
  | .label (.text name) => return (← boundOf scope name).exceeds count
  | _ => return false

def once {α : Type} (rounds : Nat) (run : Run α) : Run α :=
  match rounds with
  | 0 => throw .outOfFuel
  | _ + 1 => run

/-- Collects matches in a row. -/
def collect (enough : Nat → Run Bool) (element : Run Outcome) :
    (rounds : Nat) → List Value → Run (List Value)
  | 0, _ => throw .outOfFuel
  | rounds + 1, items => do
    if ← enough items.length then return items
    match ← element with
    | none => return items
    | some item => collect enough element rounds (items ++ [item])

/-- Collects matches with something between them; the next one is looked for from `start` on, where
the delimiter before it begins. -/
def separate (enough : Nat → Run Bool) (element separator : Run Outcome) :
    (rounds : Nat) → (start : Int) → List Value → Run (List Value)
  | 0, _, _ => throw .outOfFuel
  | rounds + 1, start, items => do
    match ← element with
    | none =>
      goTo start
      return items
    | some item =>
      if ← enough (items.length + 1) then return items ++ [item]
      let start ← offset
      match ← separator with
      | none => return items ++ [item]
      | some _ => separate enough element separator rounds start (items ++ [item])

def gather (rounds : Nat) (scope : Scope) (max : Boundary) (element : Run Outcome)
    (separator : Option (Run Outcome)) : Run (List Value) :=
  match separator with
  | none => collect (reached scope max) element rounds []
  | some separator => once rounds do
    if ← reached scope max 0 then return []
    let start ← offset
    separate (reached scope max) element separator rounds start []

/-- A repetition that goes back if it has not collected enough. -/
def repetition (rounds : Nat) (scope : Scope) (min max : Boundary) (element : Run Outcome)
    (separator : Option (Run Outcome)) : Run Outcome := do
  let start ← offset
  let items ← gather rounds scope max element separator
  if ← fewer scope min items.length then
    goTo start
    return none
  return some (.list items)

def closeRecord (inverted : Bool) : Run Unit := do
  let (raised, after) := (← state).closeRecord inverted
  change fun _ => after
  match raised with
  | none => return
  | some raised => throw raised

def lookahead (negative : Bool) (body : Run Outcome) : Run Outcome := do
  let start ← offset
  change (·.openRecord)
  let out ← body
  closeRecord negative
  match out with
  | none => return if negative then some .null else none
  | some _ =>
    goTo start
    return if negative then none else some .null

/-- The value of a sequence without an action. -/
def rowValue (autos values : List Value) : Value :=
  match autos with
  | [] => .list values
  | [value] => value
  | values => .list values

mutual

/-- Runs an expression; a sequence ends with the user code `finish`, if there is any. -/
def expr (scene : Scene) (callRule : Int → Run Outcome) (rounds : Nat) (reports : Bool)
    (finish : Option Text) (scope : Scope) : Expr → Run Outcome
  | .literal _ value ignoreCase =>
    if value.isEmpty then return some (.text [])
    else do
      expect reports (.literal value ignoreCase)
      matching fun s => .ok <|
        if ignoreCase then s.matchLowercase value.lowercase else s.matchLiteral value
  | .charClass _ members => do
    expect reports (.charClass members)
    if members.parts.isEmpty then return none
    else matching (·.matchClass (scene.matcher members))
  | .any _ => do
    expect reports .any
    matching (·.matchAny)
  | .ruleRef _ name => callRule (scene.grammar.placeOf name)
  | .sequence _ elements => do
    let start ← offset
    once rounds (row scene callRule rounds reports finish start scope [] [] elements)
  | .choice info es =>
    if scene.prune && info.verdict = some .never then return none
    else once rounds (alternatives scene callRule rounds reports scope es)
  | .labeled _ _ _ _ body => expr scene callRule rounds reports none scope body
  | .unary _ operator body =>
    let inner := expr scene callRule rounds reports none scope body
    match operator with
    | .group => inner
    | .text => do
      let start ← offset
      match ← inner with
      | none => return none
      | some _ =>
        let current ← state
        return some (.text (Index.slice current.input start current.offset))
    | .followedBy => lookahead false inner
    | .notFollowedBy => lookahead true inner
    | .optional => return some ((← inner).getD .null)
    | .zeroOrMore => repetition rounds scope (.count 0) .unbounded inner none
    | .oneOrMore => repetition rounds scope (.count 1) .unbounded inner none
  | .range info min max body none =>
    if scene.admits (.range info min max body none) scope then
      repetition rounds scope min max (expr scene callRule rounds reports none scope body) none
    else throw .wrongType
  | .range info min max body (some separator) =>
    if scene.admits (.range info min max body (some separator)) scope then
      repetition rounds scope min max (expr scene callRule rounds reports none scope body)
        (some (expr scene callRule rounds reports none scope separator))
    else throw .wrongType
  | .named _ name body =>
    if reports then do
      expect true (.rule name)
      change fun s => { s with silence := s.silence + 1 }
      let out ← expr scene callRule rounds false finish scope body
      change fun s => { s with silence := s.silence - 1 }
      return out
    else expr scene callRule rounds false finish scope body
  | .action _ code _ body => do
    let start ← offset
    let out ← expr scene callRule rounds reports (some code) scope body
    match out with
    | none => return none
    | some value =>
      if body.isSequence then return some value
      else act scene start code (body.extend value scope)
  | .predicate _ negative code => do
    change fun s => { s with mark := s.offset }
    let value ← call scene true code scope
    return if value.isTrue != negative then some .null else none
  | .foreign _ => throw .malformed

/-- Runs what is left of a sequence that began at `start`. -/
def row (scene : Scene) (callRule : Int → Run Outcome) (rounds : Nat) (reports : Bool)
    (finish : Option Text) (start : Int) (scope : Scope) (autos values : List Value) :
    List Expr → Run Outcome
  | [] =>
    match finish with
    | some code => act scene start code scope
    | none => return some (rowValue autos values)
  | e :: rest => do
    match ← expr scene callRule rounds reports none scope e with
    | none =>
      goTo start
      return none
    | some value =>
      row scene callRule rounds reports finish start (e.extend value scope)
        (e.collect value autos) (values ++ [value]) rest

def alternatives (scene : Scene) (callRule : Int → Run Outcome) (rounds : Nat) (reports : Bool)
    (scope : Scope) : List Expr → Run Outcome
  | [] => return none
  | e :: rest => do
    if scene.prune && e.verdict = .never then alternatives scene callRule rounds reports scope rest
    else
      match ← expr scene callRule rounds reports none scope e with
      | some value => return some value
      | none => alternatives scene callRule rounds reports scope rest

end

/-- A call of the rule at `place`, with its notes and by way of the memo table. -/
def called (program : Program) (place : Nat) (name : Text) (body : Run Outcome) : Run Outcome := do
  let start := (← get).state.offset
  Machine.note program ⟨.enter, name, start, start, none⟩
  let key := Machine.memoKey program place start
  match ← Machine.memoized program key with
  | some outcome =>
    Machine.noteEnd program name start outcome
    return outcome
  | none =>
    let outcome ← body
    Machine.remember program key outcome
    Machine.noteEnd program name start outcome
    return outcome

/-- Runs the rule at `index`. -/
def rule (scene : Scene) : (fuel : Nat) → (index : Int) → Run Outcome
  | 0, _ => throw .outOfFuel
  | fuel + 1, index => do
    let some place := Index.place? scene.grammar.rules.length index | throw .malformed
    let some r := scene.grammar.rules[place]? | throw .malformed
    called scene.program place r.name
      (expr scene (rule scene fuel) fuel r.reports none [] r.body)

section Ends

variable (world : World)

@[simp] theorem go_lift {α : Type} (result : Except Raise α) :
    Run.go (lift result) world = (result, world) := by cases result <;> rfl

@[simp] theorem go_state : Run.go state world = (.ok world.state, world) := rfl

@[simp] theorem go_change (change : ParserState → ParserState) :
    Run.go (Tree.change change) world = (.ok ⟨⟩, world.change change) := rfl

@[simp] theorem go_offset : Run.go offset world = (.ok world.state.offset, world) := rfl

@[simp] theorem go_goTo (offset : Int) :
    Run.go (goTo offset) world = (.ok ⟨⟩, world.change ({ · with offset })) := rfl

@[simp] theorem go_matching (primitive : ParserState → Except Raise (Option Text × ParserState)) :
    Run.go (matching primitive) world =
      match primitive world.state with
      | .ok (matched, after) => (.ok (matched.map .text), { world with state := after })
      | .error raised => (.error raised, world) := by
  simp only [matching, Run.go_bind, go_state, Ended.andThen_ok, go_lift]
  cases primitive world.state <;> rfl

@[simp] theorem go_expect (reports : Bool) (entry : Entry) :
    Run.go (expect reports entry) world =
      if reports then
        match world.state.expect entry with
        | .ok after => (.ok ⟨⟩, { world with state := after })
        | .error raised => (.error raised, world)
      else (.ok ⟨⟩, world) := by
  cases reports with
  | false => rfl
  | true =>
    simp only [expect, if_true, Run.go_bind, go_state, Ended.andThen_ok, go_lift]
    cases world.state.expect entry <;> rfl

@[simp] theorem go_call (scene : Scene) (predicate : Bool) (body : Text) (scope : Scope) :
    Run.go (call scene predicate body scope) world =
      (scene.meaning ⟨predicate, scope.map Prod.fst, body⟩ world.state (scope.map Prod.snd),
        world) := by
  simp only [call, Run.go_bind, go_state, Ended.andThen_ok, go_lift]

@[simp] theorem go_boundOf (scope : Scope) (name : Text) :
    Run.go (boundOf scope name) world =
      match (Value.lookup? name scope).bind Value.number? with
      | some n => (.ok n, world)
      | none => (.error .wrongType, world) := by
  unfold boundOf
  split <;> rfl

@[simp] theorem go_closeRecord (inverted : Bool) :
    Run.go (closeRecord inverted) world =
      match world.state.closeRecord inverted with
      | (none, after) => (.ok ⟨⟩, { world with state := after })
      | (some raised, after) => (.error raised, { world with state := after }) := by
  simp only [closeRecord, Run.go_bind, go_state, Ended.andThen_ok, go_change]
  rcases world.state.closeRecord inverted with ⟨_ | raised, after⟩ <;> rfl

theorem go_lookahead (negative : Bool) (body : Run Outcome) :
    Run.go (lookahead negative body) world =
      (Run.go body (world.change (·.openRecord))).andThen fun out after =>
        (Run.go (closeRecord negative) after).andThen fun _ closed =>
          Run.go (match out with
            | none => return if negative then some .null else none
            | some _ => do
              goTo world.state.offset
              return if negative then none else some .null) closed := by
  rw [lookahead, Run.go_bind, go_offset, Ended.andThen_ok, Run.go_bind, go_change,
    Ended.andThen_ok, Run.go_bind]
  refine congrArg _ (funext fun out => funext fun after => ?_)
  exact Run.go_bind ..

end Ends

end Tree

end PegCompiler
